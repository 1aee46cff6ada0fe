import ZipContainer.Proofs.Zip.Integrity

/-!
# What reading a member comes to

A member whose records can be read and whose packed data are a valid stream is read as what these
unpack to, cut at the stated size, once the checksum is compared (`Laid.Readable.readMember`).  The
outcome is a matter of the member and of the limit alone.  So a member that is read in one archive
is read alike in every other, wherever its local record stands there (`Laid.Readable.reads`).
-/

namespace ZipContainer.Zip.Laid

variable {l : Laid} {p : Packing} {data : ByteArray} {offset : Nat} {limit : Option Int}

/-- The member can be read wherever its local record stands: no flag is in the way, and the packed
data are a valid stream of a packing. -/
structure Readable (l : Laid) (p : Packing) : Prop where
  fits : l.Fits
  clear : ∀ f : Flag, f ≠ .utf8Name → f.isSet l.flags = false
  packing : Packing.ofCode? l.method = some p
  valid : (p.whole l.content).why ≠ .corrupt

/-- What the packed data of the member unpack to, cut at the stated size. -/
def cut (l : Laid) (p : Packing) : ByteArray := (p.whole l.content).output.extract 0 l.size

/-- The limit can be asked for one byte more of data of the packing. -/
def Askable (limit : Option Int) (p : Packing) : Prop :=
  p = .deflated → ∀ x, limit = some x → x < maxWord

/-- The packed data of a member where its local record stands. -/
def source (l : Laid) (p : Packing) (data : ByteArray) (offset : Nat) : Source :=
  ⟨data, offset + localSize + l.name.size, p, l.content.size, l.size, none⟩

namespace Readable

theorem locate (readable : l.Readable p) (h : l.LocalAt data offset) (hoffset : offset < absent32) :
    locate data (l.record offset) (offset + l.localRecord.size : Nat) =
      .ok (offset + localSize + l.name.size) :=
  locate_of_localAt h readable.fits readable.clear hoffset (Int.le_refl _)

theorem source? (readable : l.Readable p) (h : l.LocalAt data offset)
    (hoffset : offset < absent32) :
    (l.record offset).source? data (offset + l.localRecord.size : Nat) =
      some (l.source p data offset) :=
  source?_eq_some_iff.mpr ⟨_, p, readable.locate h hoffset, readable.packing, rfl⟩

theorem whole_source (p : Packing) (h : l.LocalAt data offset) :
    (l.source p data offset).whole = p.whole l.content := by
  have packed : data.extract (offset + localSize + l.name.size)
      (offset + localSize + l.name.size + l.content.size) = l.content := h.content
  rw [Source.whole, source, packed]

theorem intact (readable : l.Readable p) (h : l.LocalAt data offset) :
    (l.source p data offset).Intact where
  within := h.within
  valid := by
    rw [whole_source p h]
    exact readable.valid

theorem not_overreaches (readable : l.Readable p) (askable : Askable limit p) {bound : Int} :
    ¬ Overreaches data limit (l.record offset) bound := by
  rintro ⟨start, p', x, -, packing, hx, large, big | ⟨rfl, -⟩⟩
  · have content : l.content.size < absent32 := readable.fits.packed.content
    have size : (l.record offset).compressedSize = l.content.size := rfl
    have word : absent32 ≤ maxWord := by decide
    omega
  · have same : p = .deflated := Option.some.inj (readable.packing.symm.trans packing)
    exact absurd (askable same x hx) (Int.not_lt.mpr large)

variable [Zstandard.Decoder]

/-- **What reading a member comes to**, if the limit admits its size and can be asked for. -/
theorem readMember (readable : l.Readable p) (h : l.LocalAt data offset)
    (hoffset : offset < absent32) (admitted : withinLimit limit l.size = true)
    (askable : Askable limit p) :
    readMember data limit (l.record offset) (offset + l.localRecord.size : Nat) =
      if crc32 (l.cut p) ≠ l.crc then
        .error (.member (cutName l.text) (.checksum (cutName l.text)))
      else .ok (l.cut p) := by
  have size : (l.source p data offset).size = l.size := rfl
  rw [readMember_intact (readable.source? h hoffset) (readable.intact h) admitted
    (readable.not_overreaches askable), whole_source p h, size]
  rfl

/-- A member is only read under a limit that can be asked for. -/
theorem askable_of_readMember (readable : l.Readable p) (h : l.LocalAt data offset)
    (hoffset : offset < absent32) {content : ByteArray}
    (read : Zip.readMember data limit (l.record offset) (offset + l.localRecord.size : Nat) =
      .ok content) : Askable limit p := by
  rintro rfl x hx
  by_contra large
  have some : l.content.size = 0 ∨ offset + localSize + l.name.size < data.size := by
    have := h.within
    omega
  have beyond : Overreaches data limit (l.record offset) (offset + l.localRecord.size : Nat) :=
    ⟨_, _, x, readable.locate h hoffset, readable.packing, hx, Int.not_lt.mp large,
      .inr ⟨rfl, some⟩⟩
  have plain : (l.record offset).method ≠ Method.zstandard.code :=
    method_of_source? (readable.source? h hoffset)
  rw [Zip.readMember, readMember_within read, if_neg (by decide), if_neg plain,
    (readPacked_escapes.mpr ⟨rfl, .inr beyond⟩).1] at read
  cases read

/-- **A member that is read once is read alike everywhere.** -/
theorem reads (readable : l.Readable p) (h : l.LocalAt data offset) (hoffset : offset < absent32)
    {e? : Option Entry}
    (read : entryOf data limit (l.record offset, (offset + l.localRecord.size : Nat)) = .ok e?) :
    l.Reads limit e? := by
  obtain ⟨named, ⟨directory, rfl⟩ | ⟨file, e, rfl, path, content⟩⟩ := entryOf_eq_ok_iff.mp read
  · exact fun _ _ _ _ => entryOf_eq_ok_iff.mpr ⟨named, .inl ⟨directory, rfl⟩⟩
  · have admitted : withinLimit limit l.size = true := readMember_within content
    have askable := readable.askable_of_readMember h hoffset content
    have outcome := readable.readMember h hoffset admitted askable
    intro data' offset' h' hoffset'
    have outcome' := readable.readMember h' hoffset' admitted askable
    refine entryOf_eq_ok_iff.mpr ⟨named, .inr ⟨file, e, rfl, path, ?_⟩⟩
    dsimp only at content ⊢
    rw [outcome', ← outcome, content]

end Readable

/-- A packed entry can be read, whatever its stamp. -/
theorem readable_packed {m : WriteMethod} {e : Entry} {s : Stamp}
    (fits : ((packed m e).stamped s).Fits) : ((packed m e).stamped s).Readable m.packing where
  fits := fits
  clear := by
    change ∀ f : Flag, f ≠ .utf8Name → f.isSet (packed m e).flags = false
    rw [flags_packed]
    exact isSet_nameFlags _
  packing := by cases m <;> rfl
  valid := (m.whole_pack e.content).2

end ZipContainer.Zip.Laid
