import ZipContainer.Proofs.Zip.Entries
import ZipContainer.Proofs.Zip.Refusals
import ZipContainer.Zstandard.Frame

/-!
# What was encoded is decoded again

An archive decodes to what each of its members reads as, in order (`Laid.decode_archive`).

Entries that can be archived are encoded, and the archive decodes to them, each under the name by
which readers know it; those that stand for directories are passed over (`decode_encode`).  The
one exception is an archive with bytes before its end record that a reader takes for the locator of
a 64-bit record.
-/

namespace ZipContainer.Zip

variable {m : WriteMethod} {now : Moment} {es : List Entry} {data : ByteArray} {offset : Nat}
  {limit : Option Int}

/-! ### Archives of members -/

namespace Laid

variable {α : Type} {xs : List α} {lay : α → Laid} {file? : α → Option Entry}

/-- An archive begins with a local record, or with its end record if it has no members. -/
theorem isArchive_archive {ls : List Laid} (fits : ∀ l ∈ ls, l.Fits) :
    isArchive (archive ls) = true := by
  cases ls with
  | nil =>
      have alone : isArchive emptyArchive = true := by decide +kernel
      exact alone
  | cons l ls =>
      have members := locals_standsAt (l :: ls)
      rw [locals, standsAt_append] at members
      have first := localAt_of_standsAt members.1 (fits l List.mem_cons_self)
      simp [isArchive, archiveSignatures, first.signature]

section

variable [Zstandard.Decoder]

/-- **Members are read one by one**, from wherever the first of them begins. -/
theorem readEntries_members (fits : ∀ x ∈ xs, (lay x).Fits)
    (reads : ∀ x ∈ xs, (lay x).Reads limit (file? x))
    (h : StandsAt data offset (locals (xs.map lay)))
    (hoffset : offset + (locals (xs.map lay)).size < absent32) :
    readEntries data limit (membersFrom (xs.map lay) offset) = .ok (xs.filterMap file?) := by
  induction xs generalizing offset with
  | nil => rfl
  | cons x xs ih =>
      rw [List.map_cons, locals, standsAt_append] at h
      rw [List.map_cons, locals, ByteArray.size_append] at hoffset
      have head := localAt_of_standsAt h.1 (fits x List.mem_cons_self)
      -- Each member is bounded by where the next one begins, which is where it ends.
      have first := reads x List.mem_cons_self data offset head (by omega)
      have rest := ih (fun x' hx' => fits x' (List.mem_cons_of_mem x hx'))
        (fun x' hx' => reads x' (List.mem_cons_of_mem x hx')) h.2 (by omega)
      rw [List.map_cons, membersFrom, readEntries_cons, first, rest, List.filterMap_cons]
      cases file? x <;> rfl

/-- Decoding an archive is reading its members. -/
theorem decode_archive_eq {ls : List Laid} (plain : Plain ls) :
    decode (archive ls) limit = readEntries (archive ls) limit (membersFrom ls 0) := by
  rw [decode, isArchive_archive plain.fits, readDirectory_archive plain]
  rfl

/-- **An archive decodes to what its members read as**, in order. -/
theorem decode_archive (plain : Plain (xs.map lay))
    (reads : ∀ x ∈ xs, (lay x).Reads limit (file? x)) :
    decode (archive (xs.map lay)) limit = .ok (xs.filterMap file?) := by
  have fits : ∀ x ∈ xs, (lay x).Fits := fun x hx => plain.fits _ (List.mem_map_of_mem hx)
  have small := plain.size
  rw [size_archive, endOffset] at small
  rw [decode_archive_eq plain]
  exact readEntries_members fits reads (locals_standsAt _) (by omega)

end

end Laid

/-! ### Entries as readers know them -/

/-- The entries that readers know, those apart that stand for directories. -/
def knownEntries (es : List Entry) : List Entry :=
  (es.map known).filter fun e => !isDirectoryName e.path

theorem knownEntries_eq_filterMap (es : List Entry) :
    knownEntries es = es.filterMap knownFile? := by
  rw [knownEntries, ← List.filterMap_eq_filter, List.filterMap_map]
  refine List.filterMap_congr fun e _ => ?_
  cases h : isDirectoryName (cutName e.path) <;> simp [knownFile?, known, h]

/-- An entry without NUL and slash at its end is known as it is. -/
theorem knownFile?_eq_self {e : Entry} (noNul : Point.nul ∉ e.path.toList)
    (file : isDirectoryName e.path = false) : knownFile? e = some e := by
  rw [knownFile?, known, cutName_of_noNul noNul, file]
  rfl

theorem knownEntries_eq_self
    (h : ∀ e ∈ es, Point.nul ∉ e.path.toList ∧ isDirectoryName e.path = false) :
    knownEntries es = es := by
  have itself : ∀ e ∈ es, knownFile? e = some e := fun e he =>
    knownFile?_eq_self (h e he).1 (h e he).2
  rw [knownEntries_eq_filterMap, List.filterMap_congr itself, List.filterMap_some]

/-! ### Entries that can be archived -/

/-- Entries that can be archived at a moment: the year can be stored, there are no more than can be
counted, every known name is there and has UTF-8 that fits its field, and no content is too large. -/
structure Archivable (now : Moment) (es : List Entry) : Prop where
  year : Moment.firstYear ≤ now.year ∧ now.year ≤ Moment.lastYear
  count : es.length ≤ maxField
  named : ∀ e ∈ es, cutName e.path ≠ ""
  unicode : ∀ e ∈ es, (cutName e.path).IsUnicode
  nameSize : ∀ e ∈ es, (cutName e.path).toUTF8.size ≤ maxField
  contentSize : ∀ e ∈ es, e.content.size < 2 * 10 ^ 9

/-- A limit under which entries can be read: it is less than the greatest number, and no content is
larger, directories apart. -/
def Admits (limit : Option Int) (es : List Entry) : Prop :=
  ∀ l, limit = some l → l < maxWord ∧
    ∀ e ∈ es, isDirectoryName (cutName e.path) = false → (e.content.size : Int) ≤ l

/-- A content that is not too large needs no fields of eight bytes, also when it is packed. -/
theorem short_packed (m : WriteMethod) {e : Entry} (contentSize : e.content.size < 2 * 10 ^ 9) :
    (packed m e).Short := by
  have size : (packed m e).size = e.content.size := rfl
  refine Packed.short_of_steady (steady_packed m e) (decide_eq_false ?_)
  rw [shortLimit]
  omega

/-- The names and the sizes of entries suit records without fields of eight bytes. -/
structure Compact (es : List Entry) : Prop where
  unicode : ∀ e ∈ es, (cutName e.path).IsUnicode
  nameSize : ∀ e ∈ es, (cutName e.path).toUTF8.size ≤ maxField
  contentSize : ∀ e ∈ es, e.content.size < 2 * 10 ^ 9

theorem Archivable.compact (h : Archivable now es) : Compact es :=
  ⟨h.unicode, h.nameSize, h.contentSize⟩

theorem Compact.packs (h : Compact es)
    (year : Moment.firstYear ≤ now.year ∧ now.year ≤ Moment.lastYear) (m : WriteMethod) :
    ∀ e ∈ es, Packs m now e := by
  intro e he
  have least : shortLimit ≤ maxLong := by decide
  have short := short_packed m (h.contentSize e he)
  exact {
    early := year.1
    late := year.2
    unicode := h.unicode e he
    name := h.nameSize e he
    size := Nat.le_trans short.size_le least
    packedSize := Nat.le_trans short.content least }

/-- **Entries that are compact are encoded**, with or without names. -/
theorem Compact.encode_eq_ok (h : Compact es)
    (year : Moment.firstYear ≤ now.year ∧ now.year ≤ Moment.lastYear) (count : es.length ≤ maxField) :
    encode m now es = .ok (layout now (es.map (packed m))) := by
  refine encode_of_packs (h.packs year m) (span_le ((List.length_map _).symm ▸ count) ?_)
  intro p hp
  obtain ⟨e, he, rfl⟩ := List.mem_map.mp hp
  exact ⟨h.nameSize e he, (short_packed m (h.contentSize e he)).content⟩

theorem encode_eq_ok (h : Archivable now es) :
    encode m now es = .ok (layout now (es.map (packed m))) :=
  h.compact.encode_eq_ok h.year h.count

/-- Entries that are encoded can be archived, if they have names and there is not too much of them. -/
theorem archivable_of_encode {b : ByteArray} (encoded : encode m now es = .ok b) (some : es ≠ [])
    (named : ∀ e ∈ es, cutName e.path ≠ "") (count : es.length ≤ maxField)
    (contentSize : ∀ e ∈ es, e.content.size < 2 * 10 ^ 9) : Archivable now es := by
  obtain ⟨⟨packs, -⟩, -⟩ := encode_eq_ok_iff.mp encoded
  obtain ⟨e, rest, rfl⟩ := List.ne_nil_iff_exists_cons.mp some
  have first := packs e List.mem_cons_self
  exact ⟨⟨first.early, first.late⟩, count, named, fun e he => (packs e he).unicode,
    fun e he => (packs e he).name, contentSize⟩

/-! ### Reading back -/

/-- A packed content is within the archive. -/
theorem Laid.size_content_le {l : Laid} {ls : List Laid} (hl : l ∈ ls) :
    l.content.size ≤ (archive ls).size := by
  rw [size_archive, endOffset]
  suffices l.content.size ≤ (locals ls).size by omega
  induction ls with
  | nil => cases hl
  | cons l' ls ih =>
      rw [locals, ByteArray.size_append, size_localRecord]
      rcases List.mem_cons.mp hl with rfl | hl
      · omega
      · have := ih hl
        omega

theorem Compact.sizes (h : Compact es) (m : WriteMethod) : ∀ p ∈ es.map (packed m), p.Short := by
  intro p hp
  obtain ⟨e, he, rfl⟩ := List.mem_map.mp hp
  exact short_packed m (h.contentSize e he)

theorem Compact.fits (h : Compact es) (m : WriteMethod) : ∀ p ∈ es.map (packed m), p.Fits := by
  intro p hp
  have least : shortLimit < absent32 := by decide
  have short := h.sizes m p hp
  obtain ⟨e, he, rfl⟩ := List.mem_map.mp hp
  exact fits_packed (h.unicode e he) (h.nameSize e he)
    (Nat.le_trans short.size_le (Nat.le_of_lt least)) (Nat.lt_of_le_of_lt short.content least)

theorem size_localRecords_le_layout (now : Moment) (ps : List Packed) :
    (localRecords now ps).size ≤ (layout now ps).size := by
  simp only [layout, ByteArray.size_append]
  omega

/-- An archive that is small enough needs no fields of eight bytes. -/
theorem Compact.short (h : Compact es) (hsize : (layout now (es.map (packed m))).size < 2 ^ 31 - 1) :
    Short now (es.map (packed m)) where
  sizes := h.sizes m
  offsets := by
    have within := size_localRecords_le_layout now (es.map (packed m))
    rw [← localRecords_eq now (h.sizes m), shortLimit]
    omega

theorem Compact.isArchive (h : Compact es)
    (hsize : (layout now (es.map (packed m))).size < 2 ^ 31 - 1) :
    isArchive (layout now (es.map (packed m))) = true := by
  rw [layout_eq (h.short hsize)]
  exact Laid.isArchive_archive (fits_laidOut (h.fits m))

/-- The archive is plain, if no bytes before its end record look like a locator. -/
theorem Compact.plain (h : Compact es)
    (hsize : (layout now (es.map (packed m))).size < 2 ^ 31 - 1)
    (hlocator : es.length ≤ maxField → es ≠ [] → startsAt (layout now (es.map (packed m)))
      ((layout now (es.map (packed m))).size - endSize - locatorSize) locatorSignature = false) :
    Plain now (es.map (packed m)) where
  toShort := h.short hsize
  fits := h.fits m
  size := Nat.lt_trans hsize (by decide)
  locator count some :=
    hlocator (List.length_map (packed m) ▸ count) fun none => some (by rw [none]; rfl)

theorem Plain.isArchive {ps : List Packed} (plain : Plain now ps) :
    isArchive (layout now ps) = true := by
  rw [layout_eq plain.toShort]
  exact Laid.isArchive_archive (fits_laidOut plain.fits)

section

variable [Zstandard.Decoder]

/-- The archive of entries that can be archived decodes to them. -/
theorem decode_layout (archivable : Archivable now es) (admits : Admits limit es)
    (hsize : (layout now (es.map (packed m))).size < 2 ^ 31 - 1)
    (hlocator : es ≠ [] → startsAt (layout now (es.map (packed m)))
      ((layout now (es.map (packed m))).size - endSize - locatorSize) locatorSignature = false) :
    decode (layout now (es.map (packed m))) limit = .ok (knownEntries es) := by
  have written : Plain now (es.map (packed m)) :=
    archivable.compact.plain hsize fun _ => hlocator
  have plain := written.laid
  rw [laidOut, List.map_map] at plain
  rw [layout_eq written.toShort, knownEntries_eq_filterMap, laidOut, List.map_map]
  refine Laid.decode_archive plain fun e he => ?_
  exact reads_packed (plain.fits _ (List.mem_map_of_mem he)) (archivable.unicode e he)
    (archivable.named e he) fun l hl => ⟨(admits l hl).1, (admits l hl).2 e he⟩

/-- **What was encoded is decoded again.**  Entries that can be archived are encoded.  If the
archive is small enough, and the twenty bytes before its end record do not begin with the signature
of a locator, it decodes, under any limit that admits the contents, to the entries in their order,
repetitions among them, each under the name by which readers know it; only those are left out whose
names end in a slash. -/
theorem decode_encode (m : WriteMethod) (now : Moment) (es : List Entry) (limit : Option Int)
    (archivable : Archivable now es) (admits : Admits limit es) :
    ∃ b, encode m now es = .ok b ∧
      (b.size < 2 ^ 31 - 1 →
        (es ≠ [] → startsAt b (b.size - endSize - locatorSize) locatorSignature = false) →
        decode b limit = .ok (knownEntries es)) := by
  exact ⟨_, encode_eq_ok archivable, decode_layout archivable admits⟩

end

open scoped Zstandard in
/-- Of a directory, a name with a NUL, and the same name again, all but the directory come back, the
name cut. -/
theorem decode_encode_repeated :
    ∃ b, encode .stored ⟨2020, 2, 3, 4, 5, 6⟩
        [⟨"d/", bytesOf [1, 2, 3]⟩, ⟨"é\x00x", bytesOf [1]⟩, ⟨"é", bytesOf [2]⟩] = .ok b ∧
      decode b (some 1) = .ok [⟨"é", bytesOf [1]⟩, ⟨"é", bytesOf [2]⟩] := by
  let now : Moment := ⟨2020, 2, 3, 4, 5, 6⟩
  let es : List Entry :=
    [⟨"d/", bytesOf [1, 2, 3]⟩, ⟨"é\x00x", bytesOf [1]⟩, ⟨"é", bytesOf [2]⟩]
  have archivable : Archivable now es := ⟨by decide, by decide, by decide +kernel,
    by decide +kernel, by decide +kernel, by decide +kernel⟩
  have admits : Admits (some 1) es := by
    rintro l ⟨⟩
    exact ⟨by decide, by decide +kernel⟩
  obtain ⟨b, hb, hread⟩ := decode_encode .stored now es (some 1) archivable admits
  obtain rfl : layout now (es.map (packed .stored)) = b := by
    rw [encode_eq_ok archivable] at hb
    exact Except.ok.inj hb
  refine ⟨_, hb, ?_⟩
  rw [hread (by decide +kernel) fun _ => by decide +kernel]
  have known : knownEntries es = [⟨"é", bytesOf [1]⟩, ⟨"é", bytesOf [2]⟩] := by decide +kernel
  rw [known]

end ZipContainer.Zip
