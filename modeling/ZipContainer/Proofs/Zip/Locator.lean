import ZipContainer.Proofs.Zip.RoundTrip

/-!
# What is taken for a locator

A reader looks for the locator of a 64-bit record in the twenty bytes before the end record.  Unless
such a record is written, what stands there is the end of the last directory record.

A signature of a locator cannot stand among the fields of that record: if there is one, the last
name has at least sixteen bytes (`sixteen_le_of_locator`).  Then the bytes in which a locator gives
a disk are bytes of the name.  No byte of a name is zero, as names are cut at their first NUL, so
the archive is taken for a part of a larger one and not decoded (`readEnd_locator`,
`decode_locator`).
-/

namespace ZipContainer.Zip

variable {now : Moment} {ps : List Packed} {p : Packed} {data : ByteArray} {pos offset : Nat}

/-- No 64-bit record is written where the archive is small enough and its members can be counted. -/
theorem Short.narrow (short : Short now ps) (hsize : (layout now ps).size ≤ shortLimit)
    (count : ps.length ≤ maxField) : Laid.endsWide (laidOut now ps) = false := by
  rw [layout_eq short, Laid.size_archive, Laid.endOffset] at hsize
  exact isWideEnd_eq_false (by rwa [laidOut, List.length_map]) (by omega) (by omega)

/-- The last directory record stands just before the end record. -/
theorem lastRecord_standsAt (short : Short now (ps ++ [p]))
    (narrow : Laid.endsWide (laidOut now (ps ++ [p])) = false) :
    ∃ pos, StandsAt (layout now (ps ++ [p])) pos
        ((p.laid now).directoryRecord (Laid.locals (laidOut now ps)).size) ∧
      Laid.endOffset (laidOut now (ps ++ [p])) = pos + directorySize + p.name.size := by
  have split : laidOut now (ps ++ [p]) = laidOut now ps ++ [p.laid now] := List.map_append
  have directory := Laid.directoryRecord_standsAt (laidOut now ps) (p.laid now) []
  rw [layout_eq short, Laid.endOffset_of_narrow narrow, split]
  refine ⟨_, directory, ?_⟩
  rw [Laid.directoryFrom_append, Laid.directoryFrom, Laid.directoryFrom, ByteArray.append_empty,
    ByteArray.size_append, Laid.size_directoryRecord, Nat.add_assoc, Nat.add_assoc]
  rfl

/-- The fields of a directory record from the size of the name to the attributes. -/
def lateFields (nameSize : Nat) : List UInt8 :=
  littleEndian 2 nameSize ++ littleEndian 2 0 ++ littleEndian 2 0 ++ littleEndian 2 0 ++
    littleEndian 2 0 ++ littleEndian 4 writtenAttributes

/-- No field there looks like the first byte of a signature, or like a later one for the shortest of
names, if the name is so short that a locator begins among them. -/
theorem lateFields_apart : (lateFields 0)[0]? ≠ some 0x06 ∧ (lateFields 1)[0]? ≠ some 0x4B ∧
    ∀ n < 16, 2 ≤ n → (lateFields n)[n - 2]? ≠ some 0x50 := by
  decide

/-- The parts of a directory record that a locator can reach. -/
theorem directoryRecord_parts (h : StandsAt data pos ((p.laid now).directoryRecord offset)) :
    StandsAt data (pos + 28) (bytesOf (lateFields p.name.size)) ∧
      StandsAt data (pos + directorySize) p.name := by
  obtain ⟨front, hsize, hfront⟩ : ∃ front, front.size = 28 ∧ (p.laid now).directoryRecord offset =
      front ++ bytesOf (lateFields p.name.size) ++ bytesOf (littleEndian 4 offset) ++ p.name := by
    refine ⟨bytesOf (directorySignature ++ littleEndian 1 writtenVersion ++
      littleEndian 1 writtenSystem ++ littleEndian 1 writtenVersion ++ littleEndian 1 0 ++
      littleEndian 2 p.flags ++ littleEndian 2 p.method ++ littleEndian 2 now.packedTime ++
      littleEndian 2 now.packedDate ++ littleEndian 4 p.crc.toNat ++
      littleEndian 4 p.content.size ++ littleEndian 4 p.size), ?_, ?_⟩
    · simp [directorySignature]
    · simp only [Laid.directoryRecord, Laid.sharedFields, Packed.laid, Packed.stamped, Stamp.written,
        lateFields, bytesOf_append, ByteArray.append_assoc]
  rw [hfront, standsAt_append, standsAt_append, standsAt_append] at h
  obtain ⟨⟨⟨-, hlate⟩, -⟩, hname⟩ := h
  rw [hsize] at hlate
  simp only [ByteArray.size_append, hsize, size_bytesOf, length_littleEndian] at hname
  exact ⟨hlate, hname⟩

/-- **A locator takes a long name**: its signature does not stand among the fields of a record. -/
theorem sixteen_le_of_locator (h : StandsAt data pos ((p.laid now).directoryRecord offset))
    (hlocator : startsAt data (pos + directorySize + p.name.size - locatorSize) locatorSignature
      = true) : 16 ≤ p.name.size := by
  have late (i : Nat) (hi : i < 14) : data.data[pos + 28 + i]? = (lateFields p.name.size)[i]? := by
    rw [(directoryRecord_parts h).1.getElem? (by simpa [lateFields] using hi)]
    simp [bytesOf]
  have signature (i : Nat) (hi : i < 4) :
      data.data[pos + directorySize + p.name.size - locatorSize + i]? = locatorSignature[i]? := by
    rw [(startsAt_iff.mp hlocator).getElem? hi]
    simp [bytesOf]
  apply Decidable.byContradiction
  intro hshort
  by_cases hnone : p.name.size = 0
  · have place : pos + directorySize + 0 - locatorSize + 2 = pos + 28 + 0 := by
      rw [directorySize, locatorSize]; omega
    have first := late 0 (by decide)
    rw [hnone] at first signature
    rw [← place, signature 2 (by decide)] at first
    exact lateFields_apart.1 first.symm
  by_cases hone : p.name.size = 1
  · have place : pos + directorySize + 1 - locatorSize + 1 = pos + 28 + 0 := by
      rw [directorySize, locatorSize]; omega
    have first := late 0 (by decide)
    rw [hone] at first signature
    rw [← place, signature 1 (by decide)] at first
    exact lateFields_apart.2.1 first.symm
  · have place : pos + directorySize + p.name.size - locatorSize + 0 =
        pos + 28 + (p.name.size - 2) := by
      rw [directorySize, locatorSize]; omega
    have first := late (p.name.size - 2) (by omega)
    rw [← place, signature 0 (by decide)] at first
    exact lateFields_apart.2.2 p.name.size (by omega) (by omega) first.symm

/-- **Where a locator is found, the archive is taken for a part of a larger one**, if the last name
holds no NUL. -/
theorem readEnd_locator (short : Short now (ps ++ [p]))
    (narrow : Laid.endsWide (laidOut now (ps ++ [p])) = false) (hnul : 0 ∉ p.name.data.toList)
    (hlocator : startsAt (layout now (ps ++ [p]))
      ((layout now (ps ++ [p])).size - endSize - locatorSize) locatorSignature = true) :
    readEnd (layout now (ps ++ [p])) = .error .spansDisks := by
  obtain ⟨pos, hrecord, hend⟩ := lastRecord_standsAt short narrow
  have position : endPosition? (layout now (ps ++ [p])) =
      some (Laid.endOffset (laidOut now (ps ++ [p]))) := by
    rw [layout_eq short, Laid.endPosition?_archive]
  have size : (layout now (ps ++ [p])).size - endSize =
      Laid.endOffset (laidOut now (ps ++ [p])) := by
    rw [layout_eq short, Laid.size_archive, Nat.add_sub_cancel]
  rw [size, hend] at hlocator
  have long : 16 ≤ p.name.size := sixteen_le_of_locator hrecord hlocator
  -- A locator gives the disk in its bytes 4 to 7, and sixteen bytes of it are left from there.
  have place : pos + directorySize + p.name.size - locatorSize + 4 =
      pos + directorySize + (p.name.size - 16) := by
    rw [locatorSize, directorySize]; omega
  have disk : fieldAt (layout now (ps ++ [p]))
      (pos + directorySize + p.name.size - locatorSize + 4) 4 ≠ 0 := by
    rw [place]
    exact fieldAt_ne_zero (directoryRecord_parts hrecord).2 (by omega) (by decide) hnul
  simp only [readEnd, position, hend, hlocator, if_true]
  rw [if_pos (by simp [disk])]

/-! ### Entries -/

variable {m : WriteMethod} {es out : List Entry} {limit : Option Int}

/-- No name of a packed entry holds a NUL, so a locator is always taken so. -/
theorem readEnd_packed_locator (compact : Compact es) (count : es.length ≤ maxField)
    (hsize : (layout now (es.map (packed m))).size < 2 ^ 31 - 1)
    (hlocator : startsAt (layout now (es.map (packed m)))
      ((layout now (es.map (packed m))).size - endSize - locatorSize) locatorSignature = true) :
    readEnd (layout now (es.map (packed m))) = .error .spansDisks := by
  have short := compact.short hsize
  have narrow := short.narrow (Nat.le_of_lt hsize) (by rwa [List.length_map])
  rcases List.eq_nil_or_concat es with rfl | ⟨es, e, rfl⟩
  · have alone : startsAt emptyArchive 0 locatorSignature = false := by decide +kernel
    exact Bool.noConfusion (hlocator.symm.trans alone)
  · rw [List.concat_eq_append, List.map_append, List.map_singleton] at hlocator short narrow ⊢
    exact readEnd_locator short narrow (Text.zero_not_mem_toUTF8 (noNul_cutName e.path)) hlocator

/-- Where entries were decoded there is no locator. -/
theorem noLocator_of_decode [Zstandard.Decoder] (compact : Compact es)
    (count : es.length ≤ maxField)
    (hsize : (layout now (es.map (packed m))).size < 2 ^ 31 - 1)
    (decoded : decode (layout now (es.map (packed m))) limit = .ok out) :
    startsAt (layout now (es.map (packed m)))
      ((layout now (es.map (packed m))).size - endSize - locatorSize) locatorSignature = false := by
  refine Bool.eq_false_iff.mpr fun locator => ?_
  obtain ⟨-, d, read, -⟩ := decode_eq_ok_iff.mp decoded
  rw [readDirectory, readEnd_packed_locator compact count hsize locator] at read
  cases read

/-- **An archive with a locator is not decoded**, whatever entries it was encoded from. -/
theorem decode_locator [Zstandard.Decoder] (archivable : Archivable now es)
    (hsize : (layout now (es.map (packed m))).size < 2 ^ 31 - 1)
    (hlocator : startsAt (layout now (es.map (packed m)))
      ((layout now (es.map (packed m))).size - endSize - locatorSize) locatorSignature = true) :
    decode (layout now (es.map (packed m))) limit =
      .error (.container (.directory .spansDisks)) := by
  have compact := archivable.compact
  rw [decode, compact.isArchive hsize, readDirectory,
    readEnd_packed_locator compact archivable.count hsize hlocator]
  rfl

end ZipContainer.Zip
