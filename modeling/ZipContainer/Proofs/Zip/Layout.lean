import ZipContainer.Proofs.Zip.Bounds
import ZipContainer.Proofs.Zip.Records

/-!
# Archives as they are laid out

The archive of laid out members is their local records end to end, then their directory records in
the same order, then the end record (`Laid.archive`).  It is read from its end: the end record is
found at the very end (`endPosition?_archive`), it tells where the directory is (`readEnd_archive`),
and the directory is read back record by record (`readRecords_directoryFrom`).  Together,
`readDirectory_archive`.

The one thing that can go wrong is a locator of a 64-bit record, which a reader takes any bytes for
that look like one and stand just before the end record.

An archive that is written is that of its entries with the stamp of the moment (`layout_eq`).
-/

namespace ZipContainer.Zip

variable {data : ByteArray} {pos offset : Nat}

/-- What reading a directory does once the end record is read. -/
theorem readDirectory_of_readEnd {data : ByteArray} {e : EndRecord} (h : readEnd data = .ok e) :
    readDirectory data =
      if e.start < 0 then .error DirectoryFault.badOffset.asFailure
      else (readRecords (data.extract e.start.toNat (e.start.toNat + e.size)) e.size e.shift
        (e.size + 1) 0 []).map
          fun records => ⟨e.start.toNat, withBounds e.start.toNat records, e.comment⟩ := by
  rw [readDirectory, h]
  rfl

namespace Laid

variable {l : Laid} {ls : List Laid}

/-! ### The parts of an archive -/

/-- The local records of members, end to end. -/
def locals : List Laid → ByteArray
  | [] => ByteArray.empty
  | l :: ls => l.localRecord ++ locals ls

/-- The directory records of members whose local records begin at an offset. -/
def directoryFrom : List Laid → Nat → ByteArray
  | [], _ => ByteArray.empty
  | l :: ls, offset => l.directoryRecord offset ++ directoryFrom ls (offset + l.localRecord.size)

/-- The archive of members. -/
def archive (ls : List Laid) : ByteArray :=
  locals ls ++ directoryFrom ls 0 ++ ending ls.length (directoryFrom ls 0).size (locals ls).size

/-- The records of members from an offset on, as a reader sees them. -/
def recordsFrom : List Laid → Nat → List Record
  | [], _ => []
  | l :: ls, offset => l.record offset :: recordsFrom ls (offset + l.localRecord.size)

/-- The records of members with their end bounds: each member ends where the next one begins. -/
def membersFrom : List Laid → Nat → List (Record × Int)
  | [], _ => []
  | l :: ls, offset =>
    (l.record offset, (offset + l.localRecord.size : Nat)) ::
      membersFrom ls (offset + l.localRecord.size)

/-- There is a 64-bit record at the end of an archive. -/
def endsWide (ls : List Laid) : Bool :=
  isWideEnd ls.length (directoryFrom ls 0).size (locals ls).size

/-- Where the end record of an archive stands. -/
def endOffset (ls : List Laid) : Nat :=
  (locals ls).size + (directoryFrom ls 0).size +
    wideSpan ls.length (directoryFrom ls 0).size (locals ls).size

theorem endOffset_of_narrow {ls : List Laid} (h : endsWide ls = false) :
    endOffset ls = (locals ls).size + (directoryFrom ls 0).size := by
  rw [endOffset, wideSpan, ← endsWide, h]
  rfl

theorem size_archive (ls : List Laid) : (archive ls).size = endOffset ls + endSize := by
  simp [archive, endOffset, ending, ByteArray.size_append]
  omega

theorem locals_standsAt (ls : List Laid) : StandsAt (archive ls) 0 (locals ls) := by
  have first := standsAt_middle ByteArray.empty (locals ls) (directoryFrom ls 0 ++
    ending ls.length (directoryFrom ls 0).size (locals ls).size)
  rwa [ByteArray.empty_append, ← ByteArray.append_assoc] at first

theorem directory_standsAt (ls : List Laid) :
    StandsAt (archive ls) (locals ls).size (directoryFrom ls 0) :=
  standsAt_middle _ _ _

theorem ending_standsAt (ls : List Laid) :
    StandsAt (archive ls) ((locals ls).size + (directoryFrom ls 0).size)
      (ending ls.length (directoryFrom ls 0).size (locals ls).size) := by
  have last := standsAt_middle (locals ls ++ directoryFrom ls 0)
    (ending ls.length (directoryFrom ls 0).size (locals ls).size) ByteArray.empty
  rwa [ByteArray.append_empty, ByteArray.size_append] at last

theorem end_standsAt (ls : List Laid) :
    StandsAt (archive ls) (endOffset ls) (endRecord (min ls.length maxField)
      (min (directoryFrom ls 0).size absent32) (min (locals ls).size absent32)) := by
  have last := ending_standsAt ls
  rw [ending, standsAt_append, size_wideEnd] at last
  exact last.2

/-! ### Members in two parts -/

theorem locals_append (ls ls' : List Laid) : locals (ls ++ ls') = locals ls ++ locals ls' := by
  induction ls with
  | nil => exact ByteArray.empty_append.symm
  | cons l ls ih => rw [List.cons_append, locals, locals, ih, ByteArray.append_assoc]

theorem directoryFrom_append (ls ls' : List Laid) (offset : Nat) :
    directoryFrom (ls ++ ls') offset =
      directoryFrom ls offset ++ directoryFrom ls' (offset + (locals ls).size) := by
  induction ls generalizing offset with
  | nil => exact ByteArray.empty_append.symm
  | cons l ls ih =>
      rw [List.cons_append, directoryFrom, directoryFrom, ih, locals, ByteArray.size_append,
        ByteArray.append_assoc, Nat.add_assoc]

theorem membersFrom_append (ls ls' : List Laid) (offset : Nat) :
    membersFrom (ls ++ ls') offset =
      membersFrom ls offset ++ membersFrom ls' (offset + (locals ls).size) := by
  induction ls generalizing offset with
  | nil => rfl
  | cons l ls ih =>
      rw [List.cons_append, membersFrom, membersFrom, ih, locals, ByteArray.size_append,
        List.cons_append, Nat.add_assoc]

/-- The record of a member that stands at an offset, with the place where it ends as its bound. -/
def member (l : Laid) (offset : Nat) : Record × Int :=
  (l.record offset, (offset + l.localRecord.size : Nat))

/-- The records of an archive, at one of its members. -/
theorem membersFrom_split (ls : List Laid) (l : Laid) (ls' : List Laid) (offset : Nat) :
    membersFrom (ls ++ l :: ls') offset = membersFrom ls offset ++
      l.member (offset + (locals ls).size) ::
        membersFrom ls' (offset + (locals ls).size + l.localRecord.size) := by
  rw [membersFrom_append, membersFrom, member]

/-- Every record is that of a member, where the members before it end. -/
theorem exists_of_mem_membersFrom {m : Record × Int} (h : m ∈ membersFrom ls offset) :
    ∃ pre l post, ls = pre ++ l :: post ∧ m = l.member (offset + (locals pre).size) := by
  induction ls generalizing offset with
  | nil => cases h
  | cons l ls ih =>
      rcases List.mem_cons.mp h with rfl | h
      · exact ⟨[], l, ls, rfl, rfl⟩
      · obtain ⟨pre, l', post, rfl, rfl⟩ := ih h
        refine ⟨l :: pre, l', post, rfl, ?_⟩
        rw [locals, ByteArray.size_append, Nat.add_assoc]

/-- The local record of a member stands behind those of the members before it. -/
theorem local_standsAt (ls : List Laid) (l : Laid) (ls' : List Laid) :
    StandsAt (archive (ls ++ l :: ls')) (locals ls).size l.localRecord := by
  have members := locals_standsAt (ls ++ l :: ls')
  rw [locals_append, standsAt_append, locals, standsAt_append, Nat.zero_add] at members
  exact members.2.1

/-- The directory record of a member stands behind the local records and the directory records of the
members before it, and tells where its local record begins. -/
theorem directoryRecord_standsAt (ls : List Laid) (l : Laid) (ls' : List Laid) :
    StandsAt (archive (ls ++ l :: ls')) ((locals (ls ++ l :: ls')).size + (directoryFrom ls 0).size)
      (l.directoryRecord (locals ls).size) := by
  have directory := directory_standsAt (ls ++ l :: ls')
  rw [directoryFrom_append, standsAt_append, directoryFrom, standsAt_append, Nat.zero_add]
    at directory
  exact directory.2.1

/-! ### The directory -/

/-- **The directory is read back**, record by record. -/
theorem readRecords_directoryFrom {size fuel : Nat} (fits : ∀ l ∈ ls, l.Fits)
    (h : StandsAt data pos (directoryFrom ls offset))
    (hsize : size = pos + (directoryFrom ls offset).size)
    (hoffset : offset + (locals ls).size < absent32) (hfuel : size < pos + fuel)
    (acc : List Record) :
    readRecords data size 0 fuel pos acc = .ok (acc.reverse ++ recordsFrom ls offset) := by
  -- The records before `pos` are in `acc`, and the others stand from there to the end.
  induction ls generalizing pos offset fuel acc with
  | nil =>
      obtain rfl : size = pos := hsize
      cases fuel with
      | zero => omega
      | succ fuel => simp [readRecords, recordsFrom]
  | cons l ls ih =>
      rw [directoryFrom, standsAt_append] at h
      rw [directoryFrom, ByteArray.size_append, size_directoryRecord] at hsize
      rw [locals, ByteArray.size_append] at hoffset
      have first := readRecord_of_standsAt h.1 (fits l List.mem_cons_self) (by omega)
      have wide : 0 < directorySize := by decide
      obtain ⟨fuel, rfl⟩ : ∃ n, fuel = n + 1 := ⟨fuel - 1, by omega⟩
      have rest : readRecords data size 0 fuel (pos + (l.directoryRecord offset).size)
          (l.record offset :: acc) = _ :=
        ih (fun l' hl' => fits l' (List.mem_cons_of_mem l hl')) h.2
          (by rw [size_directoryRecord]; omega) (by omega)
          (by rw [size_directoryRecord]; omega) (l.record offset :: acc)
      rw [readRecords, if_neg (by omega), first]
      simp only [rest, recordsFrom, List.reverse_cons, List.append_assoc, List.singleton_append]

theorem offset_le_of_mem_recordsFrom {r : Record} (hr : r ∈ recordsFrom ls offset) :
    (offset : Int) ≤ r.offset := by
  induction ls generalizing offset with
  | nil => cases hr
  | cons l ls ih =>
      rcases List.mem_cons.mp hr with rfl | hr
      · exact Int.le_refl _
      · have := ih hr
        omega

theorem recordsFrom_increasing (ls : List Laid) (offset : Nat) :
    (recordsFrom ls offset).Pairwise fun a b => a.offset < b.offset := by
  induction ls generalizing offset with
  | nil => exact .nil
  | cons l ls ih =>
      refine .cons (fun r hr => ?_) (ih _)
      have behind := offset_le_of_mem_recordsFrom hr
      have wide : 0 < localSize := by decide
      rw [size_localRecord] at behind
      change (offset : Int) < r.offset
      omega

theorem nextBounds_recordsFrom (ls : List Laid) (offset : Nat) :
    nextBounds (offset + (locals ls).size : Nat) (recordsFrom ls offset) =
      membersFrom ls offset := by
  induction ls generalizing offset with
  | nil => rfl
  | cons l ls ih =>
      rw [locals, ByteArray.size_append, ← Nat.add_assoc, recordsFrom, nextBounds, ih, membersFrom]
      cases ls with
      | nil => rfl
      | cons l' ls => rfl

/-! ### The end -/

/-- The end record is found at the very end. -/
theorem endPosition?_archive (ls : List Laid) :
    endPosition? (archive ls) = some (endOffset ls) := by
  have stands := end_standsAt ls
  have size := size_archive ls
  simp only [endRecord, bytesOf_append, standsAt_append, size_bytesOf, ByteArray.size_append,
    length_littleEndian] at stands
  have position : (archive ls).size - endSize = endOffset ls := by omega
  have signature : startsAt (archive ls) ((archive ls).size - endSize) endSignature := by
    rw [position]
    exact startsAt_iff.mpr stands.1.1.1.1.1.1.1
  have comment : startsAt (archive ls) ((archive ls).size - 2) [0, 0] := by
    have last : (archive ls).size - 2 = endOffset ls + 20 := by
      rw [size, endSize]; omega
    rw [last]
    exact startsAt_iff.mpr stands.2
  have enough : endSize ≤ (archive ls).size := by omega
  rw [endPosition?, if_pos (by simp [signature, comment, enough]), position]

/-- The archive of members is so small that its sizes stand for themselves, and no bytes before its
end record look like a locator where there is none. -/
structure Plain (ls : List Laid) : Prop where
  fits : ∀ l ∈ ls, l.Fits
  size : (archive ls).size < absent32
  locator : endsWide ls = false → ls ≠ [] →
    startsAt (archive ls) (endOffset ls - locatorSize) locatorSignature = false

/-- Where there are no members there is nothing before the end record. -/
theorem Plain.noLocator (plain : Plain ls) (narrow : endsWide ls = false) :
    startsAt (archive ls) (endOffset ls - locatorSize) locatorSignature = false := by
  by_cases hls : ls = []
  · subst hls
    have alone : startsAt emptyArchive 0 locatorSignature = false := by decide +kernel
    exact alone
  · exact plain.locator narrow hls

theorem Plain.endOffset_lt (plain : Plain ls) : endOffset ls + endSize < absent32 := by
  have small := plain.size
  rwa [size_archive] at small

/-- The fields of the end record where there is no 64-bit one. -/
theorem endFields_archive (plain : Plain ls) :
    fieldAt (archive ls) (endOffset ls + 12) 4 = (directoryFrom ls 0).size ∧
      fieldAt (archive ls) (endOffset ls + 16) 4 = (locals ls).size ∧
      fieldAt (archive ls) (endOffset ls + 20) 2 = 0 := by
  have stands := end_standsAt ls
  have small := plain.endOffset_lt
  rw [endOffset] at small
  simp only [endRecord, bytesOf_append, standsAt_append, size_bytesOf, ByteArray.size_append,
    length_littleEndian] at stands
  obtain ⟨⟨⟨-, hsize⟩, hoffset⟩, hcomment⟩ := stands
  rw [Nat.min_eq_left (by omega)] at hsize hoffset
  have long {n : Nat} (hn : n < absent32) : n < 256 ^ 4 := Nat.lt_succ_of_lt hn
  exact ⟨fieldAt_eq hsize (long (by omega)), fieldAt_eq hoffset (long (by omega)),
    fieldAt_eq hcomment (by decide)⟩

/-- What stands between the directory and the end record of an archive with a 64-bit record. -/
structure WideAt (data : ByteArray) (pos size offset : Nat) : Prop where
  signature : startsAt data pos wideEndSignature = true
  size : fieldAt data (pos + 40) 8 = size
  offset : fieldAt data (pos + 48) 8 = offset
  locator : startsAt data (pos + wideEndSize) locatorSignature = true
  disk : fieldAt data (pos + wideEndSize + 4) 4 = 0
  disks : fieldAt data (pos + wideEndSize + 16) 4 = 1

theorem wideAt_of_standsAt {count size offset : Nat} (wide : isWideEnd count size offset = true)
    (hsize : size < absent32) (hoffset : offset < absent32)
    (h : StandsAt data pos (wideEnd count size offset)) : WideAt data pos size offset := by
  rw [wideEnd, if_pos wide, wideEndFields, locatorFields] at h
  simp only [Fields.bytes_cons, Fields.bytes_nil, standsAt_append, size_bytesOf,
    ByteArray.size_append, length_littleEndian] at h
  obtain ⟨⟨⟨hsignature, -, -, -, -, -, -, -, hsize', hoffset', -⟩, hlocator⟩, hdisk, -, hdisks, -⟩ := h
  have long {n : Nat} (hn : n < absent32) : n < 256 ^ 8 :=
    Nat.lt_trans hn (by decide)
  exact {
    signature := startsAt_iff.mpr hsignature
    size := fieldAt_eq hsize' (long hsize)
    offset := fieldAt_eq hoffset' (long hoffset)
    locator := startsAt_iff.mpr hlocator
    disk := fieldAt_eq hdisk (by decide)
    disks := fieldAt_eq hdisks (by decide) }

/-- **The end record tells where the directory is**, or a 64-bit record before it does. -/
theorem readEnd_archive (plain : Plain ls) :
    readEnd (archive ls) = .ok {
      position := endOffset ls
      size := (directoryFrom ls 0).size
      offset := (locals ls).size
      isWide := endsWide ls
      comment := ByteArray.empty } := by
  obtain ⟨size, offset, comment⟩ := endFields_archive plain
  cases wide : endsWide ls with
  | false =>
      simp only [readEnd, endPosition?_archive, plain.noLocator wide, size, offset, comment]
      simp
  | true =>
      have small := plain.endOffset_lt
      have span : endOffset ls = (locals ls).size + (directoryFrom ls 0).size +
          (wideEndSize + locatorSize) := by
        rw [endOffset, wideSpan, ← endsWide, wide, if_pos rfl]
      have stands := ending_standsAt ls
      rw [ending, standsAt_append] at stands
      have found := wideAt_of_standsAt wide (by omega) (by omega) stands.1
      have locator : endOffset ls - locatorSize =
          (locals ls).size + (directoryFrom ls 0).size + wideEndSize := by omega
      have within : (locals ls).size + (directoryFrom ls 0).size + wideEndSize ≤
          (archive ls).size := by
        rw [size_archive]
        omega
      simp only [readEnd, endPosition?_archive, locator, Nat.add_sub_cancel, found.locator,
        found.disk, found.disks, found.signature, found.size, found.offset, comment, within]
      simp

/-- The records of a directory are read back where it is found. -/
theorem readRecords_archive (fits : ∀ l ∈ ls, l.Fits) (small : (archive ls).size < absent32) :
    readRecords ((archive ls).extract (locals ls).size
        ((locals ls).size + (directoryFrom ls 0).size)) (directoryFrom ls 0).size 0
      ((directoryFrom ls 0).size + 1) 0 [] = .ok (recordsFrom ls 0) := by
  rw [size_archive, endOffset] at small
  have directory : (archive ls).extract (locals ls).size _ = _ := directory_standsAt ls
  rw [directory]
  exact readRecords_directoryFrom fits (standsAt_self (directoryFrom ls 0)) (Nat.zero_add _).symm
    (by omega) (by omega) []

/-- Each member is bounded by where it ends. -/
theorem withBounds_recordsFrom (ls : List Laid) :
    withBounds (locals ls).size (recordsFrom ls 0) = membersFrom ls 0 := by
  have bounds := nextBounds_recordsFrom ls 0
  rw [Nat.zero_add] at bounds
  rw [withBounds_of_increasing _ (recordsFrom_increasing ls 0), bounds]

/-- **The directory of an archive is read back.** -/
theorem readDirectory_archive (plain : Plain ls) :
    readDirectory (archive ls) = .ok ⟨(locals ls).size, membersFrom ls 0, ByteArray.empty⟩ := by
  have shift : (↑(endOffset ls) - ↑(directoryFrom ls 0).size - ↑(locals ls).size -
      ((if endsWide ls = true then wideEndSize + locatorSize else 0 : Nat) : Int)) = (0 : Int) := by
    rw [endOffset, wideSpan, ← endsWide]
    omega
  rw [readDirectory_of_readEnd (readEnd_archive plain)]
  simp only [EndRecord.start, EndRecord.shift, shift, Int.add_zero, Int.toNat_natCast,
    readRecords_archive plain.fits plain.size]
  rw [if_neg (by omega)]
  simp only [Except.map, withBounds_recordsFrom]

end Laid

/-! ### Written archives -/

variable {now : Moment} {ps : List Packed}

/-- Packed entries as they are laid out at a moment. -/
def laidOut (now : Moment) (ps : List Packed) : List Laid := ps.map (·.laid now)

theorem localRecords_eq (now : Moment) (short : ∀ p ∈ ps, p.Short) :
    localRecords now ps = Laid.locals (laidOut now ps) := by
  induction ps with
  | nil => rfl
  | cons p ps ih =>
      obtain ⟨first, rest⟩ := List.forall_mem_cons.mp short
      rw [localRecords_cons, ih rest, first.localRecord_laid]
      rfl

theorem directoryRecords_eq (now : Moment) (short : ∀ p ∈ ps, p.Short) {offset : Nat}
    (h : offset + (Laid.locals (laidOut now ps)).size ≤ shortLimit) (acc : ByteArray) :
    directoryRecords now ps offset acc = acc ++ Laid.directoryFrom (laidOut now ps) offset := by
  induction ps generalizing offset acc with
  | nil => exact ByteArray.append_empty.symm
  | cons p ps ih =>
      have first := short p List.mem_cons_self
      have size : (p.localRecord now).size = (p.laid now).localRecord.size := by
        rw [first.localRecord_laid]
      have split : laidOut now (p :: ps) = p.laid now :: laidOut now ps := rfl
      rw [split, Laid.locals, ByteArray.size_append] at h
      rw [directoryRecords, ih (fun p' hp' => short p' (List.mem_cons_of_mem p hp'))
        (by rw [size]; omega), ByteArray.append_assoc, first.directoryRecord_laid now (by omega),
        size]
      rfl

/-- What is packed needs no 64-bit fields: no size does, and neither does an offset. -/
structure Short (now : Moment) (ps : List Packed) : Prop where
  sizes : ∀ p ∈ ps, p.Short
  offsets : (Laid.locals (laidOut now ps)).size ≤ shortLimit

/-- **An archive that is written is laid out** with the stamp of the moment, where it needs no 64-bit
fields. -/
theorem layout_eq (short : Short now ps) : layout now ps = Laid.archive (laidOut now ps) := by
  rw [layout, localRecords_eq now short.sizes,
    directoryRecords_eq now short.sizes (by simpa using short.offsets), ByteArray.empty_append,
    Laid.archive, laidOut, List.length_map]

/-- The archive of packed entries is so small that its sizes stand for themselves, and no bytes
before its end record look like a locator where there is none. -/
structure Plain (now : Moment) (ps : List Packed) : Prop extends Short now ps where
  fits : ∀ p ∈ ps, p.Fits
  size : (layout now ps).size < absent32
  locator : ps.length ≤ maxField → ps ≠ [] →
    startsAt (layout now ps) ((layout now ps).size - endSize - locatorSize) locatorSignature = false

theorem fits_laidOut (fits : ∀ p ∈ ps, p.Fits) : ∀ l ∈ laidOut now ps, l.Fits := by
  intro l hl
  obtain ⟨p, hp, rfl⟩ := List.mem_map.mp hl
  exact fits_laid (fits p hp) now

theorem Plain.laid (plain : Plain now ps) : Laid.Plain (laidOut now ps) where
  fits := fits_laidOut plain.fits
  size := layout_eq plain.toShort ▸ plain.size
  locator narrow some := by
    have count : ps.length ≤ maxField := by
      simp only [Laid.endsWide, isWideEnd, Bool.or_eq_false_iff, decide_eq_false_iff_not, laidOut,
        List.length_map] at narrow
      omega
    have locator := plain.locator count fun none => some (by rw [none]; rfl)
    rwa [layout_eq plain.toShort, Laid.size_archive, Nat.add_sub_cancel] at locator

/-- The records of entries with their end bounds. -/
def membersFrom (now : Moment) (ps : List Packed) (offset : Nat) : List (Record × Int) :=
  Laid.membersFrom (laidOut now ps) offset

/-- **The directory of an archive that is written is read back.** -/
theorem readDirectory_layout (plain : Plain now ps) :
    readDirectory (layout now ps) =
      .ok ⟨(localRecords now ps).size, membersFrom now ps 0, ByteArray.empty⟩ := by
  rw [layout_eq plain.toShort, Laid.readDirectory_archive plain.laid,
    localRecords_eq now plain.sizes, membersFrom]

end ZipContainer.Zip
