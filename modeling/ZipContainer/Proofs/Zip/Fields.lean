import ZipContainer.Proofs.Zip.Packings
import ZipContainer.Proofs.Zip.Records

/-!
# Numbers that fit their fields

A record is written if every number fits its field.  The fields of eight bytes take over before a
size or an offset is too large for one of four, so that of what is written about an entry only the
date, the size of its name and sizes beyond `maxLong` do not fit (`Packed.check_eq_ok`,
`Packed.check_eq_error`).

* `Packed.Steady`: no room is left for fields of eight bytes only where packing does not need them.
  The contents of a compressor are so (`steady_packed`), and then nothing but a number that does not fit
  is noticed.
* `fitLayout_iff`: behind the local records all numbers fit exactly if the directory ends within what
  eight bytes can say.
-/

namespace ZipContainer.Zip

variable {now : Moment} {p : Packed} {ps : List Packed} {offset : Nat}

/-- The greatest number in a field of eight bytes. -/
def maxLong : Nat := 2 ^ 64 - 1

namespace Fields

variable {fs fs' : Fields} {width n : Nat}

@[simp] theorem fit_nil : fit [] = true := rfl

@[simp] theorem fit_cons : fit ((width, n) :: fs) = true ↔ n < 256 ^ width ∧ fit fs = true := by
  simp [fit]

@[simp] theorem fit_append : fit (fs ++ fs') = true ↔ fit fs = true ∧ fit fs' = true := by
  simp [fit]

end Fields

/-- A number fits two, four or eight bytes. -/
theorem lt_two_bytes {n : Nat} : n < 256 ^ 2 ↔ n ≤ maxField := by
  rw [maxField]
  omega

@[inherit_doc lt_two_bytes]
theorem lt_four_bytes {n : Nat} : n < 256 ^ 4 ↔ n ≤ absent32 := by
  rw [absent32]
  omega

@[inherit_doc lt_two_bytes]
theorem lt_eight_bytes {n : Nat} : n < 256 ^ 8 ↔ n ≤ maxLong := by
  rw [maxLong]
  omega

/-- A number that is marked where it is too large fits four bytes. -/
theorem marked_lt {isElsewhere : Bool} {n : Nat} (h : isElsewhere = false → n ≤ shortLimit) :
    marked isElsewhere n < 256 ^ 4 := by
  rw [lt_four_bytes]
  cases isElsewhere with
  | true => exact Nat.le_refl _
  | false => exact Nat.le_trans (h rfl) (by decide)

/-! ### Extra fields -/

theorem size_wideExtra_le (ns : List Nat) : (wideExtra ns).bytes.size ≤ 4 + 8 * ns.length := by
  have size (ns : List Nat) : (Fields.bytes (ns.map (8, ·))).size = 8 * ns.length := by
    induction ns with
    | nil => rfl
    | cons n ns ih =>
        rw [List.map_cons, Fields.bytes_cons, ByteArray.size_append, ih, size_bytesOf,
          length_littleEndian, List.length_cons]
        omega
  rw [wideExtra]
  split
  · exact Nat.zero_le _
  · simp only [Fields.bytes_cons, ByteArray.size_append, size_bytesOf, length_littleEndian, size]
    omega

/-- The numbers of an extra field fit if each fits eight bytes. -/
theorem fit_wideExtra {ns : List Nat} (few : ns.length ≤ 3) :
    (wideExtra ns).fit = true ↔ ∀ n ∈ ns, n ≤ maxLong := by
  have numbers (ns : List Nat) : Fields.fit (ns.map (8, ·)) = true ↔ ∀ n ∈ ns, n ≤ maxLong := by
    simp only [Fields.fit, List.all_map, List.all_eq_true, Function.comp_apply, decide_eq_true_eq,
      lt_eight_bytes]
  rw [wideExtra]
  split
  · next none => simp [none]
  · have kind : wideField < 256 ^ 2 := by decide
    have size : 8 * ns.length < 256 ^ 2 := by omega
    simp only [Fields.fit_cons, kind, size, true_and, numbers]

namespace Packed

theorem size_localExtra_le (p : Packed) : p.localExtra.bytes.size ≤ 28 := by
  refine Nat.le_trans (size_wideExtra_le _) ?_
  split <;> simp

theorem size_directoryExtra_le (p : Packed) (offset : Nat) :
    (p.directoryExtra offset).bytes.size ≤ 28 := by
  refine Nat.le_trans (size_wideExtra_le _) ?_
  split <;> split <;> simp

/-! ### Local records -/

/-- The numbers about an entry fit their fields, once its own are known to. -/
structure Writable (p : Packed) (now : Moment) : Prop where
  year : now.year ≤ Moment.lastYear
  name : p.name.size ≤ maxField
  size : p.size ≤ maxLong
  content : p.content.size ≤ maxLong

/-- The flags and the method of an entry fit their fields. -/
structure Coded (p : Packed) : Prop where
  flags : p.flags ≤ maxField
  method : p.method ≤ maxField

/-- An entry for whose sizes no room is left has none that needs it. -/
def Steady (p : Packed) : Prop :=
  isWide p.size = false → p.size ≤ shortLimit ∧ p.content.size ≤ shortLimit

theorem short_of_steady (steady : p.Steady) (narrow : isWide p.size = false) : p.Short :=
  ⟨narrow, (steady narrow).2⟩

theorem fit_sharedFields (hyear : Moment.firstYear ≤ now.year) (coded : p.Coded) :
    (p.sharedFields now).fit = true ↔ now.year ≤ Moment.lastYear ∧ p.name.size ≤ maxField := by
  have time : now.packedTime < 256 ^ 2 := now.packedTime_lt
  have date : now.packedDate < 256 ^ 2 ↔ now.year ≤ Moment.lastYear :=
    now.packedDate_lt_iff hyear
  have crc : p.crc.toNat < 256 ^ 4 := p.crc.toNat_lt
  have sizes : p.isLong = false → p.size ≤ shortLimit ∧ p.content.size ≤ shortLimit := by
    intro short
    simp only [isLong, Bool.or_eq_false_iff, decide_eq_false_iff_not] at short
    omega
  have content := marked_lt fun short => (sizes short).2
  have size := marked_lt fun short => (sizes short).1
  have version : 0 < 256 ^ 1 := by decide
  simp only [sharedFields, Fields.fit_cons, Fields.fit_nil, time, date, crc, content, size, version,
    lt_two_bytes, coded.flags, coded.method, true_and, and_true]

/-- **The numbers of a local record fit** if the year is not too late and the name not too long, and
neither are the sizes that room is left for. -/
theorem fitsLocal_iff (hyear : Moment.firstYear ≤ now.year) (coded : p.Coded) :
    p.fitsLocal now = true ↔ (now.year ≤ Moment.lastYear ∧ p.name.size ≤ maxField) ∧
      (isWide p.size = true → p.size ≤ maxLong ∧ p.content.size ≤ maxLong) := by
  have few : (if isWide p.size then [p.size, p.content.size] else []).length ≤ 3 := by
    split <;> simp
  have extraSize : p.localExtra.bytes.size < 256 ^ 2 :=
    Nat.lt_of_le_of_lt p.size_localExtra_le (by decide)
  have extra : p.localExtra.fit = true ↔
      (isWide p.size = true → p.size ≤ maxLong ∧ p.content.size ≤ maxLong) := by
    rw [localExtra, fit_wideExtra few]
    cases isWide p.size <;> simp
  have version : (if p.isLong then wideVersion else writtenVersion) < 256 ^ 1 := by
    split <;> decide
  simp only [fitsLocal, localHeader, Fields.fit_append, Fields.fit_cons, Fields.fit_nil, version,
    extraSize, extra, fit_sharedFields hyear coded, true_and, and_true]

theorem unexpected?_of_steady (steady : p.Steady) : p.unexpected? = none := by
  rw [unexpected?]
  cases wide : isWide p.size with
  | true => rfl
  | false =>
      obtain ⟨size, content⟩ := steady wide
      rw [if_neg nofun, if_neg (Nat.not_lt.mpr size), if_neg (Nat.not_lt.mpr content)]

theorem Writable.fitsLocal (h : p.Writable now) (hyear : Moment.firstYear ≤ now.year)
    (coded : p.Coded) : p.fitsLocal now = true :=
  (fitsLocal_iff hyear coded).mpr ⟨⟨h.year, h.name⟩, fun _ => ⟨h.size, h.content⟩⟩

/-- What an entry is known by before its content is packed fits as well. -/
theorem Writable.unpacked (h : p.Writable now) :
    Writable { p with crc := 0, content := ByteArray.empty } now :=
  ⟨h.year, h.name, h.size, Nat.zero_le _⟩

/-- **What fits is written.** -/
theorem check_eq_ok (hyear : Moment.firstYear ≤ now.year) (coded : p.Coded) (steady : p.Steady)
    (h : p.Writable now) : p.check now = .ok p := by
  have before := h.unpacked.fitsLocal hyear ⟨coded.flags, coded.method⟩
  simp only [check, before, h.fitsLocal hyear coded, unexpected?_of_steady steady]
  rfl

/-- **What does not fit is refused**, before or after its content is packed. -/
theorem check_eq_error (hyear : Moment.firstYear ≤ now.year) (coded : p.Coded) (steady : p.Steady)
    (h : ¬ p.Writable now) : p.check now = .error .fieldRange := by
  have unfit : ¬ p.fitsLocal now = true := by
    rw [fitsLocal_iff hyear coded]
    rintro ⟨⟨year, name⟩, sizes⟩
    refine h ?_
    cases wide : isWide p.size with
    | true => exact ⟨year, name, (sizes wide).1, (sizes wide).2⟩
    | false =>
        have least : shortLimit ≤ maxLong := by decide
        have small := steady wide
        exact ⟨year, name, by omega, by omega⟩
  simp only [check, unexpected?_of_steady steady, if_neg unfit]
  split <;> rfl

end Packed

/-! ### Archives -/

/-- Where the directory of packed entries would end. -/
def span (now : Moment) (ps : List Packed) : Nat :=
  (localRecords now ps).size + (directoryRecords now ps 0 ByteArray.empty).size

/-- The numbers in a directory record fit if the local record does, and begins within what eight bytes
can say. -/
theorem fit_directoryRecord (hyear : Moment.firstYear ≤ now.year) (coded : p.Coded)
    (h : p.Writable now) (hoffset : offset ≤ maxLong) :
    (p.directoryHeader now offset ++ p.directoryExtra offset).fit = true := by
  have few : ((if p.isLong then [p.size, p.content.size] else []) ++
      if shortLimit < offset then [offset] else []).length ≤ 3 := by
    split <;> split <;> simp
  have extraSize : (p.directoryExtra offset).bytes.size < 256 ^ 2 :=
    Nat.lt_of_le_of_lt (p.size_directoryExtra_le offset) (by decide)
  have extra : (p.directoryExtra offset).fit = true := by
    rw [Packed.directoryExtra, fit_wideExtra few]
    have size := h.size
    have content := h.content
    intro n hn
    rcases List.mem_append.mp hn with hn | hn
    · split at hn
      · simp only [List.mem_cons, List.not_mem_nil, or_false] at hn
        omega
      · cases hn
    · split at hn
      · simp only [List.mem_cons, List.not_mem_nil, or_false] at hn
        omega
      · cases hn
  have shared := (Packed.fit_sharedFields hyear coded).mpr ⟨h.year, h.name⟩
  have version : (if p.directoryExtra offset = [] then writtenVersion else wideVersion) <
      256 ^ 1 := by
    split <;> decide
  have system : writtenSystem < 256 ^ 1 := by decide
  have attributes : writtenAttributes < 256 ^ 4 := by decide
  have place : marked (shortLimit < offset) offset < 256 ^ 4 :=
    marked_lt fun h => Nat.le_of_not_lt (of_decide_eq_false h)
  simp only [Packed.directoryHeader, Fields.fit_append, Fields.fit_cons, Fields.fit_nil, version,
    system, attributes, place, shared, extraSize, extra]
  decide

theorem fitDirectory_of_le (hyear : Moment.firstYear ≤ now.year)
    (writable : ∀ p ∈ ps, p.Coded ∧ p.Writable now) {offset : Nat}
    (h : offset + (localRecords now ps).size ≤ maxLong) : fitDirectory now ps offset = true := by
  induction ps generalizing offset with
  | nil => rfl
  | cons p ps ih =>
      obtain ⟨⟨coded, first⟩, rest⟩ := List.forall_mem_cons.mp writable
      rw [localRecords_cons, ByteArray.size_append] at h
      rw [fitDirectory, fit_directoryRecord hyear coded first (by omega), Bool.true_and]
      exact ih rest (by omega)

/-- Each directory record has some size, so there are fewer entries than bytes. -/
theorem length_le_directoryRecords (now : Moment) (ps : List Packed) (offset : Nat) (acc : ByteArray) :
    acc.size + ps.length ≤ (directoryRecords now ps offset acc).size := by
  induction ps generalizing offset acc with
  | nil => exact Nat.le_refl _
  | cons p ps ih =>
      have some : 1 ≤ (p.directoryRecord now offset).size := by
        simp only [Packed.directoryRecord, ByteArray.size_append, size_bytesOf, directorySignature,
          List.length_cons]
        omega
      have rest := ih (offset + (p.localRecord now).size) (acc ++ p.directoryRecord now offset)
      rw [ByteArray.size_append] at rest
      rw [directoryRecords, List.length_cons]
      omega

/-- **All numbers behind the local records fit** exactly if the directory ends within what eight bytes
can say. -/
theorem fitLayout_iff (hyear : Moment.firstYear ≤ now.year)
    (writable : ∀ p ∈ ps, p.Coded ∧ p.Writable now) :
    fitLayout now ps = true ↔ span now ps ≤ maxLong := by
  have count := length_le_directoryRecords now ps 0 ByteArray.empty
  rw [ByteArray.size_empty, Nat.zero_add] at count
  simp only [fitLayout, span]
  generalize (directoryRecords now ps 0 ByteArray.empty).size = size at count ⊢
  have directory (room : 0 + (localRecords now ps).size ≤ maxLong) : fitDirectory now ps 0 = true :=
    fitDirectory_of_le hyear writable room
  generalize (localRecords now ps).size = start at directory ⊢
  have fields : (wideEndFields ps.length size start ++ locatorFields (start + size)).fit = true ↔
      start + size ≤ maxLong := by
    have least : wideEndSize - 12 ≤ maxLong ∧ wideVersion < 256 ^ 2 ∧ 0 < 256 ^ 4 ∧ 1 < 256 ^ 4 := by
      decide
    simp only [wideEndFields, locatorFields, Fields.fit_append, Fields.fit_cons, Fields.fit_nil,
      lt_eight_bytes, least, true_and, and_true]
    omega
  have narrow : isWideEnd ps.length size start = false → start + size ≤ maxLong := by
    intro h
    have limit : shortLimit + shortLimit ≤ maxLong := by decide
    simp only [isWideEnd, Bool.or_eq_false_iff, decide_eq_false_iff_not] at h
    omega
  constructor
  · intro h
    simp only [Bool.and_eq_true, Bool.or_eq_true, Bool.not_eq_true', fields] at h
    exact h.2.elim narrow id
  · intro h
    rw [directory (by omega), fields.mpr h, Bool.or_true]
    rfl

/-! ### Sizes -/

theorem localRecords_append (ps ps' : List Packed) :
    localRecords now (ps ++ ps') = localRecords now ps ++ localRecords now ps' := by
  rw [localRecords, List.foldl_append, foldl_localRecord]
  rfl

theorem directoryRecords_append (ps ps' : List Packed) (offset : Nat) (acc : ByteArray) :
    directoryRecords now (ps ++ ps') offset acc =
      directoryRecords now ps' (offset + (localRecords now ps).size)
        (directoryRecords now ps offset acc) := by
  induction ps generalizing offset acc with
  | nil => rfl
  | cons p ps ih =>
      rw [List.cons_append, directoryRecords, ih, directoryRecords, localRecords_cons,
        ByteArray.size_append, Nat.add_assoc]

/-- More entries need more room. -/
theorem span_le_append (ps ps' : List Packed) : span now ps ≤ span now (ps ++ ps') := by
  have rest := length_le_directoryRecords now ps' (0 + (localRecords now ps).size)
    (directoryRecords now ps 0 ByteArray.empty)
  rw [span, span, localRecords_append, directoryRecords_append, ByteArray.size_append]
  omega

theorem size_localRecord_le (now : Moment) (p : Packed) :
    (p.localRecord now).size ≤ 58 + p.name.size + p.content.size := by
  have extra := p.size_localExtra_le
  simp only [Packed.localRecord, Packed.localHeader, Packed.sharedFields, localSignature,
    List.cons_append, List.nil_append, Fields.bytes_cons, Fields.bytes_nil, ByteArray.size_append,
    size_bytesOf, length_littleEndian, List.length_cons, List.length_nil, ByteArray.size_empty]
  omega

theorem size_directoryRecord_le (now : Moment) (p : Packed) (offset : Nat) :
    (p.directoryRecord now offset).size ≤ 74 + p.name.size := by
  have extra := p.size_directoryExtra_le offset
  simp only [Packed.directoryRecord, Packed.directoryHeader, Packed.sharedFields,
    directorySignature, List.cons_append, List.nil_append, Fields.bytes_cons, Fields.bytes_nil,
    ByteArray.size_append, size_bytesOf, length_littleEndian, List.length_cons, List.length_nil,
    ByteArray.size_empty]
  omega

theorem size_directoryRecords_le (now : Moment) {bound : Nat} (names : ∀ p ∈ ps, p.name.size ≤ bound)
    (offset : Nat) (acc : ByteArray) :
    (directoryRecords now ps offset acc).size ≤ acc.size + ps.length * (74 + bound) := by
  induction ps generalizing offset acc with
  | nil => exact Nat.le_add_right _ _
  | cons p ps ih =>
      obtain ⟨name, names⟩ := List.forall_mem_cons.mp names
      have first := size_directoryRecord_le now p offset
      have rest := ih names (offset + (p.localRecord now).size) (acc ++ p.directoryRecord now offset)
      rw [ByteArray.size_append] at rest
      rw [directoryRecords, List.length_cons, Nat.succ_mul]
      omega

theorem size_localRecords_le (now : Moment) (bound : Nat)
    (sizes : ∀ p ∈ ps, p.name.size + p.content.size ≤ bound) :
    (localRecords now ps).size ≤ ps.length * (58 + bound) := by
  induction ps with
  | nil => exact Nat.zero_le _
  | cons p ps ih =>
      obtain ⟨size, sizes⟩ := List.forall_mem_cons.mp sizes
      have first := size_localRecord_le now p
      have rest := ih sizes
      rw [localRecords_cons, ByteArray.size_append, List.length_cons, Nat.succ_mul]
      omega

/-- **What can be counted has room**, if no content is too large for a field of four bytes. -/
theorem span_le (count : ps.length ≤ maxField)
    (sizes : ∀ p ∈ ps, p.name.size ≤ maxField ∧ p.content.size ≤ shortLimit) :
    span now ps ≤ maxLong := by
  have members := size_localRecords_le now (maxField + shortLimit) fun p hp =>
    Nat.add_le_add (sizes p hp).1 (sizes p hp).2
  have directory := size_directoryRecords_le now (fun p hp => (sizes p hp).1) 0
    ByteArray.empty
  have room : maxField * (58 + (maxField + shortLimit)) + maxField * (74 + maxField) ≤ maxLong := by
    decide
  have first := Nat.mul_le_mul_right (58 + (maxField + shortLimit)) count
  have second := Nat.mul_le_mul_right (74 + maxField) count
  rw [ByteArray.size_empty] at directory
  rw [span]
  omega

end ZipContainer.Zip
