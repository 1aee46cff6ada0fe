import ZipContainer.Proofs.Bytes.Slices
import ZipContainer.Zip.Encode

/-!
# Records as they are laid out

What a reader finds in the records of a member that was laid out in an archive: every field at its
place.  A member is packed data with a stamp (`Laid`), which is what its records say besides: the
versions, the time and the attributes.  A reader needs nothing of a stamp but a version that it
knows.  The records that are written are those of the stamp of a moment (`Stamp.written`).
-/

namespace ZipContainer.Zip

variable {data : ByteArray} {pos offset : Nat}

namespace Packed

/-- The name of an entry as a reader understands it. -/
def text (p : Packed) : Text := (nameText p.flags p.name).toOption.getD ""

/-- What is written about an entry can be read back: the numbers fit their fields and stand for
themselves, and the name is understood. -/
structure Fits (p : Packed) : Prop where
  text : nameText p.flags p.name = .ok p.text
  name : p.name.size ≤ maxField
  flags : p.flags ≤ maxField
  method : p.method ≤ maxField
  content : p.content.size < absent32
  size : p.size ≤ absent32

end Packed

/-! ### Stamps -/

/-- What the records of a member say besides what is packed. -/
structure Stamp where
  madeBy : Nat
  system : Nat
  needs : Nat
  time : Nat
  date : Nat
  internal : Nat
  external : Nat

/-- The stamp that is written at a moment. -/
def Stamp.written (now : Moment) : Stamp where
  madeBy := writtenVersion
  system := writtenSystem
  needs := writtenVersion
  time := now.packedTime
  date := now.packedDate
  internal := 0
  external := writtenAttributes

/-- A member as it is laid out: packed data with a stamp. -/
structure Laid extends Packed where
  stamp : Stamp

/-- Packed data with a stamp. -/
def Packed.stamped (p : Packed) (s : Stamp) : Laid := ⟨p, s⟩

namespace Laid

variable {l : Laid}

/-- The fields that the local and the directory record of a member have in common. -/
def sharedFields (l : Laid) : List UInt8 :=
  littleEndian 1 l.stamp.needs ++ littleEndian 1 0 ++ littleEndian 2 l.flags ++
    littleEndian 2 l.method ++ littleEndian 2 l.stamp.time ++ littleEndian 2 l.stamp.date ++
    littleEndian 4 l.crc.toNat ++ littleEndian 4 l.content.size ++ littleEndian 4 l.size ++
    littleEndian 2 l.name.size ++ littleEndian 2 0

/-- The local record: header, name and packed content. -/
def localRecord (l : Laid) : ByteArray :=
  bytesOf (localSignature ++ l.sharedFields) ++ l.name ++ l.content

/-- The directory record, which tells where the local record begins. -/
def directoryRecord (l : Laid) (offset : Nat) : ByteArray :=
  bytesOf (directorySignature ++ littleEndian 1 l.stamp.madeBy ++ littleEndian 1 l.stamp.system ++
    l.sharedFields ++ littleEndian 2 0 ++ littleEndian 2 0 ++ littleEndian 2 l.stamp.internal ++
    littleEndian 4 l.stamp.external ++ littleEndian 4 offset) ++ l.name

/-- The directory record as a reader sees it. -/
def record (l : Laid) (offset : Nat) : Record where
  madeBy := l.stamp.madeBy % 2 ^ 8
  system := l.stamp.system % 2 ^ 8
  needs := l.stamp.needs
  flags := l.flags
  method := l.method
  time := l.stamp.time % 2 ^ 16
  date := l.stamp.date % 2 ^ 16
  crc := l.crc
  compressedSize := l.content.size
  size := l.size
  internal := l.stamp.internal % 2 ^ 16
  external := l.stamp.external % 2 ^ 32
  offset := offset
  fullName := l.text
  extra := ByteArray.empty
  comment := ByteArray.empty

/-- The records of a member can be read: what is packed can be read back, and the version is one
that readers know. -/
structure Fits (l : Laid) : Prop where
  packed : l.toPacked.Fits
  needs : l.stamp.needs ≤ maxVersion

@[simp] theorem length_sharedFields (l : Laid) : l.sharedFields.length = 26 := by
  simp [sharedFields]

@[simp] theorem size_localRecord (l : Laid) :
    l.localRecord.size = localSize + l.name.size + l.content.size := by
  simp [localRecord, localSignature, localSize, ByteArray.size_append]

@[simp] theorem size_directoryRecord (l : Laid) (offset : Nat) :
    (l.directoryRecord offset).size = directorySize + l.name.size := by
  simp [directoryRecord, directorySignature, directorySize, ByteArray.size_append]

/-! ### Fields -/

/-- What a reader finds in the fields that the records of a member have in common. -/
structure SharedAt (l : Laid) (data : ByteArray) (pos : Nat) : Prop where
  needs : fieldAt data pos 1 = l.stamp.needs
  flags : fieldAt data (pos + 2) 2 = l.flags
  method : fieldAt data (pos + 4) 2 = l.method
  time : fieldAt data (pos + 6) 2 = l.stamp.time % 2 ^ 16
  date : fieldAt data (pos + 8) 2 = l.stamp.date % 2 ^ 16
  crc : fieldAt data (pos + 10) 4 = l.crc.toNat
  compressedSize : fieldAt data (pos + 14) 4 = l.content.size
  size : fieldAt data (pos + 18) 4 = l.size
  nameSize : fieldAt data (pos + 22) 2 = l.name.size
  extraSize : fieldAt data (pos + 24) 2 = 0

/-- A number that fits into its field is read back where the field stands. -/
theorem fieldAt_eq {w n : Nat} (h : StandsAt data pos (bytesOf (littleEndian w n)))
    (hn : n < 256 ^ w) : fieldAt data pos w = n := by
  rw [fieldAt_of_standsAt h, Nat.mod_eq_of_lt hn]

theorem sharedAt_of_standsAt (h : StandsAt data pos (bytesOf l.sharedFields)) (fits : l.Fits) :
    l.SharedAt data pos := by
  simp only [sharedFields, bytesOf_append, standsAt_append, size_bytesOf, ByteArray.size_append,
    length_littleEndian] at h
  obtain ⟨⟨⟨⟨⟨⟨⟨⟨⟨⟨hneeds, -⟩, hflags⟩, hmethod⟩, htime⟩, hdate⟩, hcrc⟩, hcontent⟩, hsize⟩, hname⟩,
    hextra⟩ := h
  have short {n : Nat} (hn : n ≤ maxField) : n < 256 ^ 2 := Nat.lt_succ_of_le hn
  have long {n : Nat} (hn : n ≤ absent32) : n < 256 ^ 4 := Nat.lt_succ_of_le hn
  have version : maxVersion < 256 ^ 1 := by decide
  exact {
    needs := fieldAt_eq hneeds (Nat.lt_of_le_of_lt fits.needs version)
    flags := fieldAt_eq hflags (short fits.packed.flags)
    method := fieldAt_eq hmethod (short fits.packed.method)
    time := fieldAt_of_standsAt htime
    date := fieldAt_of_standsAt hdate
    crc := fieldAt_eq hcrc l.crc.toNat_lt
    compressedSize := fieldAt_eq hcontent (long (Nat.le_of_lt fits.packed.content))
    size := fieldAt_eq hsize (long fits.packed.size)
    nameSize := fieldAt_eq hname (short fits.packed.name)
    extraSize := fieldAt_eq hextra (by decide) }

/-! ### Local records -/

/-- What a reader finds in a local record. -/
structure LocalAt (l : Laid) (data : ByteArray) (pos : Nat) : Prop where
  signature : startsAt data pos localSignature = true
  shared : l.SharedAt data (pos + 4)
  name : StandsAt data (pos + localSize) l.name
  content : StandsAt data (pos + localSize + l.name.size) l.content
  within : pos + localSize + l.name.size + l.content.size ≤ data.size

theorem localAt_of_standsAt (h : StandsAt data pos l.localRecord) (fits : l.Fits) :
    l.LocalAt data pos := by
  have within := h.within (by simp [localSize])
  rw [localRecord, standsAt_append, standsAt_append, bytesOf_append, standsAt_append] at h
  obtain ⟨⟨⟨hsignature, hshared⟩, hname⟩, hcontent⟩ := h
  simp only [size_bytesOf, ByteArray.size_append, length_sharedFields] at hname hcontent
  rw [size_localRecord] at within
  exact {
    signature := startsAt_iff.mpr hsignature
    shared := sharedAt_of_standsAt hshared fits
    name := hname
    content := by
      rw [Nat.add_assoc]
      exact hcontent
    within := by omega }

/-! ### Directory records -/

/-- **A directory record is read back** as it was laid out. -/
theorem readRecord_of_standsAt (h : StandsAt data pos (l.directoryRecord offset)) (fits : l.Fits)
    (hoffset : offset < absent32) :
    readRecord data pos 0 = .ok (l.record offset, (l.directoryRecord offset).size) := by
  have within := h.within (by simp [directorySize])
  rw [size_directoryRecord] at within
  simp only [directoryRecord, bytesOf_append, standsAt_append, size_bytesOf, ByteArray.size_append,
    length_littleEndian, length_sharedFields] at h
  obtain ⟨⟨⟨⟨⟨⟨⟨⟨⟨hsignature, hmadeBy⟩, hsystem⟩, hshared⟩, hcomment⟩, hdisk⟩, hinternal⟩,
    hexternal⟩, hoffset'⟩, hstored⟩ := h
  have shared := sharedAt_of_standsAt hshared fits
  have signature : startsAt data pos directorySignature = true := startsAt_iff.mpr hsignature
  have nameSize : fieldAt data (pos + 28) 2 = l.name.size := shared.nameSize
  have extraSize : fieldAt data (pos + 30) 2 = 0 := shared.extraSize
  have commentSize : fieldAt data (pos + 32) 2 = 0 := fieldAt_eq hcomment (by decide)
  have flags : fieldAt data (pos + 8) 2 = l.flags := shared.flags
  have needs : fieldAt data (pos + 6) 1 = l.stamp.needs := shared.needs
  have size : fieldAt data (pos + 24) 4 = l.size := shared.size
  have compressedSize : fieldAt data (pos + 20) 4 = l.content.size := shared.compressedSize
  have place : fieldAt data (pos + 42) 4 = offset :=
    fieldAt_eq hoffset' (Nat.lt_succ_of_lt hoffset)
  have madeBy : fieldAt data (pos + 4) 1 = l.stamp.madeBy % 2 ^ 8 := fieldAt_of_standsAt hmadeBy
  have system : fieldAt data (pos + 5) 1 = l.stamp.system % 2 ^ 8 := fieldAt_of_standsAt hsystem
  have method : fieldAt data (pos + 10) 2 = l.method := shared.method
  have time : fieldAt data (pos + 12) 2 = l.stamp.time % 2 ^ 16 := shared.time
  have date : fieldAt data (pos + 14) 2 = l.stamp.date % 2 ^ 16 := shared.date
  have crc : fieldAt data (pos + 16) 4 = l.crc.toNat := shared.crc
  have internal : fieldAt data (pos + 36) 2 = l.stamp.internal % 2 ^ 16 :=
    fieldAt_of_standsAt hinternal
  have external : fieldAt data (pos + 38) 4 = l.stamp.external % 2 ^ 32 :=
    fieldAt_of_standsAt hexternal
  have stored : data.extract (pos + directorySize) (pos + directorySize + l.name.size) = l.name :=
    hstored
  have nothing (i : Nat) : data.extract i (i + 0) = ByteArray.empty := by simp
  have known : ¬ maxVersion < l.stamp.needs := Nat.not_lt_of_le fits.needs
  -- Without extra data no size and no offset is widened: they stand for themselves.
  unfold readRecord
  rw [if_neg (by omega)]
  simp only [signature, nameSize, extraSize, commentSize, flags, needs, size, compressedSize, place,
    madeBy, system, method, time, date, crc, internal, external, stored, nothing, fits.packed.text,
    known]
  have plain (e : Extent) : Extent.applyExtra ByteArray.empty (ByteArray.empty.size + 1) 0 e =
      .ok e := rfl
  rw [if_neg (by decide), size_directoryRecord]
  simp only [plain, if_false, record, UInt32.ofNat_toNat, Int.add_zero, Nat.add_zero]
  rfl

end Laid

/-! ### Written records -/

namespace Fields

@[simp] theorem bytes_nil : bytes [] = ByteArray.empty := rfl

@[simp] theorem bytes_cons (width n : Nat) (fs : Fields) :
    bytes ((width, n) :: fs) = bytesOf (littleEndian width n) ++ bytes fs := by
  rw [bytes, List.flatMap_cons, bytesOf_append]
  rfl

end Fields

/-- What is written about an entry at a moment, as it is laid out. -/
def Packed.laid (p : Packed) (now : Moment) : Laid := p.stamped (.written now)

/-- The directory record of an entry as a reader sees it. -/
def Packed.record (p : Packed) (now : Moment) (offset : Nat) : Record := (p.laid now).record offset

namespace Packed

variable {p : Packed}

/-- No size of an entry needs a field of eight bytes, and no room is left for one. -/
structure Short (p : Packed) : Prop where
  size : isWide p.size = false
  content : p.content.size ≤ shortLimit

theorem Short.size_le (short : p.Short) : p.size ≤ shortLimit := by
  have narrow := of_decide_eq_false short.size
  omega

theorem Short.isLong (short : p.Short) : p.isLong = false := by
  have size := short.size_le
  have content := short.content
  simp only [Packed.isLong, Bool.or_eq_false_iff, decide_eq_false_iff_not]
  omega

theorem Short.localExtra (short : p.Short) : p.localExtra = [] := by
  rw [Packed.localExtra, short.size]
  rfl

theorem Short.directoryExtra (short : p.Short) (h : offset ≤ shortLimit) :
    p.directoryExtra offset = [] := by
  rw [Packed.directoryExtra, short.isLong, if_neg (Nat.not_lt.mpr h)]
  rfl

/-- **The records that are written are those of the stamp of the moment**, where nothing needs a field
of eight bytes. -/
theorem Short.localRecord_laid (short : p.Short) (now : Moment) :
    p.localRecord now = (p.laid now).localRecord := by
  rw [localRecord, localHeader, short.localExtra, sharedFields, short.isLong]
  simp [Laid.localRecord, Laid.sharedFields, laid, stamped, Stamp.written, marked,
    ByteArray.append_assoc]

@[inherit_doc Short.localRecord_laid]
theorem Short.directoryRecord_laid (short : p.Short) (now : Moment) (h : offset ≤ shortLimit) :
    p.directoryRecord now offset = (p.laid now).directoryRecord offset := by
  rw [directoryRecord, directoryHeader, short.directoryExtra h, sharedFields, short.isLong,
    decide_eq_false (Nat.not_lt.mpr h)]
  simp [Laid.directoryRecord, Laid.sharedFields, laid, stamped, Stamp.written, marked,
    ByteArray.append_assoc]

end Packed

theorem foldl_localRecord (now : Moment) (acc : ByteArray) (ps : List Packed) :
    ps.foldl (fun b p => b ++ p.localRecord now) acc = acc ++ localRecords now ps := by
  induction ps generalizing acc with
  | nil => exact ByteArray.append_empty.symm
  | cons p ps ih =>
      rw [localRecords, List.foldl_cons, List.foldl_cons, ih, ih, ByteArray.empty_append,
        ByteArray.append_assoc]

theorem localRecords_cons (now : Moment) (p : Packed) (ps : List Packed) :
    localRecords now (p :: ps) = p.localRecord now ++ localRecords now ps := by
  rw [localRecords, List.foldl_cons, foldl_localRecord, ByteArray.empty_append]

theorem fits_laid {p : Packed} (fits : p.Fits) (now : Moment) : (p.laid now).Fits :=
  ⟨fits, (by decide : writtenVersion ≤ maxVersion)⟩

/-! ### The end -/

@[simp] theorem size_endRecord (count size offset : Nat) :
    (endRecord count size offset).size = endSize := by
  simp [endRecord, endSignature, endSize]

/-- How many bytes stand between the directory and the end record. -/
def wideSpan (count size offset : Nat) : Nat :=
  if isWideEnd count size offset then wideEndSize + locatorSize else 0

@[simp] theorem size_wideEnd (count size offset : Nat) :
    (wideEnd count size offset).size = wideSpan count size offset := by
  rw [wideEnd, wideSpan]
  split
  · simp [wideEndFields, locatorFields, wideEndSignature, locatorSignature, wideEndSize, locatorSize]
  · rfl

/-- Where the numbers are small enough the end record stands just behind the directory. -/
theorem isWideEnd_eq_false {count size offset : Nat} (hcount : count ≤ maxField)
    (hsize : size ≤ shortLimit) (hoffset : offset ≤ shortLimit) :
    isWideEnd count size offset = false := by
  simp only [isWideEnd, Bool.or_eq_false_iff, decide_eq_false_iff_not]
  omega

end ZipContainer.Zip
