import ZipContainer.Failure
import ZipContainer.Zip.EndRecord

/-!
# The central directory

The records of all members, in the order in which they are listed.

Every member has an end bound, which its packed data may not exceed: the offset of the member
that begins next after it, or the start of the directory. Of members with one offset only the
first listed one is bounded by what comes after; to the others the bound is their own offset.
-/

namespace ZipContainer.Zip

/-- A readable directory: its records with their end bounds, and the comment of the archive. -/
structure Directory where
  start : Nat
  records : List (Record × Int)
  comment : ByteArray

/-- The latest version of the format that can be read, in tenths. -/
def maxVersion : Nat := 63

/-- The identifier of the extra field with 64-bit numbers. -/
def wideField : Nat := 1

/-- Numbers that stand for one in the 64-bit extra field. -/
def absent32 : Nat := 0xFFFFFFFF
@[inherit_doc absent32] def absent64 : Nat := 0xFFFFFFFFFFFFFFFF

/-- The sizes and the offset of a member. -/
structure Extent where
  size : Nat
  compressedSize : Nat
  offset : Nat
  deriving DecidableEq, Repr

/-- Takes a number from a 64-bit extra field if it is absent elsewhere. -/
def takeWide (field : String) (isAbsent : Bool) (value : Nat) (data : ByteArray) :
    Except DirectoryFault (Nat × ByteArray) :=
  if !isAbsent then .ok (value, data)
  else if data.size < 8 then .error (.missingWideField field)
  else .ok (fieldAt data 0 8, data.extract 8 data.size)

/-- Applies a 64-bit extra field. -/
def Extent.widen (e : Extent) (data : ByteArray) : Except DirectoryFault Extent := do
  let (size, data) ←
    takeWide "File size" (e.size = absent32 || e.size = absent64) e.size data
  let (compressedSize, data) ←
    takeWide "Compress size" (e.compressedSize = absent32) e.compressedSize data
  let (offset, _) ← takeWide "Header offset" (e.offset = absent32) e.offset data
  return ⟨size, compressedSize, offset⟩

/-- Applies all 64-bit extra fields from a position of the extra data on. Fewer than four bytes
at the end are no field. -/
def Extent.applyExtra (extra : ByteArray) : Nat → Nat → Extent → Except DirectoryFault Extent
  | 0, _, e => .ok e
  | fuel + 1, pos, e =>
    if extra.size < pos + 4 then .ok e
    else
      let id := fieldAt extra pos 2
      let size := fieldAt extra (pos + 2) 2
      if extra.size < pos + 4 + size then .error (.extraOverrun id size)
      else if id = wideField then do
        let e ← e.widen (extra.extract (pos + 4) (pos + 4 + size))
        applyExtra extra fuel (pos + 4 + size) e
      else applyExtra extra fuel (pos + 4 + size) e

/-- A fault of the directory as a failure. -/
def DirectoryFault.asFailure (f : DirectoryFault) : Failure :=
  .container (.directory f)

/-- Reads the record at a position of the directory: the record, and how many bytes it says it
has. -/
def readRecord (dir : ByteArray) (pos : Nat) (shift : Int) : Except Failure (Record × Nat) := do
  if dir.size < pos + directorySize then throw DirectoryFault.truncated.asFailure
  if !startsAt dir pos directorySignature then throw DirectoryFault.badMagic.asFailure
  let field (off w : Nat) : Nat := fieldAt dir (pos + off) w
  let nameSize := field 28 2
  let extraSize := field 30 2
  let commentSize := field 32 2
  let varying := pos + directorySize
  let stored := dir.extract varying (varying + nameSize)
  let flags := field 8 2
  let fullName ← (nameText flags stored).mapError fun f => (DirectoryFault.name f).asFailure
  let afterName := varying + stored.size
  let extra := dir.extract afterName (afterName + extraSize)
  let afterExtra := afterName + extra.size
  let comment := dir.extract afterExtra (afterExtra + commentSize)
  let needs := field 6 1
  if maxVersion < needs then throw (.container (.version needs))
  let stated : Extent := ⟨field 24 4, field 20 4, field 42 4⟩
  let extent ← (stated.applyExtra extra (extra.size + 1) 0).mapError DirectoryFault.asFailure
  return ({
    madeBy := field 4 1
    system := field 5 1
    needs := needs
    flags := flags
    method := field 10 2
    time := field 12 2
    date := field 14 2
    crc := UInt32.ofNat (field 16 4)
    compressedSize := extent.compressedSize
    size := extent.size
    internal := field 36 2
    external := field 38 4
    offset := extent.offset + shift
    fullName := fullName
    extra := extra
    comment := comment }, directorySize + nameSize + extraSize + commentSize)

/-- Reads records until the stated size of the directory is accounted for, behind those in `acc`,
the last one first. `pos` is the sum of what the records so far said they have. -/
def readRecords (dir : ByteArray) (size : Nat) (shift : Int) :
    Nat → Nat → List Record → Except Failure (List Record)
  | 0, _, acc => .ok acc.reverse
  | fuel + 1, pos, acc =>
    if size ≤ pos then .ok acc.reverse
    else
      match readRecord dir pos shift with
      | .error f => .error f
      | .ok (r, n) => readRecords dir size shift fuel (pos + n) (r :: acc)

/-- Gives every record in the list the offset of the record before it as its bound; `bound` is
that of the first. -/
def chainBounds (bound : Int) (falling : List (Record × Nat)) : List ((Record × Int) × Nat) :=
  falling.zipWith (fun (r, i) b => ((r, b), i)) (bound :: falling.map (·.1.offset))

/-- The records with their end bounds. -/
def withBounds (start : Int) (records : List Record) : List (Record × Int) :=
  let falling := records.zipIdx.mergeSort fun a b => b.1.offset ≤ a.1.offset
  let bounded := chainBounds start falling
  (bounded.mergeSort fun a b => a.2 ≤ b.2).map Prod.fst

/-- Reads the central directory of an archive. -/
def readDirectory (data : ByteArray) : Except Failure Directory := do
  let e ← (readEnd data).mapError DirectoryFault.asFailure
  if e.start < 0 then throw DirectoryFault.badOffset.asFailure
  let start := e.start.toNat
  let dir := data.extract start (start + e.size)
  let records ← readRecords dir e.size e.shift (e.size + 1) 0 []
  return ⟨start, withBounds start records, e.comment⟩

end ZipContainer.Zip
