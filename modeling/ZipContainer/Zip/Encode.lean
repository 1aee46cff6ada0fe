import ZipContainer.Contents
import ZipContainer.Crc32
import ZipContainer.Deflate.Compressor
import ZipContainer.Moment
import ZipContainer.Zip.Directory

/-!
# Encoding of archives

An encoded archive is one local record for every entry, laid end to end, then one directory
record for every entry in the same order, then the end record. There are no data descriptors and
no comments. A name is cut at its first NUL, and marked as UTF-8 if it is not ASCII.

Sizes and offsets that are too large for the fields of a record are stated in a 64-bit extra
field behind the name, and mark their own fields as absent. Room for the sizes is left in a local
record as soon as the content is nearly too large, as it is written before the content is packed.
If there are too many entries, or the directory is too far from the start or too large, a 64-bit
record and its locator stand before the end record.
-/

namespace ZipContainer.Zip

/-- The methods by which members are written. -/
inductive WriteMethod where
  | stored
  | deflated (compressor : Deflate.Compressor)

namespace WriteMethod

/-- The method as a method of members. -/
def toMethod : WriteMethod → Method
  | .stored => .stored
  | .deflated _ => .deflated

/-- All methods by which members are written. -/
def all (compressor : Deflate.Compressor) : List WriteMethod := [.stored, .deflated compressor]

/-- The method with a number. -/
def ofCode? (compressor : Deflate.Compressor) (code : Int) : Option WriteMethod :=
  (all compressor).find? fun m => code = m.toMethod.code

/-- The method that is used unless another is asked for. -/
def default (compressor : Deflate.Compressor) : WriteMethod := .deflated compressor

/-- Packs a content. -/
def pack (m : WriteMethod) (content : ByteArray) : ByteArray :=
  match m with
  | .stored => content
  | .deflated compressor => compressor.compress content

end WriteMethod

/-! ### Fields -/

/-- Numbers with the widths of the fields that they are written to. -/
abbrev Fields := List (Nat × Nat)

namespace Fields

/-- Every number fits its field. -/
def fit (fs : Fields) : Bool := fs.all fun (width, n) => n < 256 ^ width

/-- The fields as they are written. -/
def bytes (fs : Fields) : ByteArray := bytesOf (fs.flatMap fun (width, n) => littleEndian width n)

end Fields

/-- The version of the format that written members need, in tenths, and the one that 64-bit fields
need. -/
def writtenVersion : Nat := 20
@[inherit_doc writtenVersion] def wideVersion : Nat := 45

/-- The number of the system whose file attributes are written. -/
def writtenSystem : Nat := 3

/-- The file attributes that are written: readable by all, writable by the owner. -/
def writtenAttributes : Nat := 0o644 * 2 ^ 16

/-- The greatest number in a field of two bytes. -/
def maxField : Nat := 0xFFFF

/-- The greatest size or offset that is written to a field of four bytes. -/
def shortLimit : Nat := 2 ^ 31 - 1

/-- The size of a content that may be too large for a field of four bytes once it is packed: one that
is with a twentieth of it added. -/
def isWide (size : Nat) : Bool := 20 * shortLimit < 21 * size

/-- A number in a field of four bytes, or the mark that it is stated elsewhere. -/
def marked (isElsewhere : Bool) (n : Nat) : Nat := if isElsewhere then absent32 else n

/-- A 64-bit extra field with the given numbers; without numbers there is none. -/
def wideExtra (ns : List Nat) : Fields :=
  if ns = [] then [] else (2, wideField) :: (2, 8 * ns.length) :: ns.map (8, ·)

/-! ### Records -/

/-- What is written about one entry. -/
structure Packed where
  name : ByteArray
  flags : Nat
  method : Nat
  crc : UInt32
  size : Nat
  content : ByteArray
  deriving DecidableEq

namespace Packed

/-- A size is too large for a field of four bytes. -/
def isLong (p : Packed) : Bool := shortLimit < p.size || shortLimit < p.content.size

/-- The fields that the local and the directory record of an entry have in common, without the version
before and the size of the extra field behind them. -/
def sharedFields (p : Packed) (now : Moment) : Fields :=
  [(1, 0), (2, p.flags), (2, p.method), (2, now.packedTime), (2, now.packedDate), (4, p.crc.toNat),
    (4, marked p.isLong p.content.size), (4, marked p.isLong p.size), (2, p.name.size)]

/-- The extra field of a local record. -/
def localExtra (p : Packed) : Fields :=
  wideExtra (if isWide p.size then [p.size, p.content.size] else [])

/-- The header of a local record, without its signature. -/
def localHeader (p : Packed) (now : Moment) : Fields :=
  (1, if p.isLong then wideVersion else writtenVersion) ::
    (p.sharedFields now ++ [(2, p.localExtra.bytes.size)])

/-- The local record: header, name, extra field and packed content. -/
def localRecord (p : Packed) (now : Moment) : ByteArray :=
  bytesOf localSignature ++ (p.localHeader now).bytes ++ p.name ++ p.localExtra.bytes ++ p.content

/-- The extra field of a directory record. -/
def directoryExtra (p : Packed) (offset : Nat) : Fields :=
  wideExtra ((if p.isLong then [p.size, p.content.size] else []) ++
    if shortLimit < offset then [offset] else [])

/-- The header of a directory record, without its signature. -/
def directoryHeader (p : Packed) (now : Moment) (offset : Nat) : Fields :=
  let version := if p.directoryExtra offset = [] then writtenVersion else wideVersion
  [(1, version), (1, writtenSystem), (1, version)] ++ p.sharedFields now ++
    [(2, (p.directoryExtra offset).bytes.size), (2, 0), (2, 0), (2, 0), (4, writtenAttributes),
      (4, marked (shortLimit < offset) offset)]

/-- The directory record, which tells where the local record begins. -/
def directoryRecord (p : Packed) (now : Moment) (offset : Nat) : ByteArray :=
  bytesOf directorySignature ++ (p.directoryHeader now offset).bytes ++ p.name ++
    (p.directoryExtra offset).bytes

/-- What is wrong with sizes that turn out to be too large although no room was left for them. -/
def unexpected? (p : Packed) : Option String :=
  if isWide p.size then none
  else if shortLimit < p.size then some "File size unexpectedly exceeded ZIP64 limit"
  else if shortLimit < p.content.size then
    some "Compressed size unexpectedly exceeded ZIP64 limit"
  else none

/-- The numbers in the local record fit their fields. -/
def fitsLocal (p : Packed) (now : Moment) : Bool := (p.localHeader now ++ p.localExtra).fit

/-- Puts the numbers of the local record into their fields. The record is written before the content
is packed, with neither a checksum nor a size of what will be packed, and once more when these are
known. -/
def check (p : Packed) (now : Moment) : Except Failure Packed :=
  if !Packed.fitsLocal { p with crc := 0, content := ByteArray.empty } now then .error .fieldRange
  else
    match p.unexpected? with
    | some text => .error (.outside .runtime text)
    | none => if p.fitsLocal now then .ok p else .error .fieldRange

end Packed

/-- Packs an entry. The year has to be one that can be stored, the name to have a form in UTF-8, and
all numbers to fit their fields. -/
def pack (method : WriteMethod) (now : Moment) (e : Entry) : Except Failure Packed :=
  let name := cutName e.path
  if now.year < Moment.firstYear then .error (.encode .beforeFirstYear)
  else
    match name.encode with
    | .error l => .error (.encode (.loose l))
    | .ok stored =>
      Packed.check {
        name := stored
        flags := if name.toList.all fun p => p.toNat < 0x80 then 0 else 2 ^ Flag.utf8Name.bit
        method := method.toMethod.code
        crc := crc32 e.content
        size := e.content.size
        content := method.pack e.content } now

/-! ### Archives -/

/-- The local records of packed entries. -/
def localRecords (now : Moment) (ps : List Packed) : ByteArray :=
  ps.foldl (fun b p => b ++ p.localRecord now) ByteArray.empty

/-- The directory records of packed entries whose local records begin at `offset`, behind those
in `acc`. -/
def directoryRecords (now : Moment) : List Packed → Nat → ByteArray → ByteArray
  | [], _, acc => acc
  | p :: ps, offset, acc =>
    directoryRecords now ps (offset + (p.localRecord now).size)
      (acc ++ p.directoryRecord now offset)

/-- The numbers in these directory records fit their fields. -/
def fitDirectory (now : Moment) : List Packed → Nat → Bool
  | [], _ => true
  | p :: ps, offset =>
    (p.directoryHeader now offset ++ p.directoryExtra offset).fit &&
      fitDirectory now ps (offset + (p.localRecord now).size)

/-- The end record of an archive with `count` members and a directory of the given size at the
given offset. -/
def endRecord (count size offset : Nat) : ByteArray :=
  bytesOf (endSignature ++ littleEndian 2 0 ++ littleEndian 2 0 ++ littleEndian 2 count ++
    littleEndian 2 count ++ littleEndian 4 size ++ littleEndian 4 offset ++ littleEndian 2 0)

/-- The archive needs a 64-bit record at its end. -/
def isWideEnd (count size offset : Nat) : Bool :=
  maxField < count || shortLimit < offset || shortLimit < size

/-- The 64-bit record, without its signature; its own size is counted from behind the field that
states it. -/
def wideEndFields (count size offset : Nat) : Fields :=
  [(8, wideEndSize - 12), (2, wideVersion), (2, wideVersion), (4, 0), (4, 0), (8, count), (8, count),
    (8, size), (8, offset)]

/-- The locator of a 64-bit record that stands at a position, without its signature. -/
def locatorFields (position : Nat) : Fields := [(4, 0), (8, position), (4, 1)]

/-- What stands between the directory and the end record. -/
def wideEnd (count size offset : Nat) : ByteArray :=
  if isWideEnd count size offset then
    bytesOf wideEndSignature ++ (wideEndFields count size offset).bytes ++
      bytesOf locatorSignature ++ (locatorFields (offset + size)).bytes
  else ByteArray.empty

/-- What stands behind the directory. Numbers that are too large for the end record are replaced
there by the greatest that its fields can hold. -/
def ending (count size offset : Nat) : ByteArray :=
  wideEnd count size offset ++
    endRecord (min count maxField) (min size absent32) (min offset absent32)

/-- The archive of packed entries. -/
def layout (now : Moment) (ps : List Packed) : ByteArray :=
  let members := localRecords now ps
  let directory := directoryRecords now ps 0 ByteArray.empty
  members ++ directory ++ ending ps.length directory.size members.size

/-- The numbers behind the local records of an archive fit their fields. -/
def fitLayout (now : Moment) (ps : List Packed) : Bool :=
  let size := (directoryRecords now ps 0 ByteArray.empty).size
  let offset := (localRecords now ps).size
  fitDirectory now ps 0 && (!isWideEnd ps.length size offset ||
    (wideEndFields ps.length size offset ++ locatorFields (offset + size)).fit)

/-- What is packed up to the first entry that is refused, and how that one is. -/
def upToRefusal : List (Except Failure Packed) → List Packed × Option Failure
  | [] => ([], none)
  | .error f :: _ => ([], some f)
  | .ok p :: rest =>
    let (ps, refusal) := upToRefusal rest
    (p :: ps, refusal)

/-- Writes the archive of what entries are packed to. Where one is refused, the archive of those
before it is completed all the same, and may fail in that. -/
def write (now : Moment) (packs : List (Except Failure Packed)) : Except Failure ByteArray :=
  let (ps, refusal) := upToRefusal packs
  if !fitLayout now ps then .error .fieldRange
  else
    match refusal with
    | some f => .error f
    | none => .ok (layout now ps)

/-- Encodes entries as an archive, all with the same time. -/
def encode (method : WriteMethod) (now : Moment) (entries : List Entry) :
    Except Failure ByteArray :=
  write now (entries.map (pack method now))

/-- The smallest archive: an end record alone. -/
def emptyArchive : ByteArray := endRecord 0 0 0

/-- The bytes of a content in an archive: a text is encoded as UTF-8. Other values are refused,
those without a length sooner than those with one. -/
def packContent (method : WriteMethod) (now : Moment) (path : Text) (content : Content) :
    Except Failure Packed :=
  match content with
  | .bytes b => pack method now ⟨path, b⟩
  | .text t =>
    if now.year < Moment.firstYear then .error (.encode .beforeFirstYear)
    else
      match t.encode with
      | .error l => .error (.encode (.loose l))
      | .ok b => pack method now ⟨path, b⟩
  | .released =>
    if now.year < Moment.firstYear then .error (.encode .beforeFirstYear)
    else .error (.encode .released)
  | .other typeName =>
    if now.year < Moment.firstYear then .error (.encode .beforeFirstYear)
    else if typeName = "list" ∨ typeName = "dict" then
      (pack method now ⟨path, ByteArray.empty⟩).bind fun _ => .error (.content (.noBuffer typeName))
    else .error (.content (.noLength typeName))

/-- Encodes contents of any kind as an archive. -/
def encodeContents (method : WriteMethod) (now : Moment) (entries : List (Text × Content)) :
    Except Failure ByteArray :=
  write now (entries.map fun (path, content) => packContent method now path content)

end ZipContainer.Zip
