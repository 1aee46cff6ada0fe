import ZipContainer.Bzip2.Decode
import ZipContainer.Crc32
import ZipContainer.Deflate.Inflate
import ZipContainer.Lzma.Decode
import ZipContainer.Zip.Directory

/-!
# Members

Opening a member checks its local header against the directory and finds its packed data.

Packed data are then taken in rounds: every round takes some more bytes of the data, and unpacks
what has arrived so far. A member ends when the stream or the data end, or when as much has been
unpacked as the directory states; what is unpacked beyond that is cut off. Where it ends, the
checksum of what was read has to be that of the directory. One byte more than the limit on entry
sizes is asked for, which decides how much a round takes; reading stops when that much has been
read, even if the member has not ended.
-/

namespace ZipContainer.Zip

/-- The greatest number that positions and sizes in memory can have. -/
def maxWord : Nat := 2 ^ 63 - 1

/-- The least number that can be taken for one. -/
def minWord : Int := -(maxWord + 1)

/-! ### Limits -/

/-- The size is within the limit. -/
def withinLimit (limit : Option Int) (size : Nat) : Bool :=
  limit.all fun l => (size : Int) ≤ l

/-- The failure of a member that is larger than the limit. -/
def tooLarge (limit : Option Int) (r : Record) : Failure :=
  .container (.tooLarge r.name (limit.getD 0))

/-- What is handed on of what has been read: at most one byte more than the limit. -/
def handedOn (limit : Option Int) (content : ByteArray) : ByteArray :=
  match limit with
  | none => content
  | some l => content.extract 0 (min (l + 1).toNat content.size)

/-! ### Opening -/

/-- Checks the local header of a member and finds where its packed data begin. A header that
reaches beyond the data ends with them. -/
def locate (data : ByteArray) (r : Record) (bound : Int) : Except Failure Nat := do
  let bad {α : Type} (f : MemberFault) : Except Failure α := .error (.member r.name f)
  let refuse {α : Type} (f : Unsupported) : Except Failure α := .error (.unsupported r.name f)
  if r.offset < minWord ∨ maxWord < r.offset then throw .wordRange
  if r.offset < 0 then bad (.negativeOffset r.offset)
  let start := r.offset.toNat
  if data.size < start + localSize then bad .truncatedHeader
  if !startsAt data start localSignature then bad .badMagic
  let flags := fieldAt data (start + 6) 2
  let nameStart := start + localSize
  let stored := data.extract nameStart (nameStart + fieldAt data (start + 26) 2)
  let packed := min data.size (nameStart + stored.size + fieldAt data (start + 28) 2)
  if r.hasFlag .compressedPatch then refuse .compressedPatch
  if r.hasFlag .strongEncryption then refuse .strongEncryption
  match nameText flags stored with
  | .error f => bad (.name f)
  | .ok localName =>
    if localName ≠ r.fullName then bad (.nameDiffers r.fullName stored)
    if bound < packed + r.compressedSize then bad (.overlaps r.fullName)
    if r.hasFlag .encrypted then refuse (.encrypted r)
    return packed

/-! ### Unpacking -/

/-- The methods that are unpacked in rounds. -/
inductive Packing where
  | stored
  | deflated
  | bzip2
  | lzma
  deriving DecidableEq, Repr

/-- The packing that a method number stands for. -/
def Packing.ofCode? (code : Nat) : Option Packing :=
  match Method.ofCode? code with
  | some .stored => some .stored
  | some .deflated => some .deflated
  | some .bzip2 => some .bzip2
  | some .lzma => some .lzma
  | _ => none

/-- The fault of a stream that is not valid. -/
def Packing.fault : Packing → MemberFault
  | .stored => .endOfData
  | .deflated => .deflate
  | .bzip2 => .bzip2
  | .lzma => .lzma

/-- What is unpacked of the data that have arrived. A budget is respected where the output of a
byte of data has no small bound. -/
def Packing.unpack (p : Packing) (arrived : ByteArray) (budget : Nat) : Unpacked :=
  match p with
  | .stored => ⟨arrived, arrived.size, .starved⟩
  | .deflated => Deflate.inflate arrived budget
  | .bzip2 => Bzip2.decode arrived
  | .lzma => Lzma.decode arrived

/-- The least number of bytes that a round takes or unpacks. -/
def minRound : Nat := 4096

/-- The number of bytes that a round asks for if there is no limit. -/
def openRound : Nat := 2 ^ 30

/-- How many bytes a round asks for when `read` bytes have been read. -/
def request (limit : Option Int) (read : Nat) : Nat :=
  match limit with
  | none => openRound
  | some l => (l + 1 - read).toNat

/-- Where reading stands: how many bytes of the packed data have arrived, how many of them are
used up, and what has been read. -/
structure Reading where
  arrived : Nat
  used : Nat
  content : ByteArray

/-- The packed data of a member: where they begin, how they are packed, and the sizes and the
limit that reading goes by. -/
structure Source where
  data : ByteArray
  start : Nat
  packing : Packing
  compressedSize : Nat
  size : Nat
  limit : Option Int

/-- Why a round fails. -/
inductive RoundFault where
  | member (f : MemberFault)
  | wordRange

/-- Takes the next bytes of the packed data: how many have arrived then. Bytes that have arrived
but are not used up count towards the request. -/
def Source.take (s : Source) (r : Reading) : Except RoundFault Nat :=
  let asked := request s.limit r.content.size - (r.arrived - r.used)
  let left := s.compressedSize - r.arrived
  if asked = 0 ∨ left = 0 then .ok r.arrived
  else
    let n := min (max asked minRound) left
    if maxWord < n then .error .wordRange
    else
      let present := min n (s.data.size - (s.start + r.arrived))
      if present = 0 then .error (.member .endOfData) else .ok (r.arrived + present)

/-- More than deflate data of the given size can unpack to: two bits spell at most 258 bytes. -/
def deflateBound (size : Nat) : Nat := 1032 * size

/-- What all data that have arrived unpack to in the end, when no more will come: errors that
lie beyond what has been unpacked do not matter any more. -/
def Source.flush (s : Source) (arrived : ByteArray) (u : Unpacked) : ByteArray :=
  if s.packing = .deflated ∧ u.why = .full then
    (Deflate.inflate arrived (deflateBound arrived.size)).output
  else u.output

/-- One round: reading goes on, or ends with the whole content. -/
def Source.round (s : Source) (r : Reading) : Except RoundFault (Reading ⊕ ByteArray) := do
  let arrived ← s.take r
  let asked := max (request s.limit r.content.size) minRound
  if s.packing = .deflated ∧ maxWord < asked then throw .wordRange
  let data := s.data.extract s.start (s.start + arrived)
  let budget := r.content.size + asked
  let u := s.packing.unpack data budget
  if u.why = .corrupt then throw (.member s.packing.fault)
  let used := if u.why = .full then u.used else arrived
  let isOver := u.why = .ended || (s.compressedSize ≤ arrived && used = arrived)
  let output := if isOver then s.flush data u else
    if s.packing = .deflated then u.output.extract 0 budget else u.output
  if isOver || s.size ≤ output.size then return .inr (output.extract 0 s.size)
  else return .inl ⟨arrived, used, output⟩

/-- Rounds until the member ends or as much has been read as is asked for: what was read, and
whether the member ended. -/
def Source.rounds (s : Source) : Nat → Reading → Except RoundFault (ByteArray × Bool)
  | 0, r => .ok (r.content, false)
  | fuel + 1, r =>
    if request s.limit r.content.size = 0 then .ok (r.content, false)
    else
      match s.round r with
      | .error f => .error f
      | .ok (.inr content) => .ok (content, true)
      | .ok (.inl r) => s.rounds fuel r

/-- Reads the content. Every round but the last takes a byte of the data or adds one to the
content. -/
def Source.read (s : Source) : Except RoundFault (ByteArray × Bool) :=
  s.rounds (s.data.size + s.size + 1) ⟨0, 0, ByteArray.empty⟩

/-- Reads a member that is not packed by Zstandard. The checksum is compared only where the member
ended. -/
def readPacked (data : ByteArray) (limit : Option Int) (r : Record) (bound : Int) :
    Except Failure ByteArray := do
  let start ← locate data r bound
  match Packing.ofCode? r.method with
  | none => throw (.unsupported r.name .method)
  | some p =>
    let source : Source := ⟨data, start, p, r.compressedSize, r.size, limit⟩
    match source.read with
    | .error .wordRange => throw .wordRange
    | .error (.member f) => throw (.member r.name f)
    | .ok (content, hasEnded) =>
      if hasEnded ∧ crc32 content ≠ r.crc then throw (.member r.name (.checksum r.name))
      let handed := handedOn limit content
      if !withinLimit limit handed.size then throw (tooLarge limit r)
      return handed

end ZipContainer.Zip
