import ZipContainer.Zip.Member
import ZipContainer.Zstandard.Decoder

/-!
# Members packed by Zstandard

These members are read straight from the data: the local header is only looked at for the sizes
of what varies in it. Their content has to have exactly the stated size.

Positions are places in the data as a slice takes them: a negative one counts from the end of the
data, and one outside the data is moved to their nearer end.
-/

namespace ZipContainer.Zip

/-- The place in data of the given size that a position stands for. -/
def place (size : Nat) (pos : Int) : Nat :=
  if pos < 0 then (size + pos).toNat else min pos.toNat size

/-- The bytes between two positions. -/
def slice (data : ByteArray) (first last : Int) : ByteArray :=
  data.extract (place data.size first) (place data.size last)

/-- Unpacks the data of a member that is packed by Zstandard, and verifies what comes of them. -/
def unpackZstandard [Zstandard.Decoder] (r : Record) (packed : ByteArray) :
    Except Failure ByteArray :=
  if maxWord < r.size then .error .wordRange
  else
    match Zstandard.Decoder.decompress packed r.size with
    | .error .invalid => .error (.member r.name .zstandard)
    | .error (.outside kind text) => .error (.outside kind text)
    | .ok content =>
      if content.size ≠ r.size then .error (.member r.name .lengthMismatch)
      else if crc32 content ≠ r.crc then .error (.member r.name .badChecksum)
      else .ok content

/-- Reads a member that is packed by Zstandard. -/
def readZstandard [Zstandard.Decoder] (data : ByteArray) (r : Record) :
    Except Failure ByteArray := do
  let bad {α : Type} (f : MemberFault) : Except Failure α := .error (.member r.name f)
  if r.hasFlag .encrypted then throw (.unsupported r.name .encryptedMember)
  let header := slice data r.offset (r.offset + localSize)
  if header.size ≠ localSize then bad .truncatedLocalHeader
  if !startsAt header 0 localSignature then bad .badLocalSignature
  let first := r.offset + localSize + fieldAt header 26 2 + fieldAt header 28 2
  let packed := slice data first (first + r.compressedSize)
  if packed.size ≠ r.compressedSize then bad .truncatedContent
  unpackZstandard r packed

end ZipContainer.Zip
