import ZipContainer.Bytes
import ZipContainer.Zstandard.Checksum
import ZipContainer.Zstandard.Decoder
import ZipContainer.Zstandard.Sequences

/-!
# Zstandard frames

A frame is a header, blocks, and perhaps a checksum of its content. What follows the first frame
is not looked at. A frame that states its size is decoded as a whole into a buffer of that size;
one that does not is decoded as a stream into a buffer of the size that the reader offers.
-/

namespace ZipContainer.Zstandard

/-- The header of a frame. -/
structure FrameHeader where
  size : Nat
  window : Nat
  dictionary : Nat
  /-- The size of the content, if it is stated. -/
  content : Option Nat
  hasChecksum : Bool
  deriving DecidableEq, Repr

/-- What data begin with. -/
inductive Opening where
  | frame (h : FrameHeader)
  /-- A frame that decoders skip, with the stated size of what it holds. -/
  | skippable (size : Nat)

/-- The greatest log of a window. -/
def maxWindowLog : Nat := 31

/-- The greatest window of a frame that is decoded as a stream. -/
def maxStreamWindow : Nat := 2 ^ 27 + 1

/-- The number with which a frame begins. -/
def frameMagic : Nat := 0xFD2FB528

/-- The number with which a skippable frame begins, but for its last digit. -/
def skippableMagic : Nat := 0x184D2A5

/-- The size that stands for an unknown one, and the one that is no size. -/
def unknownSize : Nat := 2 ^ 64 - 1
@[inherit_doc unknownSize] def noSize : Nat := 2 ^ 64 - 2

/-- Reads the header of a frame after its magic number. -/
def readHeader (src : ByteArray) : Option FrameHeader :=
  match src[4]? with
  | none => none
  | some d =>
    let d := d.toNat
    let isSingle := d.testBit 5
    let dictionarySize := [0, 1, 2, 4].getD (d % 4) 0
    let contentSize := match d / 64 with
      | 0 => if isSingle then 1 else 0
      | 1 => 2
      | 2 => 4
      | _ => 8
    let windowSize := if isSingle then 0 else 1
    let size := 5 + windowSize + dictionarySize + contentSize
    if src.size < size ∨ d.testBit 3 then none
    else
      let log := fieldAt src 5 windowSize / 8 + 10
      let stated := fieldAt src (5 + windowSize + dictionarySize) contentSize +
        (if contentSize = 2 then 256 else 0)
      let content := if contentSize = 0 ∨ stated = unknownSize then none else some stated
      let window := if isSingle then stated
        else 2 ^ log + 2 ^ log / 8 * (fieldAt src 5 windowSize % 8)
      if content = some noSize ∨ (!isSingle ∧ maxWindowLog < log) then none
      else some {
        size := size
        window := window
        dictionary := fieldAt src (5 + windowSize) dictionarySize
        content := content
        hasChecksum := d.testBit 2 }

/-- Reads what data begin with. -/
def readOpening (src : ByteArray) : Option Opening :=
  if src.size < 5 then none
  else
    let magic := fieldAt src 0 4
    if magic = frameMagic then (readHeader src).map .frame
    else if magic / 16 = skippableMagic ∧ 8 ≤ src.size then some (.skippable (fieldAt src 4 4))
    else none

/-- What passes from one block to the next. -/
structure FrameState where
  out : ByteArray
  literals : Option Huffman
  codes : Option Codes
  recent : Recent

/-- Decodes the body of a compressed block. Its literals take at most `room` bytes, and the output
may not exceed `limit`. -/
def decodeBlock (src : ByteArray) (room limit : Nat) (s : FrameState) : Option FrameState := do
  let lits ← readLiterals src (min room (limit - s.out.size)) s.literals
  let (out, recent, codes) ←
    decodeSequences (src.extract lits.used src.size) s.codes limit
      ⟨s.out, lits.bytes, 0, s.recent⟩
  return ⟨out, lits.code, codes, recent⟩

/-- Decodes blocks from a position on until the last one: the content, and the position after
it. No block takes or gives more than `most` bytes, if that is asked for, and the output may not
exceed `limit`. -/
def decodeBlocks (src : ByteArray) (room limit : Nat) (most : Option Nat) :
    Nat → Nat → FrameState → Option (ByteArray × Nat)
  | 0, _, _ => none
  | fuel + 1, pos, s =>
    if src.size < pos + 3 then none
    else
      let header := fieldAt src pos 3
      let isLast := header % 2 = 1
      let size := header / 8
      let pos := pos + 3
      let before := s.out.size
      let within (n : Nat) : Bool := most.all fun m => n ≤ m
      let block : Option (FrameState × Nat) :=
        match header / 2 % 4 with
        | 0 =>
          if src.size < pos + size ∨ limit < before + size then none
          else some ({ s with out := s.out ++ src.extract pos (pos + size) }, size)
        | 1 =>
          match src[pos]? with
          | none => none
          | some b =>
            if limit < before + size then none
            else some ({ s with out := size.fold (fun _ _ o => o.push b) s.out }, 1)
        | 2 =>
          if src.size < pos + size ∨ room < size then none
          else (decodeBlock (src.extract pos (pos + size)) room limit s).map fun s => (s, size)
        | _ => none
      match block with
      | none => none
      | some (s, taken) =>
        if !within taken || !within (s.out.size - before) then none
        else if isLast then some (s.out, pos + taken)
        else decodeBlocks src room limit most fuel (pos + taken) s

/-- Decodes the blocks of a frame into a buffer of the given size and verifies the checksum. -/
def decodeContent (src : ByteArray) (h : FrameHeader) (buffer : Nat) (asStream : Bool) :
    Option ByteArray := do
  let room := min h.window maxBlockSize
  let (out, pos) ← decodeBlocks src room buffer (if asStream then some room else none)
    (src.size + 1) h.size
    ⟨ByteArray.empty, none, none, .start⟩
  if h.hasChecksum then
    if src.size < pos + 4 ∨ fieldAt src pos 4 ≠ Checksum.stated out then none
  return out

/-- The greatest size of a buffer that can be asked for at all. -/
def maxBuffer : Nat := 2 ^ 63 - 34

/-- Asks for a buffer; sizes that no byte string can have fail as such. -/
def withBuffer (size : Nat) (content? : Option ByteArray) : Except Refusal ByteArray :=
  if maxBuffer < size then .error (.outside .overflow "byte string is too large")
  else
    match content? with
    | some content => .ok content
    | none => .error .invalid

/-- Decodes the first frame of the data; `buffer` is the size of the buffer that the reader offers
for a content whose size is not stated. Frames that need a dictionary are refused, and so are
frames to skip, which never give what they hold, unless they hold nothing. -/
def decode (src : ByteArray) (buffer : Nat) : Except Refusal ByteArray :=
  match readOpening src with
  | none => .error .invalid
  | some (.skippable n) => if n = 0 then .ok ByteArray.empty else .error .invalid
  | some (.frame h) =>
    match h.content with
    | some 0 => .ok ByteArray.empty
    | some n =>
      if 2 ^ 63 ≤ n then .error .invalid
      else withBuffer n <|
        if h.dictionary ≠ 0 then none
        else (decodeContent src h n false).bind fun out => if out.size = n then some out else none
    | none =>
      if buffer = 0 then .error .invalid
      else withBuffer buffer <|
        if h.dictionary ≠ 0 ∨ maxStreamWindow < h.window then none
        else decodeContent src h buffer true

/-- This decoder of frames, for readers that are given no other. -/
scoped instance frameDecoder : Decoder where
  decompress := decode
  refuses_empty _ _ := nofun

end ZipContainer.Zstandard
