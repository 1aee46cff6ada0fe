import ZipContainer.Bzip2.Block

/-!
# Decoding of bzip2 streams

A stream is a signature with the block size, blocks, each with a checksum of its bytes, and an
end mark with a checksum over the checksums. Marks are compared byte by byte, so that a wrong
byte is noticed before the rest has arrived.
-/

namespace ZipContainer.Bzip2

/-- One byte into the checksum of a block, the most significant bit first. -/
def crcStep (c : UInt32) (b : UInt8) : UInt32 :=
  (8 : Nat).fold (fun _ _ c => if c &&& 0x80000000 ≠ 0 then (c <<< 1) ^^^ 0x04C11DB7 else c <<< 1)
    (c ^^^ (b.toUInt32 <<< 24))

/-- The checksum of a block. -/
def blockCrc (bytes : ByteArray) : UInt32 :=
  ~~~ bytes.data.foldl crcStep 0xFFFFFFFF

/-- Takes the checksum of a block into that of the stream. -/
def combineCrc (combined crc : UInt32) : UInt32 :=
  ((combined <<< 1) ||| (combined >>> 31)) ^^^ crc

/-- Reads the given bytes; any other byte is a fault. -/
def expectBytes (src : ByteArray) : List Nat → Reader Unit
  | [], pos => .ok ((), pos)
  | b :: bs, pos => do
    let (x, pos) ← readBits src 8 0 pos
    if x = b then expectBytes src bs pos else throw .corrupt

/-- The mark of a block and the mark of the end of the stream. -/
def blockMark : List Nat := [0x31, 0x41, 0x59, 0x26, 0x53, 0x59]
@[inherit_doc blockMark] def endMark : List Nat := [0x17, 0x72, 0x45, 0x38, 0x50, 0x90]

/-- The sizes at which the output of one call is passed on, in ascending order. -/
def windowSizes : List Nat :=
  [32, 96, 352, 1376, 5472, 13664, 30048, 46432, 79200, 111968, 144736, 177504, 210272].map
    (· * 1024)

/-- How much of the output is passed on when the data end with the last byte of a block: up to
the first window boundary that the output before the block does not exceed. -/
def passedOn (before total : Nat) : Nat :=
  match windowSizes.find? (before ≤ ·) with
  | some w => min w total
  | none => total

/-- Reads the end mark and the checksum of the stream, which has to be that of its blocks. -/
def readEnding (src : ByteArray) (combined : UInt32) (pos : Nat) : Except Stop Unit := do
  let (_, pos) ← expectBytes src endMark pos
  let (stated, _) ← readBits src 32 0 pos
  if stated = combined.toNat then return () else throw .corrupt

/-- Reads the mark of a block and the block. -/
def readMarked (src : ByteArray) (limit : Nat) : Reader (Nat × ByteArray) := fun pos => do
  let (_, pos) ← expectBytes src blockMark pos
  readBlock src limit pos

/-- Reads blocks until the end mark; `out` is the output and `combined` the checksum so far. -/
def readBlocks (src : ByteArray) (limit : Nat) :
    Nat → ByteArray → UInt32 → Nat → Unpacked
  | 0, out, _, _ => ⟨out, src.size, .starved⟩
  | fuel + 1, out, combined, pos =>
    match readBits src 8 0 pos with
    | .error why => ⟨out, src.size, why⟩
    | .ok (mark, _) =>
      if mark = 0x17 then
        match readEnding src combined pos with
        | .ok () => ⟨out, src.size, .ended⟩
        | .error why => ⟨out, src.size, why⟩
      else
        match readMarked src limit pos with
        | .error why => ⟨out, src.size, why⟩
        | .ok ((stated, block), pos) =>
          let total := out.size + block.size
          let passed := passedOn out.size total
          if src.size * 8 < pos + 8 && passed < total then
            ⟨out ++ block.extract 0 (passed - out.size), src.size, .starved⟩
          else
            let crc := blockCrc block
            if stated ≠ crc.toNat then ⟨out, src.size, .corrupt⟩
            else readBlocks src limit fuel (out ++ block) (combineCrc combined crc) pos

/-- Reads the signature and the level of a stream. -/
def readLevel (src : ByteArray) : Reader Nat := fun pos => do
  let (_, pos) ← expectBytes src [0x42, 0x5A, 0x68] pos
  let (level, pos) ← readBits src 8 0 pos
  if level < 0x31 || 0x39 < level then throw .corrupt
  return (level - 0x30, pos)

/-- Decodes the data that have arrived. -/
def decode (src : ByteArray) : Unpacked :=
  match readLevel src 0 with
  | .error why => ⟨ByteArray.empty, src.size, why⟩
  | .ok (level, pos) =>
    readBlocks src (level * blockUnit) (src.size + 1) ByteArray.empty 0 pos

end ZipContainer.Bzip2
