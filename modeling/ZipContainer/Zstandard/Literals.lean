import ZipContainer.Zstandard.Huffman

/-!
# The literals of a block

A compressed block begins with its literals: the bytes themselves, one byte repeated, or a
Huffman code and one or four streams. A later block may use the code of an earlier one.
-/

namespace ZipContainer.Zstandard

/-- The greatest size of a block, and of the literals in it. -/
def maxBlockSize : Nat := 128 * 1024

/-- The least number of literals for which there are four streams. -/
def minForFour : Nat := 6

/-- The literals of a block, the code that is in force after them, and the number of bytes that
they take in the block. -/
structure Literals where
  bytes : ByteArray
  code : Option Huffman
  used : Nat

/-- The size of the header of plain literals, and their number. -/
def plainHeader (src : ByteArray) : Nat × Nat :=
  match forwardBits src 2 2 with
  | 1 => (2, forwardBits src 4 12)
  | 3 => (3, forwardBits src 4 20)
  | _ => (1, forwardBits src 3 5)

/-- The size of the header of coded literals, their number, the size of the coded data, and
whether there is a single stream. -/
def codedHeader (src : ByteArray) : Nat × Nat × Nat × Bool :=
  match forwardBits src 2 2 with
  | 0 => (3, forwardBits src 4 10, forwardBits src 14 10, true)
  | 1 => (3, forwardBits src 4 10, forwardBits src 14 10, false)
  | 2 => (4, forwardBits src 4 14, forwardBits src 18 14, false)
  | _ => (5, forwardBits src 4 18, forwardBits src 22 18, false)

/-- Reads the literals of a block that may hold at most `room` bytes; `code` is the code in force
before them. -/
def readLiterals (src : ByteArray) (room : Nat) (code : Option Huffman) : Option Literals :=
  if src.size < 2 then none
  else
    match forwardBits src 0 2 with
    | 0 =>
      let (header, count) := plainHeader src
      if room < count ∨ src.size < header + count then none
      else some ⟨src.extract header (header + count), code, header + count⟩
    | 1 =>
      let (header, count) := plainHeader src
      match src[header]? with
      | none => none
      | some b =>
        if room < count then none
        else some ⟨count.fold (fun _ _ o => o.push b) ByteArray.empty, code, header + 1⟩
    | kind => do
      if src.size < 5 then none
      let (header, count, size, isSingle) := codedHeader src
      if room < count ∨ src.size < header + size then none
      if !isSingle && count < minForFour then none
      let data := src.extract header (header + size)
      let (table, data) ←
        if kind = 3 then code.map fun t => (t, data)
        else do
          let (t, used) ← Huffman.read? data
          if data.size ≤ used then none
          pure (t, data.extract used data.size)
      let bytes ←
        if isSingle then table.decodeStream? data count else table.decodeFour? data count
      return ⟨bytes, some table, header + size⟩

end ZipContainer.Zstandard
