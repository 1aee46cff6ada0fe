import ZipContainer.Bytes
import ZipContainer.Deflate.Factor

/-!
# Encoding of deflate streams

A byte string as one block with fixed codes. Symbols are written most significant bit first,
extra bits least significant bit first, and the bits fill each byte from its least significant
bit on. Where that is longer, the byte string is stored in blocks as it is.
-/

namespace ZipContainer.Deflate

/-- The `w` low bits of `n`, the least significant first. -/
def lowBits : Nat → Nat → List Bool
  | 0, _ => []
  | w + 1, n => (n % 2 = 1) :: lowBits w (n / 2)

/-- The `w` low bits of `n`, the most significant first. -/
def highBits (w n : Nat) : List Bool := (lowBits w n).reverse

/-- The fixed code of a literal, of the end of the block or of a length symbol. -/
def literalCode (symbol : Nat) : List Bool :=
  if symbol < 144 then highBits 8 (0x30 + symbol)
  else if symbol < 256 then highBits 9 (0x190 + (symbol - 144))
  else if symbol < 280 then highBits 7 (symbol - 256)
  else highBits 8 (0xC0 + (symbol - 280))

/-- The fixed code of a distance symbol. -/
def distanceCode (symbol : Nat) : List Bool := highBits 5 symbol

/-- The last row of a table whose base does not exceed `n`. -/
def rowFor (table : List (Nat × Nat)) (n : Nat) : Nat :=
  (table.takeWhile fun row => row.1 ≤ n).length - 1

/-- The extra bits by which `n` exceeds the base of a row. -/
def extraBits (row : Option (Nat × Nat)) (n : Nat) : List Bool :=
  match row with
  | some (base, width) => lowBits width (n - base)
  | none => []

/-- The bits of an item. -/
def Item.bits : Item → List Bool
  | .literal b => literalCode b.toNat
  | .endOfBlock => literalCode endSymbol
  | .copy length distance =>
    let l := rowFor lengthTable length
    let d := rowFor distanceTable distance
    literalCode (firstLength + l) ++ extraBits lengthTable[l]? length ++
      distanceCode d ++ extraBits distanceTable[d]? distance

/-- The byte with the given bits, the least significant first. -/
def byteOfBits (bs : List Bool) : UInt8 :=
  UInt8.ofNat (bs.foldr (fun b n => b.toNat + 2 * n) 0)

/-- Packs bits into bytes behind those packed already; the last byte is filled up with zeros. -/
def packBits (acc : ByteArray) : List Bool → ByteArray
  | b₀ :: b₁ :: b₂ :: b₃ :: b₄ :: b₅ :: b₆ :: b₇ :: r =>
    packBits (acc.push (byteOfBits [b₀, b₁, b₂, b₃, b₄, b₅, b₆, b₇])) r
  | [] => acc
  | short => acc.push (byteOfBits short)

/-- The header of a last block with fixed codes. -/
def lastFixedHeader : List Bool := [true, true, false]

/-- The byte string as one block with fixed codes. -/
def codedStream (data : ByteArray) : ByteArray :=
  packBits ByteArray.empty
    (lastFixedHeader ++ (factor data ++ [Item.endOfBlock]).flatMap Item.bits)

/-- The greatest size of a stored block. -/
def maxStored : Nat := 0xFFFF

/-- The header of a stored block that begins with a byte: whether it is the last one, and its size,
once more with all bits inverted. -/
def storedHeader (isLast : Bool) (size : Nat) : List UInt8 :=
  littleEndian 1 isLast.toNat ++ littleEndian 2 size ++ littleEndian 2 (maxStored - size)

/-- The byte string from a position on in stored blocks: `n` full ones and a last one. -/
def storedFrom (data : ByteArray) : Nat → Nat → ByteArray
  | 0, pos => bytesOf (storedHeader true (data.size - pos)) ++ data.extract pos data.size
  | n + 1, pos =>
    bytesOf (storedHeader false maxStored) ++ data.extract pos (pos + maxStored) ++
      storedFrom data n (pos + maxStored)

/-- The byte string in stored blocks. -/
def storedStream (data : ByteArray) : ByteArray :=
  storedFrom data ((data.size - 1) / maxStored) 0

/-- A stream that decodes to the byte string. -/
def deflate (data : ByteArray) : ByteArray :=
  let coded := codedStream data
  let stored := storedStream data
  if coded.size ≤ stored.size then coded else stored

example : (inflate (deflate (bytesOf [97, 98, 97, 98, 97, 98, 97, 98])) 100).output.data =
    #[97, 98, 97, 98, 97, 98, 97, 98] := by decide +kernel

end ZipContainer.Deflate
