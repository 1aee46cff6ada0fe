import ZipContainer.Bytes

/-!
# The checksum of Zstandard frames

The 64-bit hash XXH64 with seed zero. The bytes are taken in as 64-bit words, four of them at a
time as long as 32 bytes are left, then one at a time, then as one 32-bit word and as bytes.
-/

namespace ZipContainer.Zstandard.Checksum

/-- The multipliers of the hash. -/
def prime₁ : UInt64 := 0x9E3779B185EBCA87
@[inherit_doc prime₁] def prime₂ : UInt64 := 0xC2B2AE3D27D4EB4F
@[inherit_doc prime₁] def prime₃ : UInt64 := 0x165667B19E3779F9
@[inherit_doc prime₁] def prime₄ : UInt64 := 0x85EBCA77C2B2AE63
@[inherit_doc prime₁] def prime₅ : UInt64 := 0x27D4EB2F165667C5

/-- Rotates to the left. -/
def rotate (x n : UInt64) : UInt64 := (x <<< n) ||| (x >>> (64 - n))

/-- The little-endian word of `n` bytes at a position. -/
def word (b : ByteArray) (pos : Nat) : Nat → UInt64
  | 0 => 0
  | n + 1 => (b[pos]?.getD 0).toUInt64 ||| (word b (pos + 1) n <<< 8)

/-- Takes a word into one of the four lanes. -/
def round (lane input : UInt64) : UInt64 :=
  rotate (lane + input * prime₂) 31 * prime₁

/-- Takes a lane into the hash. -/
def mergeLane (hash lane : UInt64) : UInt64 :=
  (hash ^^^ round 0 lane) * prime₁ + prime₄

/-- Takes in `n` stripes of 32 bytes. -/
def stripes (b : ByteArray) : Nat → Nat → UInt64 → UInt64 → UInt64 → UInt64 →
    UInt64 × UInt64 × UInt64 × UInt64
  | 0, _, v₁, v₂, v₃, v₄ => (v₁, v₂, v₃, v₄)
  | n + 1, pos, v₁, v₂, v₃, v₄ =>
    stripes b n (pos + 32) (round v₁ (word b pos 8)) (round v₂ (word b (pos + 8) 8))
      (round v₃ (word b (pos + 16) 8)) (round v₄ (word b (pos + 24) 8))

/-- Takes in `n` words of eight bytes. -/
def words (b : ByteArray) : Nat → Nat → UInt64 → UInt64
  | 0, _, h => h
  | n + 1, pos, h =>
    words b n (pos + 8) (rotate (h ^^^ round 0 (word b pos 8)) 27 * prime₁ + prime₄)

/-- Takes in `n` bytes. -/
def lastBytes (b : ByteArray) : Nat → Nat → UInt64 → UInt64
  | 0, _, h => h
  | n + 1, pos, h =>
    lastBytes b n (pos + 1) (rotate (h ^^^ (word b pos 1 * prime₅)) 11 * prime₁)

/-- Spreads the bits of the hash. -/
def avalanche (h : UInt64) : UInt64 :=
  let h := (h ^^^ (h >>> 33)) * prime₂
  let h := (h ^^^ (h >>> 29)) * prime₃
  h ^^^ (h >>> 32)

/-- The hash of a byte string. -/
def hash (b : ByteArray) : UInt64 :=
  let n := b.size / 32
  let start : UInt64 :=
    if n = 0 then prime₅
    else
      let (v₁, v₂, v₃, v₄) := stripes b n 0 (prime₁ + prime₂) prime₂ 0 (0 - prime₁)
      let h := rotate v₁ 1 + rotate v₂ 7 + rotate v₃ 12 + rotate v₄ 18
      mergeLane (mergeLane (mergeLane (mergeLane h v₁) v₂) v₃) v₄
  let h := start + UInt64.ofNat b.size
  let pos := 32 * n
  let k := (b.size - pos) / 8
  let h := words b k pos h
  let pos := pos + 8 * k
  let rest := b.size - pos
  let h := if rest < 4 then h
    else rotate (h ^^^ (word b pos 4 * prime₁)) 23 * prime₂ + prime₃
  let pos := if rest < 4 then pos else pos + 4
  avalanche (lastBytes b (b.size - pos) pos h)

/-- The part of the hash that a frame states. -/
def stated (b : ByteArray) : Nat := (hash b).toNat % 2 ^ 32

example : hash ByteArray.empty = 0xEF46DB3751D8E999 := by decide +kernel

end ZipContainer.Zstandard.Checksum
