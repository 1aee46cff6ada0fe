import ZipContainer.Bytes

/-!
# The two directions of bits in Zstandard

Table descriptions are read forwards, from the least significant bit of the first byte on.
Coded data are read backwards, from the bit below the highest set bit of the last byte down; the
bits before the first are taken as zero, and a stream is complete when exactly all bits have
been read.
-/

namespace ZipContainer.Zstandard

/-- The bit at a position, counted from the least significant bit of the first byte; past the
data every bit is zero. -/
def bitAt (src : ByteArray) (pos : Nat) : Nat :=
  match src[pos / 8]? with
  | some b => b.toNat / 2 ^ (pos % 8) % 2
  | none => 0

/-- The number in the `n` bits at a position, the least significant first. -/
def forwardBits (src : ByteArray) (pos : Nat) : Nat → Nat
  | 0 => 0
  | n + 1 => bitAt src pos + 2 * forwardBits src (pos + 1) n

/-- A stream that is read backwards: its bytes and how many bits are left. The number is
negative when more bits were read than there are. -/
structure Backward where
  src : ByteArray
  left : Int

namespace Backward

/-- The stream over all bits below the highest set bit of the last byte. -/
def start? (src : ByteArray) : Option Backward :=
  match src[src.size - 1]? with
  | none => none
  | some b =>
    if b = 0 then none
    else some ⟨src, 8 * (src.size - 1 : Nat) + b.toNat.log2⟩

/-- The bits from `left - 1` down to `left - n`, behind those in `acc`. -/
def collect (src : ByteArray) : Nat → Int → Nat → Nat
  | 0, _, acc => acc
  | n + 1, left, acc =>
    let b := if 0 < left then bitAt src (left.toNat - 1) else 0
    collect src n (left - 1) (2 * acc + b)

/-- The next `n` bits, the first of them the most significant. -/
def peek (s : Backward) (n : Nat) : Nat := collect s.src n s.left 0

/-- The stream without its next `n` bits. -/
def skip (s : Backward) (n : Nat) : Backward := { s with left := s.left - n }

/-- Reads `n` bits. -/
def read (s : Backward) (n : Nat) : Nat × Backward := (s.peek n, s.skip n)

/-- Exactly all bits have been read. -/
def isComplete (s : Backward) : Bool := s.left = 0

end Backward

end ZipContainer.Zstandard
