import ZipContainer.Unpacking

/-!
# Bits and codes of bzip2

Bits are numbered from the most significant bit of the first byte on. A code of a block is given
by the code lengths of its symbols: codes of one length are consecutive numbers in the order of
the symbols, and the first code of a length follows the last one of the length before. Reading
compares the bits read so far with the last code of their length, so that every set of lengths
has a meaning, also one that is no prefix code.
-/

namespace ZipContainer.Bzip2

/-- The bit at a position. -/
def bit? (src : ByteArray) (pos : Nat) : Option Bool :=
  if h : pos / 8 < src.size then some (src[pos / 8].toNat.testBit (7 - pos % 8)) else none

/-- Reading from a bit position on. -/
abbrev Reader (α : Type) := Nat → Except Stop (α × Nat)

/-- Reads `n` bits behind those in `acc`, the most significant first. -/
def readBits (src : ByteArray) : Nat → Nat → Reader Nat
  | 0, acc, pos => .ok (acc, pos)
  | n + 1, acc, pos =>
    match bit? src pos with
    | none => .error .starved
    | some b => readBits src n (2 * acc + b.toNat) (pos + 1)

/-- The code of one group of symbols: for every length the greatest code, and by how much codes
exceed the rank of their symbols; and the symbols in the order of their codes. -/
structure Code where
  least : Nat
  greatest : Array Nat
  excess : Array Nat
  symbols : Array Nat

/-- The greatest length of a code. -/
def maxCodeLength : Nat := 20

/-- The number of symbols with a given code length. -/
def countOfLength (lengths : List Nat) (len : Nat) : Nat :=
  lengths.countP (· = len)

/-- The rows of the tables for the lengths from `len` on: the greatest code and the excess. The
codes of the length before end before `vec`, and `seen` symbols have shorter codes. -/
def codeRows (lengths : List Nat) : Nat → Nat → Nat → Nat → List (Nat × Nat)
  | 0, _, _, _ => []
  | more + 1, len, vec, seen =>
    let n := countOfLength lengths len
    (vec + n - 1, vec - seen) :: codeRows lengths more (len + 1) (2 * (vec + n)) (seen + n)

/-- The code with the given lengths. -/
def Code.ofLengths (lengths : List Nat) : Code :=
  let least := lengths.foldl min (maxCodeLength + 1)
  let most := lengths.foldl max 0
  let rows := codeRows lengths (most + 1 - least) least 0 0
  let absent := List.replicate least (0, 0)
  { least := least
    greatest := ((absent ++ rows).map Prod.fst).toArray
    excess := ((absent ++ rows).map Prod.snd).toArray
    symbols := ((List.range (most + 1 - least)).flatMap fun k =>
      (lengths.zipIdx.filter fun p => p.1 = least + k).map Prod.snd).toArray }

/-- The number of entries a code's symbol table may have. -/
def maxSymbols : Nat := 258

/-- Reads on until the `len` bits in `acc` are a code. -/
def Code.match? (c : Code) (src : ByteArray) : Nat → Nat → Nat → Reader Nat
  | 0, _, _, _ => .error .corrupt
  | fuel + 1, len, acc, pos =>
    if maxCodeLength < len then .error .corrupt
    else if acc ≤ c.greatest[len]?.getD 0 then
      let rank := acc - c.excess[len]?.getD 0
      if maxSymbols ≤ rank then .error .corrupt
      else .ok (c.symbols[rank]?.getD 0, pos)
    else
      match bit? src pos with
      | none => .error .starved
      | some b => c.match? src fuel (len + 1) (2 * acc + b.toNat) (pos + 1)

/-- Reads one symbol. -/
def Code.read (c : Code) (src : ByteArray) : Reader Nat := fun pos => do
  let (acc, pos) ← readBits src c.least 0 pos
  c.match? src (maxCodeLength + 2) c.least acc pos

end ZipContainer.Bzip2
