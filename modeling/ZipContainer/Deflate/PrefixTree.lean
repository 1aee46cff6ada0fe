import ZipContainer.Unpacking

/-!
# Prefix codes

A prefix code as a binary tree, and the canonical code with given code lengths.

Bits are numbered from the least significant bit of the first byte on. A tree is walked one bit
at a time, `0` to the left, until a leaf is met. In a canonical code shorter codes come before
longer ones and codes of one length are in the order of their symbols, so at each depth the
leaves stand to the left of the inner nodes; the tree is built from its deepest level upwards.
-/

namespace ZipContainer.Deflate

/-- The bit at a position. -/
def bit? (src : ByteArray) (pos : Nat) : Option Bool :=
  if h : pos / 8 < src.size then some (src[pos / 8].toNat.testBit (pos % 8)) else none

/-- The number in the `n` bits at a position, the least significant first. -/
def bits? (src : ByteArray) (pos : Nat) : Nat → Option Nat
  | 0 => some 0
  | n + 1 =>
    match bit? src pos, bits? src (pos + 1) n with
    | some b, some r => some (b.toNat + 2 * r)
    | _, _ => none

/-- A binary prefix code. -/
inductive PrefixTree where
  /-- No code begins with the bits that lead here. -/
  | dead
  | leaf (symbol : Nat)
  | node (zero one : PrefixTree)
  deriving DecidableEq, Repr

namespace PrefixTree

/-- Reads one symbol at a position: the symbol and the position after its code. -/
def walk (src : ByteArray) (pos : Nat) : PrefixTree → Except Stop (Nat × Nat)
  | dead => .error .corrupt
  | leaf s => .ok (s, pos)
  | node zero one =>
    match bit? src pos with
    | none => .error .starved
    | some b => if b then walk src (pos + 1) one else walk src (pos + 1) zero

/-- Joins neighbours to the nodes of the level above. -/
def pairUp : List PrefixTree → List PrefixTree
  | [] => []
  | [t] => [node t dead]
  | a :: b :: r => node a b :: pairUp r

/-- The symbols whose codes have the length `len`, in order. -/
def symbolsOfLength (lengths : List Nat) (len : Nat) : List Nat :=
  (lengths.zipIdx.filter fun p => p.1 = len).map Prod.snd

/-- The trees at depth `depth` of the canonical code, when `more` further levels exist. -/
def levels (lengths : List Nat) : Nat → Nat → List PrefixTree
  | 0, _ => []
  | more + 1, depth =>
    (symbolsOfLength lengths depth).map leaf ++ pairUp (levels lengths more (depth + 1))

/-- The greatest length of a code. -/
def maxLength : Nat := 15

/-- The share of the code space that codes of the given lengths take, in units of the longest
code; length zero means that there is no code. -/
def occupied (lengths : List Nat) : Nat :=
  lengths.foldl (fun s l => if l = 0 then s else s + 2 ^ (maxLength - l)) 0

/-- The whole code space. -/
def space : Nat := 2 ^ maxLength

/-- The canonical code with the given lengths. It has at least one bit per symbol. -/
def canonical (lengths : List Nat) : PrefixTree :=
  match pairUp (levels lengths maxLength 1) with
  | t :: _ => t
  | [] => node dead dead

end PrefixTree

end ZipContainer.Deflate
