import ZipContainer.Zstandard.Fse

/-!
# Huffman codes of literals

A code is given by the weights of its symbols. Weight zero stands for a symbol that does not
occur; a symbol of weight `w` fills `2 ^ (w - 1)` consecutive places of the table, and lighter
symbols come first. The weight of the last symbol is not stated: it fills the table up.
-/

namespace ZipContainer.Zstandard

/-- A table indexed by the next `log` bits: the symbol, and how many of the bits are its code. -/
structure Huffman where
  log : Nat
  cells : Array (Nat × Nat)

namespace Huffman

/-- The greatest weight, and the greatest log of a table. -/
def maxLog : Nat := 12

/-- How many symbols can have weights, the last one included. -/
def maxSymbols : Nat := 256

/-- The places that a symbol of the given weight fills. -/
def places (weight : Nat) : Nat := if weight = 0 then 0 else 2 ^ (weight - 1)

/-- The table with the given weights, which fill it. -/
def ofWeights (log : Nat) (weights : List Nat) : Huffman where
  log := log
  cells := ((List.range (log + 1)).flatMap fun k =>
    (weights.zipIdx.filter fun w => w.1 = k + 1).flatMap fun w =>
      List.replicate (places w.1) (w.2, log + 1 - w.1)).toArray

/-- Adds the weight of the last symbol and builds the table, if a last weight can fill it and
the lightest symbols come in pairs. -/
def ofStated? (weights : List Nat) : Option Huffman :=
  let total := weights.foldl (fun total weight => total + places weight) 0
  if weights.any (maxLog < ·) || total = 0 then none
  else
    let log := total.log2 + 1
    let rest := 2 ^ log - total
    if maxLog < log || 2 ^ rest.log2 ≠ rest then none
    else
      let weights := weights ++ [rest.log2 + 1]
      let light := weights.countP (· = 1)
      if light < 2 || light % 2 = 1 then none else some (ofWeights log weights)

/-- Reads weights, which two states spell in turn, until the data are used up; then the state
that is not being left spells the last one. `other` is that state. -/
def readWeights (t : Fse) : Nat → Nat → Nat → Backward → List Nat → Option (List Nat)
  | 0, _, _, _, _ => none
  | fuel + 1, state, other, s, acc =>
    if maxSymbols - 1 < acc.length + 2 then none
    else
      let acc := (t.cell state).symbol :: acc
      let (state, s) := t.next state s
      if s.left < 0 then some ((t.cell other).symbol :: acc).reverse
      else readWeights t fuel other state s acc

/-- Two four-bit weights in each byte, the high one first. -/
def nibbles (bs : List UInt8) : List Nat :=
  bs.flatMap fun b => [b.toNat / 16, b.toNat % 16]

/-- The greatest log of the table that codes weights. -/
def weightLog : Nat := 6

/-- Reads the description of a code: the table and the number of bytes of the description. -/
def read? (src : ByteArray) : Option (Huffman × Nat) :=
  match src[0]? with
  | none => none
  | some first =>
    let first := first.toNat
    if 128 ≤ first then
      let count := first - 127
      let size := (count + 1) / 2
      if src.size < size + 1 then none
      else do
        let t ← ofStated? ((nibbles (src.extract 1 (1 + size)).data.toList).take count)
        return (t, size + 1)
    else if src.size < first + 1 then none
    else do
      let body := src.extract 1 (1 + first)
      let (t, used) ← Fse.read? body maxSymbols weightLog
      let s ← Backward.start? (body.extract used body.size)
      let (state, s) := t.start s
      let (other, s) := t.start s
      let weights ← readWeights t maxSymbols state other s []
      let t ← ofStated? weights
      return (t, first + 1)

/-- Decodes `n` symbols behind those in `acc`. -/
def decode (t : Huffman) : Nat → Backward → ByteArray → ByteArray × Backward
  | 0, s, acc => (acc, s)
  | n + 1, s, acc =>
    let (symbol, bits) := t.cells[s.peek t.log]?.getD (0, 0)
    decode t n (s.skip bits) (acc.push (UInt8.ofNat symbol))

/-- Decodes a stream of exactly `n` symbols. -/
def decodeStream? (t : Huffman) (src : ByteArray) (n : Nat) : Option ByteArray := do
  let s ← Backward.start? src
  let (out, s) := t.decode n s ByteArray.empty
  if s.isComplete then return out else none

/-- Decodes four streams, the sizes of the first three of which are stated before them. The
first three spell equally many symbols, and at least as many as the last. -/
def decodeFour? (t : Huffman) (src : ByteArray) (n : Nat) : Option ByteArray := do
  if src.size < 10 then none
  let a := forwardBits src 0 16
  let b := forwardBits src 16 16
  let c := forwardBits src 32 16
  if src.size < 6 + a + b + c then none
  let part := (n + 3) / 4
  if n < 3 * part then none
  let w ← t.decodeStream? (src.extract 6 (6 + a)) part
  let x ← t.decodeStream? (src.extract (6 + a) (6 + a + b)) part
  let y ← t.decodeStream? (src.extract (6 + a + b) (6 + a + b + c)) part
  let z ← t.decodeStream? (src.extract (6 + a + b + c) src.size) (n - 3 * part)
  return w ++ x ++ y ++ z

end Huffman

end ZipContainer.Zstandard
