import ZipContainer.Zstandard.Bits

/-!
# Finite state entropy codes

A code whose states are the cells of a table. Each cell stands for a symbol and says how many
bits lead to the next state. A symbol has as many cells as its count; the counts add up to the
size of the table, where the count `-1` stands for a single cell at the end of the table.
-/

namespace ZipContainer.Zstandard

/-- One state: its symbol, how many bits are read to leave it, and the next state when they are
zero. -/
structure Cell where
  symbol : Nat
  bits : Nat
  base : Nat
  deriving DecidableEq, Repr

/-- A table of `2 ^ log` states. -/
structure Fse where
  log : Nat
  cells : Array Cell
  deriving Repr

namespace Fse

/-- The place after a given one in the order in which cells are filled, among those before
`room`. -/
def nextPlace (size room : Nat) : Nat → Nat → Nat
  | 0, place => place
  | fuel + 1, place =>
    let place := (place + size / 2 + size / 8 + 3) % size
    if place < room then place else nextPlace size room fuel place

/-- Puts a symbol into `n` cells, from a place on. -/
def spread (size room symbol : Nat) : Nat → Array Nat × Nat → Array Nat × Nat
  | 0, acc => acc
  | n + 1, (symbols, place) =>
    spread size room symbol n (symbols.setIfInBounds place symbol, nextPlace size room size place)

/-- The symbols of all cells: single cells at the end, the others spread over the rest. -/
def symbols (log : Nat) (counts : List Int) : Array Nat :=
  let size := 2 ^ log
  let numbered := counts.zipIdx
  let rare := (numbered.filter fun c => c.1 = -1).map Prod.snd
  let room := size - rare.length
  let start := rare.zipIdx.foldl (fun a (s, i) => a.setIfInBounds (size - 1 - i) s)
    (Array.replicate size 0)
  (numbered.foldl (fun acc c => spread size room c.2 c.1.toNat acc) (start, 0)).1

/-- The table of a code. The `k`-th cell of a symbol with the count `c` is left by the bits that
make `c + k` fill the table. -/
def ofCounts (log : Nat) (counts : List Int) : Fse where
  log := log
  cells :=
    let start := (counts.map fun c => if c = -1 then 1 else c.toNat).toArray
    ((symbols log counts).foldl (fun (cells, next) s =>
        let n := next[s]?.getD 0
        let bits := log - n.log2
        (cells.push ⟨s, bits, n * 2 ^ bits - 2 ^ log⟩, next.modify s (· + 1)))
      ((#[] : Array Cell), start)).1

/-- The table of a code with one symbol. -/
def single (symbol : Nat) : Fse := ⟨0, #[⟨symbol, 0, 0⟩]⟩

/-- The cell of a state. -/
def cell (t : Fse) (state : Nat) : Cell := t.cells[state]?.getD ⟨0, 0, 0⟩

/-- Reads the first state. -/
def start (t : Fse) (s : Backward) : Nat × Backward := s.read t.log

/-- Reads the state after a given one. -/
def next (t : Fse) (state : Nat) (s : Backward) : Nat × Backward :=
  let c := t.cell state
  let (n, s) := s.read c.bits
  (c.base + n, s)

/-! ### Descriptions -/

/-- The least and the greatest log of a table that a description can state. -/
def minLog : Nat := 5
@[inherit_doc minLog] def maxLog : Nat := 15

/-- How many symbols without cells follow, in units of two bits of which three stands for "three
and more": the number and the position after it. -/
def readZeros (src : ByteArray) : Nat → Nat → Nat → Nat × Nat
  | 0, n, pos => (n, pos)
  | fuel + 1, n, pos =>
    let r := forwardBits src pos 2
    if r = 3 then readZeros src fuel (n + 3) (pos + 2) else (n + r, pos + 2)

/-- Reads counts until the cells are used up. `remaining` is one more than the number of cells
left, `acc` holds the counts so far, the last one first; at most `bound` symbols have counts. -/
def readCounts (src : ByteArray) (bound : Nat) :
    Nat → Nat → List Int → Nat → Option (List Int × Nat)
  | 0, _, _, _ => none
  | fuel + 1, remaining, acc, pos =>
    let width := remaining.log2
    let threshold := 2 ^ width
    let short := 2 * threshold - 1 - remaining
    let low := forwardBits src pos width
    let (value, pos) :=
      if low < short then (low, pos + width)
      else
        let v := forwardBits src pos (width + 1)
        (if threshold ≤ v then v - short else v, pos + width + 1)
    let count : Int := (value : Int) - 1
    let remaining := if value = 0 then remaining - 1 else remaining - (value - 1)
    let acc := count :: acc
    if remaining ≤ 1 then
      if remaining = 1 ∧ acc.length ≤ bound then some (acc.reverse, pos) else none
    else if bound ≤ acc.length then none
    else if count = 0 then
      let (zeros, pos) := readZeros src (8 * src.size + 8) 0 pos
      if bound ≤ acc.length + zeros then none
      else readCounts src bound fuel remaining (List.replicate zeros 0 ++ acc) pos
    else readCounts src bound fuel remaining acc pos

/-- Reads the description of a table with at most `2 ^ limit` states for symbols below `bound`:
the table and the number of bytes of the description, which may not exceed the data. -/
def read? (src : ByteArray) (bound limit : Nat) : Option (Fse × Nat) :=
  let log := forwardBits src 0 4 + minLog
  if src.size = 0 ∨ maxLog < log ∨ limit < log then none
  else
    match readCounts src bound (bound + 1) (2 ^ log + 1) [] 4 with
    | none => none
    | some (counts, pos) =>
      let used := (pos + 7) / 8
      if src.size < used then none else some (ofCounts log counts, used)

end Fse

end ZipContainer.Zstandard
