import ZipContainer.Deflate.Alphabet

/-!
# Decoding of deflate streams

A deflate stream is a sequence of blocks: stored bytes, or symbols under fixed or stated prefix
codes, each symbol a byte, a copy of earlier output, or the end of the block. Decoding works on
the data that have arrived so far and has a budget for its output; it goes on while the output
does not exceed the budget, so that a symbol which needs no room is still seen when the output is
exactly full. A copy may overshoot the budget; the caller takes only as much as it asked for.

Every step consumes at least one bit, which bounds the number of steps.
-/

namespace ZipContainer.Deflate

/-- What a block is made of. -/
inductive Block where
  /-- Between blocks: a header comes next. -/
  | none
  /-- Stored bytes, of which so many are left. -/
  | stored (left : Nat)
  | coded (codes : Codes)

/-- Where decoding stands: the next bit, the output, the block that is open, and whether it is
the last one. -/
structure State where
  pos : Nat
  out : ByteArray
  block : Block
  isLast : Bool

/-- The state before the first bit. -/
def State.start : State := ⟨0, ByteArray.empty, .none, false⟩

/-- One step leads to a further state, or decoding stops. -/
inductive Progress where
  | next (s : State)
  | stop (s : State) (why : Stop)

/-- Appends `n` bytes, each a copy of the byte `distance` places back. -/
def copyBack (distance : Nat) : Nat → ByteArray → ByteArray
  | 0, out => out
  | n + 1, out => copyBack distance n (out.push (out[out.size - distance]?.getD 0))

/-- Closes the open block. -/
def closeBlock (s : State) : Progress :=
  if s.isLast then .stop { s with block := .none } .ended
  else .next { s with block := .none }

/-- Reads the number of a symbol's extra bits: base plus bits, and the position after them. -/
def readExtra (src : ByteArray) (pos : Nat) (entry : Nat × Nat) : Except Stop (Nat × Nat) :=
  match bits? src pos entry.2 with
  | some e => .ok (entry.1 + e, pos + entry.2)
  | none => .error .starved

/-- One item of a coded block. -/
inductive Item where
  | literal (b : UInt8)
  | copy (length distance : Nat)
  | endOfBlock
  deriving DecidableEq, Repr

/-- Reads one item: the item and the position after it. -/
def readItem (src : ByteArray) (pos : Nat) (codes : Codes) : Except Stop (Item × Nat) := do
  let (symbol, pos) ← codes.literal.walk src pos
  if symbol < endSymbol then
    return (.literal (UInt8.ofNat symbol), pos)
  else if symbol = endSymbol then
    return (.endOfBlock, pos)
  else
    match lengthTable[symbol - firstLength]? with
    | none => throw .corrupt
    | some entry =>
      let (length, pos) ← readExtra src pos entry
      let (symbol, pos) ← codes.distance.walk src pos
      match distanceTable[symbol]? with
      | none => throw .corrupt
      | some entry =>
        let (distance, pos) ← readExtra src pos entry
        return (.copy length distance, pos)

/-- Puts an item into effect. A copy from before the output is noticed only while there is room
for it. -/
def applyItem (budget : Nat) (s : State) (item : Item) (pos : Nat) : Progress :=
  match item with
  | .literal b => .next { s with pos := pos, out := s.out.push b }
  | .endOfBlock => closeBlock { s with pos := pos }
  | .copy length distance =>
    if distance ≤ s.out.size then
      .next { s with pos := pos, out := copyBack distance length s.out }
    else .stop { s with pos := pos } (if budget ≤ s.out.size then .full else .corrupt)

/-- Reads `n` numbers of three bits each. -/
def readTriples (src : ByteArray) : Nat → Nat → Option (List Nat)
  | 0, _ => some []
  | n + 1, pos =>
    match bits? src pos 3, readTriples src n (pos + 3) with
    | some v, some r => some (v :: r)
    | _, _ => none

/-- How a symbol of the code for code lengths repeats: how many bits state the count, the least
count, and whether the length before it is repeated rather than zero. -/
def repeatRule : Nat → Nat × Nat × Bool
  | 16 => (2, 3, true)
  | 17 => (3, 3, false)
  | _ => (7, 11, false)

/-- Reads code lengths until there are `total`; `acc` holds those so far, the last one first. -/
def readLengths (src : ByteArray) (tree : PrefixTree) (total : Nat) :
    Nat → Nat → List Nat → Except Stop (List Nat × Nat)
  | 0, pos, acc => .ok (acc.reverse, pos)
  | fuel + 1, pos, acc =>
    if total ≤ acc.length then .ok (acc.reverse, pos)
    else do
      let (symbol, pos) ← tree.walk src pos
      if symbol < 16 then readLengths src tree total fuel pos (symbol :: acc)
      else
        let (width, least, again) := repeatRule symbol
        match bits? src pos width with
        | none => throw .starved
        | some e =>
          let pos := pos + width
          let count := least + e
          match again, acc with
          | true, [] => throw .corrupt
          | _, _ =>
            let length := if again then acc.headD 0 else 0
            if total < acc.length + count then throw .corrupt
            else readLengths src tree total fuel pos (List.replicate count length ++ acc)

/-- The lengths fill the code space, or are a single code of one bit. -/
def acceptable (lengths : List Nat) : Bool :=
  let used := PrefixTree.occupied lengths
  used = PrefixTree.space || (used < PrefixTree.space && lengths.all (· ≤ 1))

/-- The code for code lengths, from its own lengths in the order in which they are stated. It
has to be complete, unless there is no code at all: then every bit reads as the length zero. -/
def lengthCode (stated : List Nat) : Except Stop PrefixTree :=
  let lengths := (List.range 19).map fun s => (stated[lengthOrder.idxOf s]?).getD 0
  let used := PrefixTree.occupied lengths
  if used = 0 then .ok (.node (.leaf 0) (.leaf 0))
  else if used = PrefixTree.space then .ok (PrefixTree.canonical lengths)
  else .error .corrupt

/-- Reads the codes that a block states. -/
def readCodes (src : ByteArray) (pos : Nat) : Except Stop (Codes × Nat) := do
  match bits? src pos 5, bits? src (pos + 5) 5, bits? src (pos + 10) 4 with
  | some l, some d, some c =>
    let literals := l + 257
    let distances := d + 1
    if 286 < literals || 30 < distances then throw .corrupt
    let pos := pos + 14
    match readTriples src (c + 4) pos with
    | none => throw .starved
    | some stated =>
      let tree ← lengthCode stated
      let total := literals + distances
      let (lengths, pos) ← readLengths src tree total total (pos + 3 * (c + 4)) []
      let literalLengths := lengths.take literals
      let distanceLengths := lengths.drop literals
      if literalLengths[endSymbol]?.getD 0 = 0 then throw .corrupt
      if !acceptable literalLengths || !acceptable distanceLengths then throw .corrupt
      return (⟨PrefixTree.canonical literalLengths, PrefixTree.canonical distanceLengths⟩, pos)
  | _, _, _ => throw .starved

/-- The next byte boundary at or after a bit position. -/
def alignUp (pos : Nat) : Nat := (pos + 7) / 8 * 8

/-- Opens the block whose header begins at the next bit. -/
def openBlock (src : ByteArray) (s : State) : Progress :=
  match bits? src s.pos 1, bits? src (s.pos + 1) 2 with
  | some last, some kind =>
    let pos := s.pos + 3
    let s := { s with isLast := last = 1 }
    match kind with
    | 0 =>
      let start := alignUp pos
      match bits? src start 16, bits? src (start + 16) 16 with
      | some len, some check =>
        if len + check ≠ 0xFFFF then .stop s .corrupt
        else
          let s := { s with pos := start + 32 }
          if len = 0 then closeBlock s else .next { s with block := .stored len }
      | _, _ => .stop s .starved
    | 1 => .next { s with pos := pos, block := .coded fixedCodes }
    | 2 =>
      match readCodes src pos with
      | .ok (codes, pos) => .next { s with pos := pos, block := .coded codes }
      | .error why => .stop s why
    | _ => .stop s .corrupt
  | _, _ => .stop s .starved

/-- Copies one stored byte, if there is room for it. -/
def copyStored (src : ByteArray) (budget : Nat) (s : State) (left : Nat) : Progress :=
  if budget ≤ s.out.size then .stop s .full
  else if h : s.pos / 8 < src.size then
    let b := src[s.pos / 8]
    let s := { s with pos := s.pos + 8, out := s.out.push b }
    if left ≤ 1 then closeBlock s else .next { s with block := .stored (left - 1) }
  else .stop s .starved

/-- One step of decoding. -/
def step (src : ByteArray) (budget : Nat) (s : State) : Progress :=
  match s.block with
  | .none => openBlock src s
  | .stored left => copyStored src budget s left
  | .coded codes =>
    match readItem src s.pos codes with
    | .ok (item, pos) => applyItem budget s item pos
    | .error why => .stop s why

/-- Steps until decoding stops or the output exceeds the budget. -/
def run (src : ByteArray) (budget : Nat) : Nat → State → State × Stop
  | 0, s => (s, .starved)
  | fuel + 1, s =>
    if budget < s.out.size then (s, .full)
    else match step src budget s with
      | .next s => run src budget fuel s
      | .stop s why => (s, why)

/-- Decodes the data that have arrived, for as long as the output does not exceed the budget. -/
def inflate (src : ByteArray) (budget : Nat) : Unpacked :=
  let (s, why) := run src budget (8 * src.size + 1) .start
  ⟨s.out, (s.pos + 7) / 8, why⟩

end ZipContainer.Deflate
