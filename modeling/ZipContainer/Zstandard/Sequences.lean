import ZipContainer.Zstandard.Literals

/-!
# The sequences of a block

After its literals a compressed block holds sequences. Each takes some literals and then copies
earlier output. Literal lengths, offsets and match lengths are spelled by three codes, which the
block states or takes over; a symbol is a base plus the number in its extra bits. An offset may
be one of the last three.
-/

namespace ZipContainer.Zstandard

/-- One of the three numbers of a sequence: how its symbols are to be read, the code with the
usual counts, and the greatest log of a table. -/
structure Component where
  /-- Base and number of extra bits of every symbol. -/
  rows : Array (Nat × Nat)
  usual : Fse
  limit : Nat

/-- The rows of numbers that stand for themselves below `plain`, and from there on cover as many
values as their extra bits tell. -/
def rowsFrom (next : Nat) : List Nat → List (Nat × Nat)
  | [] => []
  | bits :: r => (next, bits) :: rowsFrom (next + 2 ^ bits) r

/-- Literal lengths. -/
def literalLength : Component where
  rows := (rowsFrom 0 (List.replicate 16 0 ++
    [1, 1, 1, 1, 2, 2, 3, 3, 4, 6, 7, 8, 9, 10, 11, 12, 13, 14, 15, 16])).toArray
  usual := Fse.ofCounts 6 [4, 3, 2, 2, 2, 2, 2, 2, 2, 2, 2, 2, 2, 1, 1, 1, 2, 2, 2, 2, 2, 2, 2, 2,
    2, 3, 2, 1, 1, 1, 1, 1, -1, -1, -1, -1]
  limit := 9

/-- Match lengths. -/
def matchLength : Component where
  rows := (rowsFrom 3 (List.replicate 32 0 ++
    [1, 1, 1, 1, 2, 2, 3, 3, 4, 4, 5, 7, 8, 9, 10, 11, 12, 13, 14, 15, 16])).toArray
  usual := Fse.ofCounts 6 [1, 4, 3, 2, 2, 2, 2, 2, 2, 1, 1, 1, 1, 1, 1, 1, 1, 1, 1, 1, 1, 1, 1, 1,
    1, 1, 1, 1, 1, 1, 1, 1, 1, 1, 1, 1, 1, 1, 1, 1, 1, 1, 1, 1, 1, 1, -1, -1, -1, -1, -1, -1, -1]
  limit := 9

/-- Offsets; the values up to three stand for recent offsets. -/
def offsetValue : Component where
  rows := ((List.range 32).map fun n => (2 ^ n, n)).toArray
  usual := Fse.ofCounts 5 [1, 1, 1, 1, 1, 1, 2, 2, 2, 1, 1, 1, 1, 1, 1, 1, 1, 1, 1, 1, 1, 1, 1, 1,
    -1, -1, -1, -1, -1]
  limit := 8

/-- The codes of the three numbers. -/
structure Codes where
  literal : Fse
  offset : Fse
  length : Fse

/-- The last three offsets. -/
structure Recent where
  first : Nat
  second : Nat
  third : Nat

/-- The offsets that count as recent at the start of a frame. -/
def Recent.start : Recent := ⟨1, 4, 8⟩

/-- The offset that a value stands for, and the recent offsets after it. Where no literal comes
before the copy, the values up to three stand for the offsets one further on, the last of them
for the first offset less one. -/
def Recent.use (r : Recent) (value : Nat) (noLiterals : Bool) : Option (Nat × Recent) :=
  if 3 < value then some (value - 3, ⟨value - 3, r.first, r.second⟩)
  else
    match value + noLiterals.toNat with
    | 1 => some (r.first, r)
    | 2 => some (r.second, ⟨r.second, r.first, r.third⟩)
    | 3 => some (r.third, ⟨r.third, r.first, r.second⟩)
    | _ => if r.first ≤ 1 then none else some (r.first - 1, ⟨r.first - 1, r.first, r.second⟩)

/-- Reads how a component is coded: the usual way, by a single symbol, by a stated code or by the
code before it. Returns the code and the position after its description. -/
def readCode (src : ByteArray) (kind pos : Nat) (c : Component) (before : Option Fse) :
    Option (Fse × Nat) :=
  match kind with
  | 0 => some (c.usual, pos)
  | 1 =>
    match src[pos]? with
    | none => none
    | some b => if c.rows.size ≤ b.toNat then none else some (Fse.single b.toNat, pos + 1)
  | 2 =>
    (Fse.read? (src.extract pos src.size) c.rows.size c.limit).map fun (t, n) => (t, pos + n)
  | _ => before.map fun t => (t, pos)

/-- Reads the number of sequences: the number and the bytes it takes. -/
def readCount (src : ByteArray) : Option (Nat × Nat) :=
  match src[0]? with
  | none => none
  | some b =>
    let b := b.toNat
    if b < 128 then some (b, 1)
    else if b < 255 then
      match src[1]? with
      | none => none
      | some c => some ((b - 128) * 256 + c.toNat, 2)
    else if src.size < 3 then none
    else some (forwardBits src 8 16 + 0x7F00, 3)

/-- What executing sequences works on: the output of the frame, the literals that are left, and
the recent offsets. -/
structure Execution where
  out : ByteArray
  literals : ByteArray
  taken : Nat
  recent : Recent

/-- Appends `n` bytes, each a copy of the one `offset` places back. -/
def copyBack (offset : Nat) : Nat → ByteArray → ByteArray
  | 0, out => out
  | n + 1, out => copyBack offset n (out.push (out[out.size - offset]?.getD 0))

/-- Executes one sequence; the output may not exceed `limit`. -/
def Execution.run (e : Execution) (limit literal offset length : Nat) : Option Execution :=
  let taken := e.taken + literal
  if limit < e.out.size + literal + length ∨ e.literals.size < taken ∨
      e.out.size + literal < offset ∨ offset = 0 then none
  else
    some { e with
      out := copyBack offset length (e.out ++ e.literals.extract e.taken taken), taken := taken }

/-- The states of the three codes. -/
structure States where
  literal : Nat
  offset : Nat
  length : Nat

/-- Reads and executes `n` sequences. The states are not left after the last one. -/
def runSequences (codes : Codes) (limit : Nat) :
    Nat → States → Backward → Execution → Option (Execution × Backward)
  | 0, _, s, e => some (e, s)
  | n + 1, st, s, e =>
    let row (c : Component) (t : Fse) (state : Nat) : Nat × Nat :=
      c.rows[(t.cell state).symbol]?.getD (0, 0)
    let (literalBase, literalBits) := row literalLength codes.literal st.literal
    let (offsetBase, offsetBits) := row offsetValue codes.offset st.offset
    let (lengthBase, lengthBits) := row matchLength codes.length st.length
    let (offsetExtra, s) := s.read offsetBits
    let (lengthExtra, s) := s.read lengthBits
    let (literalExtra, s) := s.read literalBits
    match e.recent.use (offsetBase + offsetExtra) (literalBase = 0) with
    | none => none
    | some (offset, recent) =>
      match { e with recent := recent }.run limit (literalBase + literalExtra) offset
          (lengthBase + lengthExtra) with
      | none => none
      | some e =>
        if n = 0 then some (e, s)
        else
          let (literal, s) := codes.literal.next st.literal s
          let (length, s) := codes.length.next st.length s
          let (offset, s) := codes.offset.next st.offset s
          runSequences codes limit n ⟨literal, offset, length⟩ s e

/-- Reads and executes the sequences in `src`, with the codes in force before them. The output
may not exceed `limit`. Returns the output with the literals that are left at its end, the recent
offsets and the codes in force afterwards. -/
def decodeSequences (src : ByteArray) (before : Option Codes) (limit : Nat) (e : Execution) :
    Option (ByteArray × Recent × Option Codes) := do
  let (count, used) ← readCount src
  let (e, codes) ←
    if count = 0 then
      if used = src.size then pure (e, before) else none
    else do
      let kinds := (← src[used]?).toNat
      if kinds % 4 ≠ 0 then none
      let pos := used + 1
      let (literal, pos) ←
        readCode src (kinds / 64) pos literalLength (before.map Codes.literal)
      let (offset, pos) ←
        readCode src (kinds / 16 % 4) pos offsetValue (before.map Codes.offset)
      let (length, pos) ←
        readCode src (kinds / 4 % 4) pos matchLength (before.map Codes.length)
      let codes : Codes := ⟨literal, offset, length⟩
      let s ← Backward.start? (src.extract pos src.size)
      let (l, s) := literal.start s
      let (o, s) := offset.start s
      let (m, s) := length.start s
      let (e, s) ← runSequences codes limit count ⟨l, o, m⟩ s e
      if !s.isComplete then none
      pure (e, some codes)
  let rest := e.literals.extract e.taken e.literals.size
  if limit < e.out.size + rest.size then none
  return (e.out ++ rest, e.recent, codes)

end ZipContainer.Zstandard
