import ZipContainer.Bzip2.Huffman
import ZipContainer.Bzip2.Randomisation

/-!
# Blocks of bzip2 streams

A block states the bytes that occur in it, the codes of its symbol groups and which group of
fifty symbols uses which code. The symbols spell the last column of the sorted rotations of the
block, as positions in a list of recently used bytes, with runs of the first position counted in
a base-two notation with the digits one and two. The rotations are undone from the stated row,
and at last runs of four equal bytes are lengthened by the number in the byte after them.
-/

namespace ZipContainer.Bzip2

/-- The number of bytes in a block of a stream of level one. -/
def blockUnit : Nat := 100000

/-- The number of symbols that share a code. -/
def groupSize : Nat := 50

/-- The number of groups that the list of selectors can hold; further selectors are dropped. -/
def maxSelectors : Nat := 18002

/-- Reads the positions of the set bits among sixteen. -/
def readSet16 (src : ByteArray) : Reader (List Nat) := fun pos => do
  let (word, pos) ← readBits src 16 0 pos
  return ((List.range 16).filter fun i => word.testBit (15 - i), pos)

/-- Reads the bytes that occur: for each row of sixteen that is not empty, which of them. -/
def readRows (src : ByteArray) : List Nat → Reader (List Nat)
  | [], pos => .ok ([], pos)
  | row :: rows, pos => do
    let (columns, pos) ← readSet16 src pos
    let (rest, pos) ← readRows src rows pos
    return (columns.map (16 * row + ·) ++ rest, pos)

/-- Reads a number in unary notation that has to stay below `bound`. -/
def readUnary (src : ByteArray) (bound : Nat) : Nat → Nat → Reader Nat
  | 0, _, _ => .error .corrupt
  | fuel + 1, n, pos =>
    match bit? src pos with
    | none => .error .starved
    | some false => .ok (n, pos + 1)
    | some true =>
      if bound ≤ n + 1 then .error .corrupt else readUnary src bound fuel (n + 1) (pos + 1)

/-- Takes the element at an index to the front. -/
def moveToFront {α : Type} (xs : List α) (i : Nat) : List α :=
  match xs[i]? with
  | none => xs
  | some x => x :: xs.eraseIdx i

/-- Reads `n` selectors, each as a position in the list of recently used codes. Those beyond
the room for selectors are read and dropped. -/
def readSelectors (src : ByteArray) (groups : Nat) : Nat → List Nat → List Nat → Reader (List Nat)
  | 0, _, acc, pos => .ok (acc.reverse.take maxSelectors, pos)
  | n + 1, recent, acc, pos => do
    let (i, pos) ← readUnary src groups (groups + 1) 0 pos
    let recent := moveToFront recent i
    readSelectors src groups n recent (recent.headD 0 :: acc) pos

/-- Reads a code length that differs from the one before it by steps of one. -/
def readLength (src : ByteArray) : Nat → Nat → Reader Nat
  | 0, _, _ => .error .starved
  | fuel + 1, len, pos =>
    if len < 1 || maxCodeLength < len then .error .corrupt
    else
      match bit? src pos with
      | none => .error .starved
      | some false => .ok (len, pos + 1)
      | some true =>
        match bit? src (pos + 1) with
        | none => .error .starved
        | some down => readLength src fuel (if down then len - 1 else len + 1) (pos + 2)

/-- Reads the code lengths of `n` symbols, each beginning at the one before it. -/
def readLengths (src : ByteArray) : Nat → Nat → Reader (List Nat)
  | 0, _, pos => .ok ([], pos)
  | n + 1, len, pos => do
    let (len, pos) ← readLength src (8 * src.size + 1) len pos
    let (rest, pos) ← readLengths src n len pos
    return (len :: rest, pos)

/-- Reads the codes of `n` groups over an alphabet of the given size. -/
def readCodes (src : ByteArray) (alphabet : Nat) : Nat → Reader (List Code)
  | 0, pos => .ok ([], pos)
  | n + 1, pos => do
    let (len, pos) ← readBits src 5 0 pos
    let (lengths, pos) ← readLengths src alphabet len pos
    let (rest, pos) ← readCodes src alphabet n pos
    return (Code.ofLengths lengths :: rest, pos)

/-- What stands before the symbols of a block. -/
structure Header where
  crc : Nat
  randomised : Bool
  /-- The row of the sorted rotations that is the block itself. -/
  row : Nat
  /-- The bytes that occur, in ascending order. -/
  alphabet : List Nat
  codes : Array Code
  selectors : List Nat

/-- Reads the header of a block of at most `limit` bytes, after the mark that opens it. -/
def readHeader (src : ByteArray) (limit : Nat) : Reader Header := fun pos => do
  let (crc, pos) ← readBits src 32 0 pos
  let (randomised, pos) ← readBits src 1 0 pos
  let (row, pos) ← readBits src 24 0 pos
  if limit + 10 < row then throw .corrupt
  let (rows, pos) ← readSet16 src pos
  let (alphabet, pos) ← readRows src rows pos
  if alphabet.isEmpty then throw .corrupt
  let (groups, pos) ← readBits src 3 0 pos
  if groups < 2 || 6 < groups then throw .corrupt
  let (count, pos) ← readBits src 15 0 pos
  if count < 1 then throw .corrupt
  let (selectors, pos) ← readSelectors src groups count (List.range groups) [] pos
  let (codes, pos) ← readCodes src (alphabet.length + 2) groups pos
  return (⟨crc, randomised = 1, row, alphabet, codes.toArray, selectors⟩, pos)

/-- Where the reading of symbols stands: the selectors of the groups to come, what is left of
the open group and its code, the recently used bytes, the column so far, and the run that is
open, as its length and the weight of its next digit. -/
structure Symbols where
  selectors : List Nat
  left : Nat
  code : Code
  recent : List Nat
  column : Array UInt8
  run : Nat
  weight : Nat

/-- The greatest weight of a digit of a run length. -/
def maxWeight : Nat := 2 * 1024 * 1024

/-- Opens the next group where the open one has no symbol left. -/
def Symbols.openGroup (s : Symbols) (codes : Array Code) : Except Stop Symbols :=
  if s.left = 0 then
    match s.selectors with
    | [] => .error .corrupt
    | g :: rest =>
      .ok { s with selectors := rest, left := groupSize, code := codes[g]?.getD s.code }
  else .ok s

/-- Closes the open run: so many times the most recently used byte. -/
def Symbols.closeRun (s : Symbols) (limit : Nat) : Except Stop Symbols :=
  if s.run = 0 then .ok s
  else if limit < s.column.size + s.run then .error .corrupt
  else
    let b := UInt8.ofNat (s.recent.headD 0)
    .ok { s with column := s.run.fold (fun _ _ c => c.push b) s.column, run := 0, weight := 1 }

/-- Reads the symbols of a block up to the one that ends it: the column, and the position after
the last symbol. -/
def readColumn (src : ByteArray) (codes : Array Code) (limit ending : Nat) :
    Nat → Symbols → Reader (Array UInt8)
  | 0, _, _ => .error .starved
  | fuel + 1, s, pos => do
    let s ← s.openGroup codes
    let (symbol, pos) ← s.code.read src pos
    let s := { s with left := s.left - 1 }
    if symbol ≤ 1 then
      if maxWeight ≤ s.weight then throw .corrupt
      readColumn src codes limit ending fuel
        { s with run := s.run + (symbol + 1) * s.weight, weight := 2 * s.weight } pos
    else
      let s ← s.closeRun limit
      if symbol = ending then return (s.column, pos)
      if limit ≤ s.column.size then throw .corrupt
      let recent := moveToFront s.recent (symbol - 1)
      readColumn src codes limit ending fuel
        { s with recent := recent, column := s.column.push (UInt8.ofNat (recent.headD 0)) } pos

/-- For every byte, how many bytes of the column are smaller. -/
def rankStarts (column : Array UInt8) : Array Nat :=
  let counts := column.foldl (fun c b => c.modify b.toNat (· + 1)) (Array.replicate 256 0)
  (counts.foldl (fun (starts, sum) n => (starts.push sum, sum + n))
    ((Array.emptyWithCapacity 256 : Array Nat), 0)).1

/-- For every row of the sorted rotations, the row of the rotation that begins one byte later. -/
def successors (column : Array UInt8) : Array Nat :=
  (column.size.fold (fun i h (next, starts) =>
      let b := column[i].toNat
      (next.setIfInBounds (starts[b]?.getD 0) i, starts.modify b (· + 1)))
    (Array.replicate column.size 0, rankStarts column)).1

/-- Follows `n` rows from a given one and appends their bytes. -/
def follow (column : Array UInt8) (next : Array Nat) : Nat → Nat → Array UInt8 → Array UInt8
  | 0, _, acc => acc
  | n + 1, row, acc =>
    follow column next n (next[row]?.getD 0) (acc.push (column[row]?.getD 0))

/-- Undoes the sorting of the rotations. -/
def unsort (column : Array UInt8) (row : Nat) : Array UInt8 :=
  let next := successors column
  follow column next column.size (next[row]?.getD 0) (Array.emptyWithCapacity column.size)

/-- The lengthening of runs: the output, the byte that the last bytes are equal to, and how many
they are. -/
structure Runs where
  out : ByteArray
  last : UInt8
  count : Nat

/-- The number of equal bytes after which a run length follows. -/
def runMark : Nat := 4

/-- Takes one byte of a block. -/
def Runs.take (r : Runs) (b : UInt8) : Runs :=
  if r.count = runMark then
    ⟨b.toNat.fold (fun _ _ o => o.push r.last) r.out, r.last, 0⟩
  else if 0 < r.count && r.last = b then ⟨r.out.push b, b, r.count + 1⟩
  else ⟨r.out.push b, b, 1⟩

/-- Lengthens the runs of a block; it may not end where a run length is due. -/
def lengthenRuns (block : Array UInt8) : Except Stop ByteArray :=
  let r := block.foldl Runs.take ⟨ByteArray.empty, 0, 0⟩
  if r.count = runMark then .error .corrupt else .ok r.out

/-- Reads a block of at most `limit` bytes, after the mark that opens it: its checksum as stated
and its bytes. -/
def readBlock (src : ByteArray) (limit : Nat) : Reader (Nat × ByteArray) := fun pos => do
  let (h, pos) ← readHeader src limit pos
  let start : Symbols :=
    { selectors := h.selectors, left := 0, code := h.codes[0]?.getD (Code.ofLengths []),
      recent := h.alphabet, column := #[], run := 0, weight := 1 }
  let (column, pos) ← readColumn src h.codes limit (h.alphabet.length + 1)
    (8 * src.size + 1) start pos
  if column.size ≤ h.row then throw .corrupt
  let sorted := unsort column h.row
  let out ← lengthenRuns (if h.randomised then derandomise sorted else sorted)
  return ((h.crc, out), pos)

end ZipContainer.Bzip2
