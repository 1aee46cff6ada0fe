import ZipContainer.Deflate.Inflate

/-!
# Factors of a byte string

A byte string as a sequence of items: bytes, and copies of what stands before them. Copies are
found through a table that remembers where three bytes were last seen. The table is only a
guess: a copy is taken over just as many bytes as were compared and found equal, so the items
spell the byte string whatever the table says.
-/

namespace ZipContainer.Deflate

/-- The least and the greatest length of a copy, and its greatest distance. -/
def minCopy : Nat := 3
@[inherit_doc minCopy] def maxCopy : Nat := 258
@[inherit_doc minCopy] def maxDistance : Nat := 32768

/-- How many of the next `n` bytes at `i` and at `j` are equal before the first that differ. -/
def agreement (data : ByteArray) (i j : Nat) : Nat → Nat
  | 0 => 0
  | n + 1 =>
    match data[i]?, data[j]? with
    | some a, some b => if a = b then 1 + agreement data (i + 1) (j + 1) n else 0
    | _, _ => 0

/-- The number of places in the table of guesses. -/
def guessSize : Nat := 4096

/-- The place of the three bytes at a position. -/
def guessKey (data : ByteArray) (i : Nat) : Nat :=
  let off (k : Nat) : Nat := (data[i + k]?.getD 0).toNat
  (off 0 + 31 * off 1 + 997 * off 2) % guessSize

/-- The item to take at a position, given a guess where its bytes were seen before. The guess
counts positions from one, and zero stands for none. -/
def factorAt (data : ByteArray) (i : Nat) (h : i < data.size) (guess : Nat) : Item :=
  let source := guess - 1
  if 0 < guess ∧ source < i ∧ i - source ≤ maxDistance then
    let n := agreement data i source maxCopy
    if minCopy ≤ n then .copy n (i - source) else .literal data[i]
  else .literal data[i]

/-- How many bytes an item spells. -/
def Item.width : Item → Nat
  | .literal _ => 1
  | .copy length _ => length
  | .endOfBlock => 0

/-- The items from a position on, in front of those before it, the last one first. -/
def factorFrom (data : ByteArray) : Nat → Nat → Array Nat → List Item → List Item
  | 0, _, _, acc => acc
  | fuel + 1, i, guesses, acc =>
    if h : i < data.size then
      let key := guessKey data i
      let item := factorAt data i h (guesses[key]?.getD 0)
      factorFrom data fuel (i + item.width) (guesses.setIfInBounds key (i + 1)) (item :: acc)
    else acc

/-- The items of a byte string. -/
def factor (data : ByteArray) : List Item :=
  (factorFrom data data.size 0 (Array.replicate guessSize 0) []).reverse

end ZipContainer.Deflate
