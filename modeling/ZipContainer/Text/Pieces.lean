/-!
# Pieces of a text

A list cut at the items of a class. `flatten_pieces` says that nothing but separators is
lost.
-/

namespace ZipContainer.Text

variable {α : Type}

/-- Puts one item in front of a list of pieces: a separator opens a new piece. -/
def addToPieces (isSeparator : α → Bool) (c : α) (ps : List (List α)) : List (List α) :=
  if isSeparator c then [] :: ps
  else match ps with
    | [] => [[c]]
    | p :: r => (c :: p) :: r

/-- The pieces between the separators: one more than there are separators, some perhaps empty. -/
def pieces (isSeparator : α → Bool) (cs : List α) : List (List α) :=
  cs.foldr (addToPieces isSeparator) [[]]

theorem flatten_addToPieces (isSeparator : α → Bool) (c : α) (ps : List (List α)) :
    (addToPieces isSeparator c ps).flatten =
      if isSeparator c then ps.flatten else c :: ps.flatten := by
  unfold addToPieces
  split
  · simp
  · cases ps <;> simp

theorem flatten_pieces (isSeparator : α → Bool) (cs : List α) :
    (pieces isSeparator cs).flatten = cs.filter (! isSeparator ·) := by
  induction cs with
  | nil => simp [pieces]
  | cons c cs ih =>
    have step : pieces isSeparator (c :: cs) =
      addToPieces isSeparator c (pieces isSeparator cs) := rfl
    rw [step, flatten_addToPieces, ih]
    cases h : isSeparator c <;> simp [h]

end ZipContainer.Text
