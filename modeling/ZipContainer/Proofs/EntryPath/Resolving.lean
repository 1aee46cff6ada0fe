import ZipContainer.Proofs.EntryPath.Canonical

/-!
# What is left of segments

Resolving segments takes them onto a stack one after the other.  What comes of it can be said of the
segments alone, read from their end: how many names they take away that stand before them (`demand`),
and which of their own names nothing after them takes away (`remaining`).

* `foldlM_enter`: resolving on top of a stack takes as many names off it as are demanded, if there are
  so many, and puts what remains on top.
* `resolve_eq`: from nothing, only segments that demand nothing can be resolved.
* `resolve_append`: what can be resolved by itself is resolved on top of anything in the same way.
-/

namespace ZipContainer.EntryPath

/-- How many names that stand before the segments these take away. -/
def demand : List (List Point) → Nat
  | [] => 0
  | s :: segs => if s = up then demand segs + 1 else demand segs - 1

/-- The names among the segments that no later segment takes away. -/
def remaining : List (List Point) → List (List Point)
  | [] => []
  | s :: segs => if s ≠ up ∧ demand segs = 0 then s :: remaining segs else remaining segs

variable {s : List Point} {segs segs' : List (List Point)}

@[simp] theorem demand_nil : demand [] = 0 := rfl

@[simp] theorem demand_up (segs : List (List Point)) : demand (up :: segs) = demand segs + 1 :=
  if_pos rfl

theorem demand_name (hs : s ≠ up) (segs : List (List Point)) :
    demand (s :: segs) = demand segs - 1 := if_neg hs

@[simp] theorem remaining_nil : remaining [] = [] := rfl

@[simp] theorem remaining_up (segs : List (List Point)) :
    remaining (up :: segs) = remaining segs := if_neg fun h => h.1 rfl

theorem remaining_kept (hs : s ≠ up) (h : demand segs = 0) :
    remaining (s :: segs) = s :: remaining segs := if_pos ⟨hs, h⟩

theorem remaining_taken (h : demand segs ≠ 0) (s : List Point) :
    remaining (s :: segs) = remaining segs := if_neg fun hs => h hs.2

/-! ### Resolving -/

theorem enter_up_nil : enter [] up = none := rfl

theorem enter_up_cons (top : List Point) (stack : List (List Point)) :
    enter (top :: stack) up = some stack := rfl

theorem enter_name (hs : s ≠ up) (stack : List (List Point)) : enter stack s = some (s :: stack) :=
  if_neg hs

/-- **All that resolving does to a stack.**  It takes off what is demanded and puts what remains on
top; it fails if the stack holds less. -/
theorem foldlM_enter (segs stack : List (List Point)) :
    segs.foldlM enter stack =
      if demand segs ≤ stack.length then
        some ((remaining segs).reverse ++ stack.drop (demand segs))
      else none := by
  induction segs generalizing stack with
  | nil => simp
  | cons s segs ih =>
      rw [List.foldlM_cons]
      by_cases hs : s = up
      · subst hs
        cases stack with
        | nil => simp [enter_up_nil]
        | cons top stack => simp [enter_up_cons, ih]
      · rw [enter_name hs, Option.bind_eq_bind, Option.bind_some, ih, demand_name hs]
        cases hd : demand segs with
        | zero => simp [remaining_kept hs hd]
        | succ n => simp [remaining_taken (s := s) (by rw [hd]; exact n.succ_ne_zero)]

theorem resolve_eq (segs : List (List Point)) :
    resolve segs = if demand segs = 0 then some (remaining segs) else none := by
  simp only [resolve, foldlM_enter, List.length_nil, Nat.le_zero]
  split <;> simp

theorem resolve_eq_some_iff {names : List (List Point)} :
    resolve segs = some names ↔ demand segs = 0 ∧ remaining segs = names := by
  rw [resolve_eq]
  split <;> simp [*]

/-- **Segments that can be resolved by themselves leave alone what stands before them.** -/
theorem resolve_append {names names' : List (List Point)} (h : resolve segs = some names)
    (h' : resolve segs' = some names') : resolve (segs ++ segs') = some (names ++ names') := by
  obtain ⟨stack, hstack, rfl⟩ := Option.map_eq_some_iff.mp h
  obtain ⟨closed, rfl⟩ := resolve_eq_some_iff.mp h'
  rw [resolve, List.foldlM_append, hstack, Option.bind_eq_bind, Option.bind_some, foldlM_enter,
    closed]
  simp

end ZipContainer.EntryPath
