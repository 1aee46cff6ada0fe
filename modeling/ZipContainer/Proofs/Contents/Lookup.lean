import ZipContainer.Contents

/-!
# Look-ups in tables of contents

The index of a table knows where each path first occurs.  This holds of the table without entries
and every entry that is put at its end keeps it (`indexed_append`), so it holds of every table that
entries were put into (`Indexed.foldl`).  In such a table a look-up finds the first entry with
the path (`Indexed.get?_eq`).
-/

namespace ZipContainer.Contents

variable {t : Contents}

/-- **The invariant of a table**: the index leads from a path to the first entry that has it. -/
def Indexed (t : Contents) : Prop :=
  ∀ path, t.firstAt[path]? = t.toList.findIdx? fun e => e.path == path

theorem indexed_empty : empty.Indexed := by
  intro path
  simp [empty, toList]

/-- The index sees a new path at the end, and keeps the place of one that it knows. -/
theorem indexed_append (h : t.Indexed) (e : Entry) : (t.append e).Indexed := by
  intro path
  rw [toList_append, List.findIdx?_append, ← h path]
  simp only [append]
  rw [Std.HashMap.getElem?_insertIfNew]
  -- An entry under another path changes neither side; under this one it counts only if it is new.
  by_cases hpath : e.path = path
  · subst hpath
    by_cases hknown : e.path ∈ t.firstAt
    · rw [if_neg (fun both => both.2 hknown), Std.HashMap.getElem?_eq_some_getElem hknown]
      rfl
    · rw [if_pos ⟨beq_self_eq_true _, hknown⟩, Std.HashMap.getElem?_eq_none hknown]
      simp [toList]
  · have other : (e.path == path) = false := by simpa using hpath
    rw [if_neg (fun both => hpath (by simpa using both.1))]
    simp [other]

/-- Entries that are put at the end one after the other keep the invariant. -/
theorem Indexed.foldl (h : t.Indexed) (es : List Entry) : (es.foldl append t).Indexed := by
  induction es generalizing t with
  | nil => exact h
  | cons e es ih => exact ih (indexed_append h e)

theorem indexed_ofList (es : List Entry) : (ofList es).Indexed :=
  indexed_empty.foldl es

theorem findIdx?_bind_getElem? (es : List Entry) (p : Entry → Bool) :
    (es.findIdx? p).bind (es[·]?) = es.find? p := by
  induction es with
  | nil => rfl
  | cons e es ih =>
      rw [List.findIdx?_cons, List.find?_cons]
      cases p e with
      | true => rfl
      | false =>
          rw [← ih, if_neg Bool.false_ne_true, Option.bind_map]
          rfl

/-- **A look-up finds the first entry with the path.** -/
theorem Indexed.get?_eq (h : t.Indexed) (path : Text) :
    t.get? path = t.toList.find? fun e => e.path == path := by
  rw [get?, h path, ← findIdx?_bind_getElem?]
  simp [toList]

/-- **A table contains the paths of its entries**, and no others. -/
theorem Indexed.contains_iff (h : t.Indexed) (path : Text) :
    t.contains path = true ↔ path ∈ t.paths := by
  rw [contains, Std.HashMap.contains_eq_isSome_getElem?, h path, List.findIdx?_isSome,
    List.any_eq_true, paths, List.mem_map]
  simp only [beq_iff_eq]

end ZipContainer.Contents
