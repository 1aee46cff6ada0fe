import ZipContainer.Proofs.EntryPath.Resolving

/-!
# Joining paths

Two accepted paths with a separator between them make an accepted path, and its canonical form is the
join of theirs (`normalize_join`).

The separator cuts the segments of the one from those of the other (`segments_join`), and what the
second resolves to by itself is what it puts on top of the names of the first (`resolve_append`): none
of its `..` reaches down to them.  Whether a path is absolute shows in its first two characters, and a
separator behind the first path does not make it so (`isAbsolute_join`).
-/

namespace ZipContainer.EntryPath

variable {c : Point} {cs ds : List Point}

theorem segments_join (hc : isSeparator c = true) (cs ds : List Point) :
    segments (cs ++ c :: ds) = segments cs ++ segments ds := by
  rw [segments, Text.pieces_append_cons hc, List.filter_append]
  rfl

/-- Nothing that follows a separator behind a path makes the path absolute. -/
theorem isAbsolute_join (hc : isSeparator c = true) (hne : cs ≠ []) (ds : List Point) :
    isAbsolute (cs ++ c :: ds) = isAbsolute cs := by
  have noColon : c ≠ .colon := by
    rintro rfl
    exact absurd hc (by decide)
  match cs with
  | [] => exact absurd rfl hne
  | [d] => simp [isAbsolute, noColon]
  | d :: e :: cs => rfl

/-- The join of two lists of names is the join of their joins. -/
theorem intercalate_append {names names' : List (List Point)} (hne : names ≠ [])
    (hne' : names' ≠ []) :
    List.intercalate [Point.slash] (names ++ names') =
      List.intercalate [Point.slash] names ++ .slash :: List.intercalate [Point.slash] names' := by
  induction names with
  | nil => exact absurd rfl hne
  | cons s names ih =>
      cases names with
      | nil =>
          obtain ⟨t, names', rfl⟩ := List.exists_cons_of_ne_nil hne'
          rw [List.singleton_append, List.intercalate_cons_cons, List.intercalate_singleton,
            List.append_assoc, List.singleton_append]
      | cons t names =>
          rw [List.cons_append, List.cons_append, List.intercalate_cons_cons,
            ← List.cons_append, ih (List.cons_ne_nil t names), List.intercalate_cons_cons,
            ← List.append_assoc]

/-- **Joining accepted paths.**  With either separator between them they are accepted, and the canonical
form is the join of theirs by `/`. -/
theorem normalize_join {a b qa qb : Text} (hc : c = .slash ∨ c = .backslash) (ha : normalize a = .ok qa)
    (hb : normalize b = .ok qb) :
    normalize (a ++ ⟨[c]⟩ ++ b) = .ok (qa ++ "/" ++ qb) := by
  have separates : isSeparator c = true := by rcases hc with rfl | rfl <;> rfl
  have noNul : c ≠ Point.nul := by rcases hc with rfl | rfl <;> decide
  obtain ⟨hnul, habs, names, hne, hres, rfl⟩ := normalize_eq_ok_iff.mp ha
  obtain ⟨hnul', -, names', hne', hres', rfl⟩ := normalize_eq_ok_iff.mp hb
  have chars : (a ++ ⟨[c]⟩ ++ b).toList = a.toList ++ c :: b.toList := by simp
  have nonempty : a.toList ≠ [] := by
    intro h
    rw [h] at hres
    cases hres
    exact hne rfl
  refine normalize_eq_ok_iff.mpr ⟨?_, ?_, names ++ names', ?_, ?_, ?_⟩
  · rw [chars, List.mem_append, List.mem_cons]
    rintro (h | rfl | h)
    · exact hnul h
    · exact noNul rfl
    · exact hnul' h
  · rw [chars, isAbsolute_join separates nonempty, habs]
  · exact List.append_ne_nil_of_left_ne_nil hne names'
  · rw [chars, segments_join separates]
    exact resolve_append hres hres'
  · have joined : (("/" : Text).toList) = [Point.slash] := by decide
    rw [intercalate_append hne hne', Text.mk.injEq]
    simp [joined]

/-- The `..` at the end of the first path and those of the second stay each in their own path, though
the second begins like a drive once its `.` is dropped. -/
theorem joined_paths_stay_apart :
    normalize ("a\\b/.." ++ ⟨[.backslash]⟩ ++ "./C:/x/../y") = .ok ("a" ++ "/" ++ "C:/y") :=
  normalize_join (.inr rfl)
    (normalize_eq_ok_iff.mpr ⟨by decide +kernel, by decide +kernel, [['a']], by decide,
      by decide +kernel, by decide +kernel⟩)
    (normalize_eq_ok_iff.mpr ⟨by decide +kernel, by decide +kernel, [['C', ':'], ['y']], by decide,
      by decide +kernel, by decide +kernel⟩)

end ZipContainer.EntryPath
