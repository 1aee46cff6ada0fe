import ZipContainer.Proofs.Draft.Life
import ZipContainer.Proofs.EntryPath.Canonical
import ZipContainer.Proofs.Zip.Names
import ZipContainer.Zstandard.Frame

/-!
# The paths of a draft

Every path that a draft lists is a canonical form.  It can be normalised once more, and then stays
as it is, unless it begins with a drive letter and a colon (`canonical_paths_settle`).
-/

namespace ZipContainer

namespace EntryPath

theorem Argument.normalize_eq_ok {a : Argument} {q : Text} (h : a.normalize = .ok q) :
    ∃ p, a = .text p ∧ EntryPath.normalize p = .ok q := by
  cases a with
  | text p => exact ⟨p, rfl, h⟩
  | other shown => cases h

/-- Whether a canonical path is safe, and settled, is a matter of its first two characters. -/
theorem isSafe_iff_of_isCanonical {q : Text} (h : IsCanonical q.toList) :
    ((Argument.text q).isSafe = true ↔ beginsWithDrive q.toList = false) ∧
      (normalize q = .ok q ↔ beginsWithDrive q.toList = false) := by
  simp only [Argument.isSafe, Argument.normalize, normalize_of_isCanonical h]
  cases beginsWithDrive q.toList <;> simp [Except.isOk, Except.toBool]

end EntryPath

/-- A canonical path is stored as it is: there is no NUL at which it would be cut. -/
theorem Zip.cutName_of_isCanonical {q : Text} (h : EntryPath.IsCanonical q.toList) :
    cutName q = q :=
  cutName_of_noNul (EntryPath.noNul_of_isCanonical h)

theorem Zip.cutName_ne_empty_of_isCanonical {q : Text} (h : EntryPath.IsCanonical q.toList) :
    cutName q ≠ "" := by
  rw [cutName_of_isCanonical h]
  obtain ⟨c, rest, hhead, -⟩ := EntryPath.head_of_isCanonical h
  rintro rfl
  cases hhead

namespace Draft

/-- Entries are stored under canonical paths. -/
theorem isCanonical_of_entryFor {path : EntryPath.Argument} {content : Content} {e : Entry}
    (h : entryFor path content = .ok e) : EntryPath.IsCanonical e.path.toList := by
  obtain ⟨p, -, hp⟩ := EntryPath.Argument.normalize_eq_ok (entryFor_eq_ok h).1
  exact EntryPath.isCanonical_of_normalize hp

/-- The paths of entries are what normalising yields. -/
theorem Reachable.normalized {d : Draft} (h : d.Reachable) {e : Entry} (he : e ∈ d.contents.toList) :
    ∃ p, EntryPath.normalize p = .ok e.path := by
  obtain ⟨path, content, hentry⟩ := h.stored e he
  obtain ⟨p, -, hp⟩ := EntryPath.Argument.normalize_eq_ok (entryFor_eq_ok hentry).1
  exact ⟨p, hp⟩

theorem Reachable.isCanonical {d : Draft} (h : d.Reachable) {q : Text}
    (hq : q ∈ d.contents.paths) : EntryPath.IsCanonical q.toList := by
  obtain ⟨e, he, rfl⟩ := List.mem_map.mp hq
  obtain ⟨p, hp⟩ := h.normalized he
  exact EntryPath.isCanonical_of_normalize hp

/-- **Canonical forms settle, but for drive letters.**  A path that normalising yields never begins
with a separator.  If it does not begin with a drive letter and a colon either, it is its own
canonical form; if it does, it is refused as absolute.  The same divides the paths that a draft
lists, whatever was done with it: they are safe, and settled, except those that begin with a drive
letter and a colon. -/
theorem canonical_paths_settle (p : Text) (d : Draft) :
    (∀ q, EntryPath.normalize p = .ok q →
      (∀ c rest, q.toList = c :: rest → EntryPath.isSeparator c = false) ∧
      (EntryPath.beginsWithDrive q.toList = false → EntryPath.normalize q = .ok q) ∧
      (EntryPath.beginsWithDrive q.toList = true →
        EntryPath.normalize q = .error (.absolute q))) ∧
    (d.Reachable → ∀ q ∈ d.contents.paths,
      ((EntryPath.Argument.text q).isSafe = true ↔
        EntryPath.beginsWithDrive q.toList = false) ∧
      (EntryPath.normalize q = .ok q ↔ EntryPath.beginsWithDrive q.toList = false)) := by
  refine ⟨fun q h => ?_, fun hd q hq => ?_⟩
  · have canonical := EntryPath.isCanonical_of_normalize h
    have again := EntryPath.normalize_of_isCanonical canonical
    refine ⟨fun c rest hc => ?_, fun hno => ?_, fun hdrive => ?_⟩
    · obtain ⟨c', rest', hq, hfree⟩ := EntryPath.head_of_isCanonical canonical
      rw [hc, List.cons.injEq] at hq
      exact hq.1 ▸ hfree
    · rw [again, hno]; rfl
    · rw [again, hdrive]; rfl
  · exact EntryPath.isSafe_iff_of_isCanonical (hd.isCanonical hq)

open scoped Zstandard in
/-- `./C:/x` is accepted, and stored as `C:/x`, which is refused. -/
theorem drive_letter_surfaces :
    EntryPath.normalize "./C:/x" = .ok "C:/x" ∧
      EntryPath.normalize "C:/x" = .error (.absolute "C:/x") ∧
      ∃ d : Draft, d.Reachable ∧ ("C:/x" : Text) ∈ d.contents.paths ∧
        (EntryPath.Argument.text "C:/x").isSafe = false := by
  have normal : EntryPath.normalize "./C:/x" = .ok "C:/x" := by decide +kernel
  have drive : EntryPath.beginsWithDrive ("C:/x" : Text).toList = true := by decide +kernel
  have opened : FileTree.empty.openEmpty "d" =
      .ok (FileTree.empty.set ["d"] (.file ByteArray.empty), ["d"]) := rfl
  let w : Workspace := ⟨.empty, ⟨2020, 2, 3, 4, 5, 6⟩, #[], []⟩
  let format : Format := Zip.format .stored none
  let op : Operation := .addStrict (.text "./C:/x") (.bytes ByteArray.empty)
  have created := create_eq "d" format w
  rw [opened] at created
  have reachable := (Reachable.created created).performed op w
  have stored : op.entry? = some ⟨"C:/x", ByteArray.empty⟩ := by
    simp only [op, Operation.entry?, entryFor_text normal]
    rfl
  have listed : ("C:/x" : Text) ∈ ((Draft.mk "d" format (some ["d"]) false .empty).perform op
      w).1.1.contents.paths := by
    rw [contents_perform, stored]
    simp [takesEntries, Contents.paths]
  have settle := canonical_paths_settle "./C:/x" ((Draft.mk "d" format (some ["d"]) false
    .empty).perform op w).1.1
  have verdict := (settle.2 reachable _ listed).1
  rw [drive] at verdict
  exact ⟨normal, (settle.1 _ normal).2.2 drive, _, reachable, listed,
    by simpa using verdict⟩

end Draft

end ZipContainer
