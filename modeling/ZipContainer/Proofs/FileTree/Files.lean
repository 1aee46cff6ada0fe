import ZipContainer.FileTree

/-!
# Files that are written and read

What a path leads to does not change when a file is put there: all names on the way to it lead to
directories, and the file is none (`locate_set`).  So a path that was opened for writing leads to
the file ever after, what is written to the fresh file is what it holds, and that is what is read
(`openEmpty_holds`, `overwrite_holds`, `read_of_holds`).
-/

namespace ZipContainer.FileTree

variable {t t' : FileTree} {p q : Place} {n : Node} {path : String} {b : ByteArray}

theorem lookup_filter_ne {nodes : List (Place × Node)} (h : q ≠ p) :
    (nodes.filter fun m => m.1 ≠ p).lookup q = nodes.lookup q := by
  induction nodes with
  | nil => rfl
  | cons m nodes ih =>
      obtain ⟨place, node⟩ := m
      by_cases hp : place = p
      · subst hp
        have other : (q == place) = false := by simpa using h
        rw [List.filter_cons_of_neg (by simp), ih, List.lookup_cons, other]
      · rw [List.filter_cons_of_pos (by simpa using hp), List.lookup_cons, List.lookup_cons, ih]

theorem node?_root (t : FileTree) : t.node? [] = some .directory := rfl

/-- Putting a node at a place changes what stands there, and nothing else. -/
theorem node?_set (t : FileTree) (hp : p ≠ []) (n : Node) (q : Place) :
    (t.set p n).node? q = if q = p then some n else t.node? q := by
  unfold node?
  by_cases hq : q = p
  · subst hq
    simp [set, hp]
  · by_cases hroot : q = []
    · simp [hroot, Ne.symm hp]
    · have other : (q == p) = false := by simpa using hq
      simp only [if_neg hroot, if_neg hq, set, List.lookup_cons, other]
      exact lookup_filter_ne hq

/-! ### Ways -/

/-- Every directory of the one tree is a directory of the other. -/
def KeepsDirectories (t t' : FileTree) : Prop :=
  ∀ q, t.node? q = some .directory → t'.node? q = some .directory

theorem KeepsDirectories.set (hp : t.node? p ≠ some .directory) (n : Node) :
    t.KeepsDirectories (t.set p n) := by
  intro q hq
  have notRoot : p ≠ [] := fun hroot => hp (by rw [hroot, node?_root])
  have other : q ≠ p := fun heq => hp (heq ▸ hq)
  rw [node?_set t notRoot, if_neg other, hq]

/-- A way leads through directories only, so it stays where these do. -/
theorem follow_of_keeps (keeps : t.KeepsDirectories t') {here : Place} {names : List String}
    (h : t.follow here names = .ok p) : t'.follow here names = .ok p := by
  induction names generalizing here with
  | nil => exact h
  | cons name names ih =>
      unfold follow at h ⊢
      by_cases hdot : name = "."
      · rw [if_pos hdot] at h ⊢
        exact ih h
      rw [if_neg hdot] at h ⊢
      by_cases hdots : name = ".."
      · rw [if_pos hdots] at h ⊢
        exact ih h
      rw [if_neg hdots] at h ⊢
      by_cases hlong : maxName < name.utf8ByteSize
      · rw [if_pos hlong] at h
        cases h
      rw [if_neg hlong] at h ⊢
      by_cases hlast : names = []
      · rw [if_pos hlast] at h ⊢
        exact h
      rw [if_neg hlast] at h ⊢
      cases hnext : t.node? (here ++ [name]) with
      | none => rw [hnext] at h; cases h
      | some node =>
          rw [hnext] at h
          cases node with
          | file b => cases h
          | directory =>
              rw [keeps _ hnext]
              exact ih h

theorem lead_eq_ok_iff {names : List String} :
    t.lead path names = .ok p ↔
      path.toList.contains '\x00' = false ∧ path ≠ "" ∧ path.utf8ByteSize ≤ maxPath ∧
        t.follow [] names = .ok p := by
  unfold lead
  split
  · next hnul => exact iff_of_false nofun fun h => Bool.noConfusion (hnul.symm.trans h.1)
  next hnul =>
  split
  · next hempty => exact iff_of_false nofun fun h => h.2.1 hempty
  next hempty =>
  split
  · next hlong => exact iff_of_false nofun fun h => Nat.not_lt.mpr h.2.2.1 hlong
  next hlong =>
  cases t.follow [] names with
  | error f =>
      refine iff_of_false (fun h => ?_) (fun h => ?_)
      · cases h
      · cases h.2.2.2
  | ok q =>
      constructor
      · intro h
        cases h
        exact ⟨Bool.eq_false_iff.mpr hnul, hempty, Nat.le_of_not_lt hlong, rfl⟩
      · rintro ⟨-, -, -, h⟩
        cases h
        rfl

theorem lead_of_keeps (keeps : t.KeepsDirectories t') {names : List String}
    (h : t.lead path names = .ok p) : t'.lead path names = .ok p := by
  rw [lead_eq_ok_iff] at h ⊢
  exact ⟨h.1, h.2.1, h.2.2.1, follow_of_keeps keeps h.2.2.2⟩

theorem directoryAt_eq_ok_iff :
    t.directoryAt p = .ok q ↔ t.node? p = some .directory ∧ q = p := by
  unfold directoryAt
  split
  · next h => exact iff_of_false nofun fun h' => nomatch h.symm.trans h'.1
  · next h => exact iff_of_false nofun fun h' => nomatch h.symm.trans h'.1
  · next h => exact ⟨fun h' => ⟨h, (Except.ok.inj h').symm⟩, fun h' => by rw [h'.2]⟩

/-- A path that asks for a directory leads to directories only. -/
theorem locate_eq_ok_iff :
    t.locate path = .ok p ↔
      t.lead path (components path) = .ok p ∧
        (asksDirectory path = true → t.node? p = some .directory) := by
  unfold locate
  cases t.lead path (components path) with
  | error f => exact iff_of_false nofun fun h => nomatch h.1
  | ok q =>
      simp only [bind, Except.bind, Except.ok.injEq]
      split
      · next asks =>
        simp only [asks, true_implies]
        cases hq : t.directoryAt q with
        | error f =>
            refine iff_of_false nofun fun ⟨same, directory⟩ => ?_
            rw [same, directoryAt_eq_ok_iff.mpr ⟨directory, rfl⟩] at hq
            cases hq
        | ok q' =>
            obtain ⟨directory, rfl⟩ := directoryAt_eq_ok_iff.mp hq
            exact ⟨fun h => by cases h; exact ⟨rfl, directory⟩, fun h => by rw [h.1]; rfl⟩
      · next asks =>
        exact ⟨fun h => by cases h; exact ⟨rfl, fun asks' => absurd asks' asks⟩,
          fun h => by rw [h.1]; rfl⟩

theorem locate_of_keeps (keeps : t.KeepsDirectories t') (h : t.locate path = .ok p) :
    t'.locate path = .ok p := by
  rw [locate_eq_ok_iff] at h ⊢
  exact ⟨lead_of_keeps keeps h.1, fun asks => keeps _ (h.2 asks)⟩

theorem locate_set (h : t.locate path = .ok p) (hp : t.node? p ≠ some .directory) (n : Node) :
    (t.set p n).locate path = .ok p :=
  locate_of_keeps (.set hp n) h

/-! ### Opening -/

theorem openEmpty_of_locate (h : t.locate path = .ok p) (hp : t.node? p ≠ some .directory) :
    t.openEmpty path = .ok (t.set p (.file ByteArray.empty), p) := by
  have asks : ¬ asksDirectory path = true := fun asks => hp ((locate_eq_ok_iff.mp h).2 asks)
  simp only [openEmpty, if_neg asks, h, bind, Except.bind]
  rfl

theorem openEmpty_of_directory (asks : ¬ asksDirectory path = true) (h : t.locate path = .ok p)
    (hp : t.node? p = some .directory) : t.openEmpty path = .error (.file .isDirectory path) := by
  simp only [openEmpty, if_neg asks, h, bind, Except.bind, hp]
  rfl

theorem openEmpty_of_error (asks : ¬ asksDirectory path = true) {f : Failure}
    (h : t.locate path = .error f) : t.openEmpty path = .error f := by
  simp only [openEmpty, if_neg asks, h, bind, Except.bind]

/-- A path that asks for a directory is refused with what is wrong on the way to its last name, or
as a directory. -/
theorem openEmpty_of_asks (asks : asksDirectory path = true) :
    t.openEmpty path = .error
      (match t.lead path ((components path).dropLast ++ ["."]) with
        | .error f => f
        | .ok _ => .file .isDirectory path) := by
  simp only [openEmpty, if_pos asks]
  cases t.lead path ((components path).dropLast ++ ["."]) <;> rfl

/-- All that opening a file for writing does. -/
theorem openEmpty_eq_ok (h : t.openEmpty path = .ok (t', p)) :
    t.locate path = .ok p ∧ t.node? p ≠ some .directory ∧ t' = t.set p (.file ByteArray.empty) := by
  by_cases asks : asksDirectory path = true
  · exact nomatch (openEmpty_of_asks asks).symm.trans h
  cases hl : t.locate path with
  | error f => exact nomatch (openEmpty_of_error asks hl).symm.trans h
  | ok q =>
      by_cases hq : t.node? q = some .directory
      · exact nomatch (openEmpty_of_directory asks hl hq).symm.trans h
      · cases (openEmpty_of_locate hl hq).symm.trans h
        exact ⟨rfl, hq, rfl⟩

/-- A path leads to a file with the given content at the given place. -/
structure Holds (t : FileTree) (path : String) (p : Place) (b : ByteArray) : Prop where
  locate : t.locate path = .ok p
  node : t.node? p = some (.file b)

/-- What a path holds is read. -/
theorem read_of_holds (h : t.Holds path p b) : t.read path = .ok b := by
  simp only [read, h.locate, bind, Except.bind, h.node]
  rfl

theorem read_eq_ok_iff : t.read path = .ok b ↔ ∃ p, t.Holds path p b := by
  constructor
  · intro h
    unfold read at h
    cases hl : t.locate path with
    | error f => rw [hl] at h; cases h
    | ok p =>
        rw [hl] at h
        simp only [bind, Except.bind] at h
        split at h
        · cases h
        · cases h
        · next hnode =>
            cases h
            exact ⟨p, hl, hnode⟩
  · rintro ⟨p, h⟩
    exact read_of_holds h

/-- A path that was opened for writing leads to an empty file. -/
theorem openEmpty_holds (h : t.openEmpty path = .ok (t', p)) : t'.Holds path p ByteArray.empty := by
  obtain ⟨located, notDirectory, rfl⟩ := openEmpty_eq_ok h
  have notRoot : p ≠ [] := fun hroot => notDirectory (by rw [hroot, node?_root])
  exact ⟨locate_set located notDirectory _, by rw [node?_set t notRoot, if_pos rfl]⟩

/-- What is written to an empty file is what it holds. -/
theorem overwrite_holds (h : t.Holds path p ByteArray.empty) (b : ByteArray) :
    (t.overwrite p b).Holds path p b := by
  have notDirectory : t.node? p ≠ some .directory := by rw [h.node]; exact nofun
  have notRoot : p ≠ [] := fun hroot => notDirectory (by rw [hroot, node?_root])
  have written : t.overwrite p b = t.set p (.file b) := by
    have rest : ByteArray.empty.extract b.size ByteArray.empty.size = ByteArray.empty := by
      rw [ByteArray.extract_eq_empty_iff]
      exact Nat.le_trans (Nat.min_le_right _ _) (Nat.zero_le _)
    rw [overwrite, h.node]
    simp only [rest, ByteArray.append_empty]
  rw [written]
  exact ⟨locate_set h.locate notDirectory _, by rw [node?_set t notRoot, if_pos rfl]⟩

end ZipContainer.FileTree
