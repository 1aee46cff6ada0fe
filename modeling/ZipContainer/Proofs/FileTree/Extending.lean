import ZipContainer.Proofs.FileTree.Files

/-!
# Trees that differ in files

Opening and writing files adds files to a tree and changes their content; directories stay what they
are.  So of two trees with a common past the one may hold more files than the other, and other bytes,
but they have the same directories (`Extends`).

* `Extends.openEmpty`: a file can be opened for writing in both or in neither, at the same place.  The
  refusal is the same, except where the way comes upon a file that only the larger tree holds.
* `Change`: what is done to both at once puts files at the same place.  They are the same files if the
  trees held the same there before.
-/

namespace ZipContainer.FileTree

variable {t t' u u' : FileTree} {p q : Place} {b b' : ByteArray} {path : String}
  {P : Place → Prop}

/-- The second tree has the directories of the first, and holds something wherever the first does. -/
structure Extends (t t' : FileTree) : Prop where
  directories : ∀ q, t.node? q = some .directory ↔ t'.node? q = some .directory
  nodes : ∀ q, t.node? q ≠ none → t'.node? q ≠ none

theorem Extends.refl (t : FileTree) : t.Extends t := ⟨fun _ => Iff.rfl, fun _ => id⟩

theorem Extends.trans (h : t.Extends t') (h' : t'.Extends u) : t.Extends u :=
  ⟨fun q => (h.directories q).trans (h'.directories q), fun q => h'.nodes q ∘ h.nodes q⟩

theorem ne_root (hp : t.node? p ≠ some .directory) : p ≠ [] :=
  fun hroot => hp (by rw [hroot, node?_root])

theorem node?_set_file (hp : t.node? p ≠ some .directory) (b : ByteArray) (q : Place) :
    (t.set p (.file b)).node? q = if q = p then some (.file b) else t.node? q :=
  node?_set t (ne_root hp) _ q

/-- Where no directory stands, a file can be put. -/
theorem Extends.set (hp : t.node? p ≠ some .directory) (b : ByteArray) :
    t.Extends (t.set p (.file b)) where
  directories q := by
    rw [node?_set_file hp]
    split
    · next heq => exact iff_of_false (heq ▸ hp) nofun
    · rfl
  nodes q hq := by
    rw [node?_set_file hp]
    split
    · exact nofun
    · exact hq

/-! ### Opening -/

/-- A way ends in both trees where it ends in one, or comes upon a file that only the larger one
holds. -/
theorem Extends.follow (h : t.Extends t') (here : Place) (names : List String) :
    t'.follow here names = t.follow here names ∨
      (t.follow here names = .error .notFound ∧ t'.follow here names = .error .notDirectory) := by
  induction names generalizing here with
  | nil => exact .inl rfl
  | cons name names ih =>
      unfold FileTree.follow
      by_cases hdot : name = "."
      · simp only [if_pos hdot]
        exact ih here
      by_cases hdots : name = ".."
      · simp only [if_neg hdot, if_pos hdots]
        exact ih here.dropLast
      by_cases hlong : maxName < name.utf8ByteSize
      · simp only [if_neg hdot, if_neg hdots, if_pos hlong]
        exact .inl trivial
      by_cases hlast : names = []
      · simp only [if_neg hdot, if_neg hdots, if_neg hlong, if_pos hlast]
        exact .inl trivial
      simp only [if_neg hdot, if_neg hdots, if_neg hlong, if_neg hlast]
      have directories := h.directories (here ++ [name])
      have nodes := h.nodes (here ++ [name])
      cases hnode : t.node? (here ++ [name]) with
      | none =>
          cases hnode' : t'.node? (here ++ [name]) with
          | none => exact .inl rfl
          | some node' =>
              cases node' with
              | file b' => exact .inr ⟨rfl, rfl⟩
              | directory => exact absurd (directories.mpr hnode') (by rw [hnode]; exact nofun)
      | some node =>
          cases node with
          | file b =>
              cases hnode' : t'.node? (here ++ [name]) with
              | none => exact absurd hnode' (nodes (by rw [hnode]; exact nofun))
              | some node' =>
                  cases node' with
                  | file b' => exact .inl rfl
                  | directory =>
                      exact absurd (directories.mpr hnode') (by rw [hnode]; exact nofun)
          | directory =>
              rw [directories.mp hnode]
              exact ih _

theorem Extends.lead (h : t.Extends t') (path : String) (names : List String) :
    t'.lead path names = t.lead path names ∨
      (t.lead path names = .error (.file .notFound path) ∧
        t'.lead path names = .error (.file .notDirectory path)) := by
  unfold FileTree.lead
  split
  · exact .inl rfl
  split
  · exact .inl rfl
  split
  · exact .inl rfl
  rcases h.follow [] names with heq | ⟨hnone, hfile⟩
  · exact .inl (by rw [heq])
  · exact .inr ⟨by rw [hnone]; rfl, by rw [hfile]; rfl⟩

/-- A directory stands in both trees or in neither. -/
theorem Extends.directoryAt (h : t.Extends t') (p : Place) :
    t'.directoryAt p = t.directoryAt p ∨
      (t.directoryAt p = .error .notFound ∧ t'.directoryAt p = .error .notDirectory) := by
  have directories := h.directories p
  have nodes := h.nodes p
  unfold FileTree.directoryAt
  rcases hnode : t.node? p with _ | b | _ <;> rcases hnode' : t'.node? p with _ | b' | _ <;>
    simp_all

theorem Extends.locate (h : t.Extends t') (path : String) :
    t'.locate path = t.locate path ∨
      (t.locate path = .error (.file .notFound path) ∧
        t'.locate path = .error (.file .notDirectory path)) := by
  unfold FileTree.locate
  rcases h.lead path (components path) with heq | ⟨hnone, hfile⟩
  · rw [heq]
    cases t.lead path (components path) with
    | error f => exact .inl rfl
    | ok p =>
        simp only [bind, Except.bind]
        split
        · rcases h.directoryAt p with same | ⟨hnone, hfile⟩
          · exact .inl (by rw [same])
          · exact .inr ⟨by rw [hnone]; rfl, by rw [hfile]; rfl⟩
        · exact .inl rfl
  · exact .inr ⟨by rw [hnone]; rfl, by rw [hfile]; rfl⟩

/-- **A file can be opened for writing in both trees or in neither**, at the same place. -/
theorem Extends.openEmpty (h : t.Extends t') (path : String) :
    (∃ p, t.locate path = .ok p ∧ t.node? p ≠ some .directory ∧
      t.openEmpty path = .ok (t.set p (.file ByteArray.empty), p) ∧
      t'.openEmpty path = .ok (t'.set p (.file ByteArray.empty), p)) ∨
    (∃ f, t.openEmpty path = .error f ∧ t'.openEmpty path = .error f) ∨
    (t.openEmpty path = .error (.file .notFound path) ∧
      t'.openEmpty path = .error (.file .notDirectory path)) := by
  by_cases asks : asksDirectory path = true
  · rw [openEmpty_of_asks asks, openEmpty_of_asks asks]
    rcases h.lead path ((components path).dropLast ++ ["."]) with heq | ⟨hnone, hfile⟩
    · exact .inr (.inl ⟨_, rfl, by rw [heq]⟩)
    · exact .inr (.inr ⟨by rw [hnone], by rw [hfile]⟩)
  rcases h.locate path with heq | ⟨hnone, hfile⟩
  · cases hl : t.locate path with
    | error f =>
        exact .inr (.inl ⟨f, openEmpty_of_error asks hl, openEmpty_of_error asks (heq.trans hl)⟩)
    | ok p =>
        by_cases hp : t.node? p = some .directory
        · exact .inr (.inl ⟨_, openEmpty_of_directory asks hl hp,
            openEmpty_of_directory asks (heq.trans hl) ((h.directories p).mp hp)⟩)
        · have hp' : t'.node? p ≠ some .directory := fun hd => hp ((h.directories p).mpr hd)
          exact .inl ⟨p, rfl, hp, openEmpty_of_locate hl hp, openEmpty_of_locate (heq.trans hl) hp'⟩
  · exact .inr (.inr ⟨openEmpty_of_error asks hnone, openEmpty_of_error asks hfile⟩)

/-! ### Changing -/

/-- What is done to two trees at once: nothing, or a file is put at a place, in both.  It is the same
file if the trees held the same at that place. -/
inductive Change (P : Place → Prop) (t t' : FileTree) : FileTree → FileTree → Prop where
  | nothing : Change P t t' t t'
  | put {p : Place} {b b' : ByteArray} (at_place : P p) (same : t.node? p = t'.node? p → b = b') :
      Change P t t' (t.set p (.file b)) (t'.set p (.file b'))

/-- Opening a file for writing makes it the same. -/
theorem Change.empty (hp : P p) :
    Change P t t' (t.set p (.file ByteArray.empty)) (t'.set p (.file ByteArray.empty)) :=
  .put hp fun _ => rfl

/-- What a node holds beyond its first bytes. -/
def beyond (n : Nat) : Option Node → ByteArray
  | some (.file old) => old.extract n old.size
  | _ => ByteArray.empty

theorem beyond_empty (n : Nat) : beyond n (some (.file ByteArray.empty)) = ByteArray.empty := by
  rw [beyond, ByteArray.extract_eq_empty_iff]
  exact Nat.le_trans (Nat.min_le_right _ _) (Nat.zero_le _)

/-- Writing keeps what stands beyond the bytes that are written. -/
theorem overwrite_eq (t : FileTree) (p : Place) (b : ByteArray) :
    t.overwrite p b = t.set p (.file (b ++ beyond b.size (t.node? p))) := by
  unfold FileTree.overwrite
  split
  · next old h => rw [h]; rfl
  · next h =>
      cases hnode : t.node? p with
      | none => simp [beyond]
      | some node =>
          cases node with
          | file old => exact absurd hnode (h old)
          | directory => simp [beyond]

/-- Writing the same bytes leaves the same file, if it was the same. -/
theorem Change.overwrite (hp : P p) (b : ByteArray) :
    Change P t t' (t.overwrite p b) (t'.overwrite p b) := by
  rw [overwrite_eq, overwrite_eq]
  exact .put hp fun hsame => by rw [hsame]

/-- Only the places that a change is about can change. -/
theorem Change.node?_eq (h : Change P t t' u u') (hP : ∀ p, P p → t.node? p ≠ some .directory)
    (hq : ¬ P q) : u.node? q = t.node? q := by
  cases h with
  | nothing => rfl
  | put at_place _ =>
      have other : q ≠ _ := fun heq => hq (heq ▸ at_place)
      rw [node?_set_file (hP _ at_place), if_neg other]

/-- What was the same in both trees is the same after a change of both. -/
theorem Change.node?_congr (h : Change P t t' u u') (hP : ∀ p, P p → t.node? p ≠ some .directory)
    (hP' : ∀ p, P p → t'.node? p ≠ some .directory) (hq : t.node? q = t'.node? q) :
    u.node? q = u'.node? q := by
  cases h with
  | nothing => exact hq
  | put at_place same =>
      rw [node?_set_file (hP _ at_place), node?_set_file (hP' _ at_place)]
      split
      · next heq => rw [same (heq ▸ hq)]
      · exact hq

/-- A change leads to a tree with the same directories. -/
theorem Change.extends (h : Change P t t' u u') (hP : ∀ p, P p → t.node? p ≠ some .directory) :
    t.Extends u := by
  cases h with
  | nothing => exact .refl t
  | put at_place _ => exact .set (hP _ at_place) _

/-- A change of both trees leaves the one larger than the other. -/
theorem Change.extends_congr (h : Change P t t' u u')
    (hP : ∀ p, P p → t.node? p ≠ some .directory) (hextends : t.Extends t') : u.Extends u' := by
  cases h with
  | nothing => exact hextends
  | @put p b b' at_place _ =>
      have hp := hP p at_place
      have hp' : t'.node? p ≠ some .directory := fun hd => hp ((hextends.directories p).mpr hd)
      constructor <;> intro q <;> rw [node?_set_file hp, node?_set_file hp']
      · split
        · exact iff_of_false nofun nofun
        · exact hextends.directories q
      · split
        · exact fun _ => nofun
        · exact hextends.nodes q

end ZipContainer.FileTree
