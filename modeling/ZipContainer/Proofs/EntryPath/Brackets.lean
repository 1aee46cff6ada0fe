import Mathlib.Data.List.Basic
import ZipContainer.Proofs.EntryPath.Resolving

/-!
# Names and `..` as brackets

Read as brackets, a name opens and `..` closes.  Each `..` takes away the nearest name before it that
no `..` before it has taken away (`Takes`); that is the bracket it matches, because what stands between
the two is balanced (`takes_iff_closes`).

Normalising is a stack that is pushed and popped from the left.  `normalize_iff_brackets` says what it
comes to without one: it succeeds where no `..` is left unmatched and some name is, and then the
result is the join of the names that are not matched.
-/

namespace ZipContainer.EntryPath

/-- How many segments are names. -/
def names (segs : List (List Point)) : Nat := segs.countP (· ≠ up)

/-- How many segments are `..`. -/
def ups (segs : List (List Point)) : Nat := segs.countP (· = up)

/-- A name stands at a position. -/
def NameAt (segs : List (List Point)) (i : Nat) : Prop := ∃ s, segs[i]? = some s ∧ s ≠ up

/-- A `..` stands at a position. -/
def UpAt (segs : List (List Point)) (j : Nat) : Prop := segs[j]? = some up

/-- The `..` at `j` takes away the name at `i`: no `..` before it does, and every name between the two
is taken away before. -/
def Takes (segs : List (List Point)) (j i : Nat) : Prop :=
  UpAt segs j ∧ NameAt segs i ∧ i < j ∧
    (∀ j', (_ : j' < j) → ¬ Takes segs j' i) ∧
    ∀ k, i < k → k < j → NameAt segs k → ∃ j', ∃ _ : j' < j, Takes segs j' k
termination_by j

/-- Every `..` finds a name, and all names are found. -/
def IsBalanced (segs : List (List Point)) : Prop := demand segs = 0 ∧ ups segs = names segs

/-- The `..` at `j` closes the bracket that the name at `i` opens: what stands between is balanced. -/
def Closes (segs : List (List Point)) (j i : Nat) : Prop :=
  NameAt segs i ∧ ∃ between after, segs.drop (i + 1) = between ++ up :: after ∧
    j = i + 1 + between.length ∧ IsBalanced between

variable {s : List Point} {segs between after : List (List Point)} {i j k : Nat}

/-! ### Counting -/

@[simp] theorem names_nil : names [] = 0 := rfl

@[simp] theorem ups_nil : ups [] = 0 := rfl

@[simp] theorem names_up (segs : List (List Point)) : names (up :: segs) = names segs := by
  simp [names]

@[simp] theorem ups_up (segs : List (List Point)) : ups (up :: segs) = ups segs + 1 := by
  simp [ups]

theorem names_name (hs : s ≠ up) (segs : List (List Point)) :
    names (s :: segs) = names segs + 1 := by
  simp [names, hs]

theorem ups_name (hs : s ≠ up) (segs : List (List Point)) : ups (s :: segs) = ups segs := by
  simp [ups, hs]

@[simp] theorem names_append (segs segs' : List (List Point)) :
    names (segs ++ segs') = names segs + names segs' := List.countP_append

@[simp] theorem ups_append (segs segs' : List (List Point)) :
    ups (segs ++ segs') = ups segs + ups segs' := List.countP_append

/-- The names that remain are those that no `..` has come for. -/
theorem length_remaining (segs : List (List Point)) :
    (remaining segs).length + ups segs = names segs + demand segs := by
  induction segs with
  | nil => rfl
  | cons s segs ih =>
      by_cases hs : s = up
      · subst hs
        simp only [remaining_up, ups_up, names_up, demand_up]
        omega
      · rw [ups_name hs, names_name hs, demand_name hs]
        by_cases hd : demand segs = 0
        · rw [remaining_kept hs hd, List.length_cons]
          omega
        · rw [remaining_taken hd]
          omega

/-- What is demanded is by how much `..` outnumber names at worst, from the beginning to some
point. -/
theorem demand_le_iff : demand segs ≤ k ↔ ∀ l, l <+: segs → ups l ≤ names l + k := by
  induction segs generalizing k with
  | nil => simp [List.prefix_nil]
  | cons s segs ih =>
      simp only [List.prefix_cons_iff, or_imp, forall_and, forall_eq, ups_nil, Nat.zero_le,
        true_and, forall_exists_index, and_imp]
      by_cases hs : s = up
      · subst hs
        rw [demand_up]
        cases k with
        | zero => exact iff_of_false (by omega) fun h => by simpa using h _ [] rfl List.nil_prefix
        | succ k =>
            rw [Nat.add_le_add_iff_right, ih]
            refine ⟨?_, fun h l hl => by simpa [← Nat.add_assoc] using h _ l rfl hl⟩
            rintro h _ l rfl hl
            have := h l hl
            rw [ups_up, names_up]
            omega
      · rw [demand_name hs, Nat.sub_le_iff_le_add, ih]
        constructor
        · rintro h _ l rfl hl
          rw [ups_name hs, names_name hs]
          have := h l hl
          omega
        · intro h l hl
          have := h _ l rfl hl
          rw [ups_name hs, names_name hs] at this
          omega

theorem demand_eq_zero_iff : demand segs = 0 ↔ ∀ l, l <+: segs → ups l ≤ names l :=
  Nat.le_zero.symm.trans demand_le_iff

/-! ### Closing -/

/-- Segments that take away more names than they are asked to reach the point where they do. -/
theorem exists_of_lt_demand (h : k < demand segs) :
    ∃ between after, segs = between ++ up :: after ∧ demand between ≤ k ∧
      ups between = names between + k := by
  induction segs generalizing k with
  | nil => exact absurd h (Nat.not_lt_zero k)
  | cons s segs ih =>
      by_cases hs : s = up
      · subst hs
        cases k with
        | zero => exact ⟨[], segs, rfl, Nat.le_refl 0, rfl⟩
        | succ k =>
            obtain ⟨between, after, rfl, hdemand, hcount⟩ :=
              ih (Nat.lt_of_add_lt_add_right (demand_up segs ▸ h))
            refine ⟨up :: between, after, rfl, ?_, ?_⟩
            · rw [demand_up]
              exact Nat.succ_le_succ hdemand
            · rw [ups_up, names_up, hcount, Nat.add_assoc]
      · obtain ⟨between, after, rfl, hdemand, hcount⟩ :=
          ih (Nat.add_lt_of_lt_sub (demand_name hs segs ▸ h))
        refine ⟨s :: between, after, rfl, ?_, ?_⟩
        · rw [demand_name hs]
          omega
        · rw [ups_name hs, names_name hs, hcount]
          omega

/-- Segments that demand something have a `..` that is not matched. -/
theorem exists_of_demand (h : demand segs ≠ 0) :
    ∃ between after, segs = between ++ up :: after ∧ IsBalanced between := by
  obtain ⟨between, after, rfl, hdemand, hcount⟩ := exists_of_lt_demand (Nat.pos_of_ne_zero h)
  exact ⟨between, after, rfl, Nat.le_zero.mp hdemand, hcount⟩

/-- What is balanced has no `..` to spare, so none follows it in segments that demand nothing. -/
theorem not_prefix_of_balanced (hdemand : demand segs = 0) (h : IsBalanced between) :
    ¬ between ++ [up] <+: segs := by
  intro hprefix
  have := demand_eq_zero_iff.mp hdemand _ hprefix
  rw [ups_append, names_append, h.2, ups_up, names_up] at this
  exact Nat.not_succ_le_self _ this

/-- Where a name remains, the segments behind it demand nothing. -/
theorem exists_of_remaining (h : remaining segs ≠ []) :
    ∃ before s after, segs = before ++ s :: after ∧ s ≠ up ∧ demand after = 0 := by
  induction segs with
  | nil => exact absurd rfl h
  | cons s segs ih =>
      by_cases hs : s ≠ up ∧ demand segs = 0
      · exact ⟨[], s, segs, rfl, hs⟩
      · rw [remaining, if_neg hs] at h
        obtain ⟨before, s', after, rfl, hs'⟩ := ih h
        exact ⟨s :: before, s', after, rfl, hs'⟩

theorem Closes.lt (h : Closes segs j i) : i < j := by
  obtain ⟨-, between, -, -, rfl, -⟩ := h
  omega

theorem Closes.upAt (h : Closes segs j i) : UpAt segs j := by
  obtain ⟨-, between, after, hdrop, rfl, -⟩ := h
  rw [UpAt, ← List.getElem?_drop, hdrop]
  simp

/-- What stands behind a segment, if that is known of the segments from a position on. -/
theorem drop_succ_of_drop {before : List (List Point)} (h : segs.drop i = before ++ s :: after) :
    segs.drop (i + before.length + 1) = after := by
  rw [Nat.add_assoc, ← List.drop_drop, h, ← List.drop_drop]
  simp

theorem getElem?_of_drop {before : List (List Point)} (h : segs.drop i = before ++ s :: after) :
    segs[i + before.length]? = some s := by
  rw [← List.getElem?_drop, h]
  simp

theorem exists_split_of_getElem? (h : segs[i]? = some s) :
    ∃ before after, segs = before ++ s :: after ∧ i = before.length := by
  obtain ⟨hlt, rfl⟩ := List.getElem?_eq_some_iff.mp h
  refine ⟨segs.take i, segs.drop (i + 1), ?_, (List.length_take_of_le (Nat.le_of_lt hlt)).symm⟩
  rw [← List.drop_eq_getElem_cons hlt, List.take_append_drop]

/-- What stands between two positions, and behind the second. -/
theorem exists_between (hij : i < j) (hj : segs[j]? = some s) :
    ∃ between after, segs.drop (i + 1) = between ++ s :: after ∧ j = i + 1 + between.length := by
  obtain ⟨n, rfl⟩ : ∃ n, j = i + 1 + n := ⟨j - (i + 1), by omega⟩
  rw [← List.getElem?_drop] at hj
  obtain ⟨between, after, hdrop, rfl⟩ := exists_split_of_getElem? hj
  exact ⟨between, after, hdrop, rfl⟩

/-- Of two places in one list the first is in front of the second. -/
theorem exists_of_length_lt {before before' after' : List (List Point)} {s' : List Point}
    (h : before ++ s :: after = before' ++ s' :: after') (hlt : before.length < before'.length) :
    ∃ rest, before' = before ++ s :: rest ∧ after = rest ++ s' :: after' := by
  have hprefix : before ++ [s] <+: before' := by
    refine List.prefix_of_prefix_length_le (List.prefix_append_right_inj before |>.mpr
      (List.prefix_append [s] after)) (h ▸ List.prefix_append _ _) ?_
    rwa [List.length_append]
  obtain ⟨rest, rfl⟩ := hprefix
  rw [List.append_assoc, List.append_assoc, List.append_cancel_left_eq, List.singleton_append,
    List.cons.injEq] at h
  exact ⟨rest, List.append_assoc .., h.2⟩

/-! ### Matching -/

/-- A name between a bracket and its end is closed before that. -/
theorem Closes.closes_between (h : Closes segs j i) (hik : i < k) (hkj : k < j)
    (hk : NameAt segs k) : ∃ j' < j, Closes segs j' k := by
  obtain ⟨-, between, after, hdrop, rfl, hdemand, hcount⟩ := h
  obtain ⟨s, hs, hname⟩ := hk
  obtain ⟨first, rest, hrest, rfl⟩ := exists_between hik hs
  obtain ⟨second, rfl, rfl⟩ := exists_of_length_lt (hrest.symm.trans hdrop) (by omega)
  have hsecond : demand second ≠ 0 := by
    intro hzero
    have before := demand_eq_zero_iff.mp hdemand first (List.prefix_append _ _)
    have behind := demand_eq_zero_iff.mp hzero second (List.prefix_refl _)
    rw [ups_append, names_append, ups_name hname, names_name hname] at hcount
    omega
  obtain ⟨inner, outer, rfl, hinner⟩ := exists_of_demand hsecond
  refine ⟨_, ?_, ⟨s, hs, hname⟩, inner, outer ++ up :: after, ?_, rfl, hinner⟩
  · simp only [List.length_append, List.length_cons]
    omega
  · rw [drop_succ_of_drop hrest, List.append_assoc, List.cons_append]

/-- No `..` before the end of a bracket closes it. -/
theorem Closes.not_closes_before (h : Closes segs j i) {j' : Nat} (hj' : j' < j) :
    ¬ Closes segs j' i := by
  rintro ⟨-, between', after', hdrop', rfl, hbalanced'⟩
  obtain ⟨-, between, after, hdrop, rfl, hbalanced⟩ := h
  obtain ⟨rest, rfl, -⟩ := exists_of_length_lt (hdrop'.symm.trans hdrop) (by omega)
  exact not_prefix_of_balanced hbalanced.1 hbalanced' ⟨rest, List.append_assoc ..⟩

/-- **A bracket ends at the first `..` that finds every name behind it closed.** -/
theorem closes_iff_nearest :
    Closes segs j i ↔ UpAt segs j ∧ NameAt segs i ∧ i < j ∧
      (∀ j', j' < j → ¬ Closes segs j' i) ∧
      ∀ k, i < k → k < j → NameAt segs k → ∃ j' < j, Closes segs j' k := by
  refine ⟨fun h => ⟨h.upAt, h.1, h.lt, fun j' => h.not_closes_before,
    fun k => h.closes_between⟩, ?_⟩
  rintro ⟨hj, hi, hij, hfirst, hnames⟩
  obtain ⟨between, after, hdrop, rfl⟩ := exists_between hij hj
  have hdemand : demand between = 0 := by
    by_contra hdemand
    obtain ⟨inner, outer, rfl, hinner⟩ := exists_of_demand hdemand
    refine hfirst _ ?_ ⟨hi, inner, outer ++ up :: after, by simpa using hdrop, rfl, hinner⟩
    simp only [List.length_append, List.length_cons]
    omega
  refine ⟨hi, between, after, hdrop, rfl, hdemand, ?_⟩
  have hcount := length_remaining between
  have hremaining : remaining between = [] := by
    by_contra hremaining
    obtain ⟨before, s, behind, rfl, hname, hbehind⟩ := exists_of_remaining hremaining
    rw [List.append_assoc, List.cons_append] at hdrop
    obtain ⟨j', hj', -, between', after', hdrop', rfl, hbalanced'⟩ := hnames (i + 1 + before.length)
      (by omega) (by simp) ⟨s, getElem?_of_drop hdrop, hname⟩
    rw [drop_succ_of_drop hdrop] at hdrop'
    rw [List.length_append, List.length_cons] at hj'
    obtain ⟨rest, rfl, -⟩ := exists_of_length_lt hdrop'.symm (by omega)
    exact not_prefix_of_balanced hbehind hbalanced' ⟨rest, List.append_assoc ..⟩
  rw [hremaining, List.length_nil, hdemand] at hcount
  omega

/-- **Each `..` takes away the name whose bracket it closes.** -/
theorem takes_iff_closes : Takes segs j i ↔ Closes segs j i := by
  induction j using Nat.strongRecOn generalizing i with
  | ind j ih =>
      rw [Takes, closes_iff_nearest]
      refine and_congr_right fun _ => and_congr_right fun _ => and_congr_right fun _ =>
        and_congr (forall₂_congr fun j' hj' => not_congr (ih j' hj')) ?_
      refine forall_congr' fun k => forall₂_congr fun _ _ => imp_congr_right fun _ => ?_
      exact exists_congr fun j' => ⟨fun ⟨hj', h⟩ => ⟨hj', (ih j' hj').mp h⟩,
        fun ⟨hj', h⟩ => ⟨hj', (ih j' hj').mpr h⟩⟩

/-- A name is taken away if something behind it demands a name. -/
theorem exists_takes_iff (hi : NameAt segs i) :
    (∃ j, Takes segs j i) ↔ demand (segs.drop (i + 1)) ≠ 0 := by
  constructor
  · rintro ⟨j, h⟩
    obtain ⟨-, between, after, hdrop, -, hbalanced⟩ := takes_iff_closes.mp h
    intro hzero
    exact not_prefix_of_balanced hzero hbalanced ⟨after, by rw [hdrop, List.append_assoc]; rfl⟩
  · intro h
    obtain ⟨between, after, hdrop, hbalanced⟩ := exists_of_demand h
    exact ⟨_, takes_iff_closes.mpr ⟨hi, between, after, hdrop, rfl, hbalanced⟩⟩

/-! ### Remaining -/

/-- Positions in order, of names that nothing takes away. -/
structure AreUntaken (segs : List (List Point)) (positions : List Nat) : Prop where
  ordered : positions.Pairwise (· < ·)
  mem_iff : ∀ i, i ∈ positions ↔ NameAt segs i ∧ ∀ j, ¬ Takes segs j i

theorem nameAt_zero : NameAt (s :: segs) 0 ↔ s ≠ up := by simp [NameAt]

theorem nameAt_succ : NameAt (s :: segs) (i + 1) ↔ NameAt segs i := by simp [NameAt]

theorem untaken_iff :
    (NameAt segs i ∧ ∀ j, ¬ Takes segs j i) ↔ NameAt segs i ∧ demand (segs.drop (i + 1)) = 0 :=
  and_congr_right fun hi => by rw [← not_exists, exists_takes_iff hi, not_not]

/-- **What remains are the names that nothing takes away**, in their order. -/
theorem exists_untaken (segs : List (List Point)) :
    ∃ positions, AreUntaken segs positions ∧
      remaining segs = positions.filterMap fun i => segs[i]? := by
  induction segs with
  | nil => exact ⟨[], ⟨.nil, fun i => by simp [NameAt]⟩, rfl⟩
  | cons s segs ih =>
      obtain ⟨positions, ⟨ordered, mem_iff⟩, hremaining⟩ := ih
      have ordered' : (positions.map (· + 1)).Pairwise (· < ·) :=
        ordered.map _ fun _ _ => Nat.succ_lt_succ
      have behind (i : Nat) : i + 1 ∈ positions.map (· + 1) ↔
          NameAt (s :: segs) (i + 1) ∧ ∀ j, ¬ Takes (s :: segs) j (i + 1) := by
        rw [untaken_iff, nameAt_succ, List.drop_succ_cons, ← untaken_iff, ← mem_iff]
        simp
      have looked : (positions.map (· + 1)).filterMap (fun i => (s :: segs)[i]?) =
          remaining segs := by
        rw [hremaining, List.filterMap_map]
        rfl
      by_cases hs : s ≠ up ∧ demand segs = 0
      · refine ⟨0 :: positions.map (· + 1), ⟨.cons (by simp) ordered', fun i => ?_⟩, ?_⟩
        · cases i with
          | zero => exact iff_of_true List.mem_cons_self (untaken_iff.mpr ⟨nameAt_zero.mpr hs.1, hs.2⟩)
          | succ i => rw [← behind, List.mem_cons, or_iff_right i.succ_ne_zero]
        · rw [remaining_kept hs.1 hs.2, List.filterMap_cons, looked]
          rfl
      · refine ⟨positions.map (· + 1), ⟨ordered', fun i => ?_⟩, ?_⟩
        · cases i with
          | zero =>
              refine iff_of_false (by simp) fun h => hs ?_
              obtain ⟨hname, hdemand⟩ := untaken_iff.mp h
              exact ⟨nameAt_zero.mp hname, hdemand⟩
          | succ i => exact behind i
        · rw [looked, remaining, if_neg hs]

/-! ### Normalising -/

/-- Something is left of segments if no `..` is left over and some name is. -/
theorem exists_resolve_iff :
    (∃ left, left ≠ [] ∧ resolve segs = some left) ↔
      (∀ l, l <+: segs → ups l ≤ names l) ∧ ups segs < names segs := by
  have hcount := length_remaining segs
  rw [← demand_eq_zero_iff]
  constructor
  · rintro ⟨left, hne, hres⟩
    obtain ⟨hdemand, rfl⟩ := resolve_eq_some_iff.mp hres
    have := List.length_pos_iff.mpr hne
    exact ⟨hdemand, by omega⟩
  · rintro ⟨hdemand, hmore⟩
    have hne : remaining segs ≠ [] := List.length_pos_iff.mp (by omega)
    exact ⟨_, hne, resolve_eq_some_iff.mpr ⟨hdemand, rfl⟩⟩

/-- A path is not absolute if it begins neither with a separator nor with a drive letter and a
colon. -/
theorem isAbsolute_eq_false_iff {cs : List Point} :
    isAbsolute cs = false ↔ (∀ c rest, cs = c :: rest → c ≠ .slash ∧ c ≠ .backslash) ∧
      ∀ c rest, cs = c :: Point.colon :: rest → isDriveLetter c = false := by
  match cs with
  | [] => simp [isAbsolute]
  | [c] => simp [isAbsolute, isSeparator]
  | c :: d :: rest =>
      by_cases hd : d = .colon
      · subst hd
        simp [isAbsolute, isSeparator]
      · simp [isAbsolute, isSeparator, hd]

/-- **Normalising matches brackets.**  It succeeds exactly if the path holds no NUL and is not absolute,
`..` never outnumber names from the beginning to any point, and there are more names than `..` in all.
Then the result is the join of the names that no `..` takes away, in their order; so it is not empty,
and it is cut at `/` into names. -/
theorem normalize_iff_brackets (p : Text) :
    ((∃ q, normalize p = .ok q) ↔
      Point.nul ∉ p.toList ∧
      ((∀ c rest, p.toList = c :: rest → c ≠ .slash ∧ c ≠ .backslash) ∧
        ∀ c rest, p.toList = c :: Point.colon :: rest → isDriveLetter c = false) ∧
      (∀ l, l <+: segments p.toList → ups l ≤ names l) ∧
        ups (segments p.toList) < names (segments p.toList)) ∧
    ∀ q, normalize p = .ok q →
      (∃ positions, AreUntaken (segments p.toList) positions ∧
        q = ⟨List.intercalate [Point.slash]
          (positions.filterMap fun i => (segments p.toList)[i]?)⟩) ∧
      q ≠ "" ∧
      ∀ s ∈ Text.pieces (· = Point.slash) q.toList,
        s ≠ [] ∧ s ≠ here ∧ s ≠ up ∧ Point.backslash ∉ s ∧ Point.nul ∉ s := by
  constructor
  · rw [← isAbsolute_eq_false_iff, ← exists_resolve_iff]
    constructor
    · rintro ⟨q, h⟩
      obtain ⟨hnul, habs, left, hne, hres, -⟩ := normalize_eq_ok_iff.mp h
      exact ⟨hnul, habs, left, hne, hres⟩
    · rintro ⟨hnul, habs, left, hne, hres⟩
      exact ⟨_, normalize_eq_ok_iff.mpr ⟨hnul, habs, left, hne, hres, rfl⟩⟩
  · intro q h
    obtain ⟨hnul, -, left, hne, hres, hq⟩ := normalize_eq_ok_iff.mp h
    have hnames (s : List Point) (hs : s ∈ left) : IsName s := isName_of_resolve hnul hres hs
    obtain ⟨positions, untaken, hpositions⟩ := exists_untaken (segments p.toList)
    obtain ⟨-, rfl⟩ := resolve_eq_some_iff.mp hres
    refine ⟨⟨positions, untaken, by rw [hq, ← hpositions]⟩, ?_, ?_⟩
    · rintro rfl
      obtain ⟨c, rest, hhead, -⟩ := head_of_isCanonical (isCanonical_of_normalize h)
      cases hhead
    · have hpieces : Text.pieces (· = Point.slash) q.toList = remaining (segments p.toList) := by
        rw [hq]
        refine Text.pieces_intercalate (by decide) hne fun s hs c hc => ?_
        have hfree := (hnames s hs).free c hc
        simp only [isSeparator, Bool.or_eq_false_iff] at hfree
        exact hfree.1
      rw [hpieces]
      intro s hs
      have name := hnames s hs
      exact ⟨name.ne_nil, name.ne_dot, name.ne_dots,
        fun hc => absurd (name.free _ hc) (by decide), name.noNul⟩

/-- Of the names of `a/b/../../c\.\d//e/..`, the first `..` takes away `b`, the second `a`, and the
third `e`.  In `a/../../b` the second `..` finds no name, though there are as many. -/
theorem nested_names_taken :
    normalize "a/b/../../c\\.\\d//e/.." = .ok "c/d" ∧
    (let segs := segments ("a/b/../../c\\.\\d//e/.." : Text).toList;
      Takes segs 2 1 ∧ Takes segs 3 0 ∧ Takes segs 7 6 ∧
      ∃ positions, AreUntaken segs positions ∧
        ("c/d" : Text) =
          ⟨List.intercalate [Point.slash] (positions.filterMap fun i => segs[i]?)⟩) ∧
    ¬ ∃ q, normalize "a/../../b" = .ok q := by
  have normal : normalize "a/b/../../c\\.\\d//e/.." = .ok "c/d" :=
    normalize_eq_ok_iff.mpr ⟨by decide +kernel, by decide +kernel, [['c'], ['d']], by decide,
      by decide +kernel, by decide +kernel⟩
  have segs : segments ("a/b/../../c\\.\\d//e/.." : Text).toList =
      ([['a'], ['b'], up, up, ['c'], ['d'], ['e'], up] : List (List Point)) := by decide +kernel
  refine ⟨normal, ⟨?_, ?_, ?_, ((normalize_iff_brackets _).2 _ normal).1⟩, fun h => ?_⟩
  · rw [segs]
    exact takes_iff_closes.mpr ⟨⟨_, rfl, by decide⟩, [], _, rfl, rfl, rfl, rfl⟩
  · rw [segs]
    exact takes_iff_closes.mpr ⟨⟨_, rfl, by decide⟩, [['b'], up], _, rfl, rfl, rfl, rfl⟩
  · rw [segs]
    exact takes_iff_closes.mpr ⟨⟨_, rfl, by decide⟩, [], _, rfl, rfl, rfl, rfl⟩
  · have grounded := ((normalize_iff_brackets _).1.mp h).2.2.1
    have segs' : segments ("a/../../b" : Text).toList =
        ([['a'], up, up, ['b']] : List (List Point)) := by decide +kernel
    rw [segs'] at grounded
    exact absurd (grounded [['a'], up, up] ⟨[['b']], rfl⟩) (by decide)

end ZipContainer.EntryPath
