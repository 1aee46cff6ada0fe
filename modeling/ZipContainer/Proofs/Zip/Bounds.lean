import Mathlib.Data.List.Pairwise
import ZipContainer.Zip.Directory

/-!
# End bounds

Dealing out bounds leaves the records and their order as they are (`map_fst_withBounds`).  Where the
records of a directory are in the order of their offsets, each of them is bounded by the one that is
listed next, and the last by the start of the directory (`withBounds_of_increasing`).

In general bounds are dealt out in falling order of the offsets, and in the order of the list where
these agree.  So that all records keep to their bounds comes to a condition on pairs of them, and on
those that no other begins behind (`keeps_withBounds_iff`).
-/

namespace ZipContainer.Zip

/-- A list is what sorting makes of any order of it, if it is strictly in order. -/
theorem mergeSort_eq {α : Type} {l l' : List α} {le : α → α → Bool}
    (trans : ∀ a b c, le a b → le b c → le a c) (total : ∀ a b, le a b || le b a)
    (perm : l'.Perm l) (strict : l'.Pairwise fun a b => le a b = true ∧ le b a = false) :
    l.mergeSort le = l' := by
  have apart : l'.Pairwise fun a b => ¬ (le a b = true ∧ le b a = true) := by
    refine strict.imp fun {a b} h h' => ?_
    rw [h.2] at h'
    exact Bool.noConfusion h'.2
  refine List.Perm.eq_of_pairwise ?_ (List.pairwise_mergeSort trans total l)
    (strict.imp And.left) ((List.mergeSort_perm l le).trans perm.symm)
  intro a b ha hb hab hba
  have ha' : a ∈ l' := perm.mem_iff.mpr (List.mem_mergeSort.mp ha)
  have symmetric : Std.Symm fun a b => ¬ (le a b = true ∧ le b a = true) :=
    ⟨fun _ _ h h' => h h'.symm⟩
  by_contra hne
  exact apart.forall ha' hb hne ⟨hab, hba⟩

/-- Relations that agree where a third one holds hold of the same lists that are in its order. -/
theorem pairwise_congr {α : Type} {R S S' : α → α → Prop} {l : List α} (ordered : l.Pairwise R)
    (agree : ∀ {a b}, R a b → (S a b ↔ S' a b)) : l.Pairwise S ↔ l.Pairwise S' :=
  ⟨fun h => (ordered.and h).imp fun h => (agree h.1).mp h.2,
    fun h => (ordered.and h).imp fun h => (agree h.1).mpr h.2⟩

/-- The records with their indices, in the order in which bounds are dealt out. -/
def fallingOrder (records : List Record) : List (Record × Nat) :=
  records.zipIdx.mergeSort fun a b => b.1.offset ≤ a.1.offset

/-! ### Chains -/

theorem chainBounds_cons (bound : Int) (x : Record × Nat) (falling : List (Record × Nat)) :
    chainBounds bound (x :: falling) = ((x.1, bound), x.2) :: chainBounds x.1.offset falling := by
  simp [chainBounds]

/-- The record at the end of a chain is bounded by the one before it. -/
theorem chainBounds_concat (bound : Int) (falling : List (Record × Nat)) (x : Record × Nat) :
    chainBounds bound (falling ++ [x]) =
      chainBounds bound falling ++
        [((x.1, falling.foldl (fun _ y => y.1.offset) bound), x.2)] := by
  induction falling generalizing bound with
  | nil => simp [chainBounds]
  | cons y falling ih =>
      rw [List.cons_append, chainBounds_cons, chainBounds_cons, ih, List.foldl_cons,
        List.cons_append]

/-- A chain holds the records that it was made of. -/
theorem map_chainBounds (bound : Int) (falling : List (Record × Nat)) :
    (chainBounds bound falling).map (fun x => (x.1.1, x.2)) = falling := by
  induction falling generalizing bound with
  | nil => rfl
  | cons x falling ih => rw [chainBounds_cons, List.map_cons, ih]

/-- The records of a chain keep their indices. -/
theorem map_snd_chainBounds (bound : Int) (falling : List (Record × Nat)) :
    (chainBounds bound falling).map Prod.snd = falling.map Prod.snd := by
  have indices := congrArg (List.map Prod.snd) (map_chainBounds bound falling)
  rw [List.map_map] at indices
  exact indices

theorem indices_increasing {α : Type} (l : List α) :
    (l.zipIdx.map Prod.snd).Pairwise (· < ·) := by
  rw [List.zipIdx_map_snd]
  exact List.pairwise_lt_range'

/-- **Bounds are dealt out without changing the records or their order.** -/
theorem map_fst_withBounds (start : Int) (records : List Record) :
    (withBounds start records).map Prod.fst = records := by
  have sorted : (fallingOrder records).mergeSort (fun a b => decide (a.2 ≤ b.2)) =
      records.zipIdx := by
    refine mergeSort_eq ?_ ?_ (List.mergeSort_perm _ _).symm ?_
    · simp only [decide_eq_true_eq]
      omega
    · simp only [Bool.or_eq_true, decide_eq_true_eq]
      omega
    · refine (List.pairwise_map.mp (indices_increasing records)).imp fun {a b} hab => ?_
      simp only [decide_eq_true_eq, decide_eq_false_iff_not]
      omega
  have restored : ((chainBounds start (fallingOrder records)).mergeSort fun a b =>
      decide (a.2 ≤ b.2)).map (fun x => (x.1.1, x.2)) = records.zipIdx := by
    -- Sorting looks at the indices only, so it is the same before and after the bounds are dropped.
    rw [List.map_mergeSort (s := fun a b : Record × Nat => decide (a.2 ≤ b.2))
      (fun _ _ _ _ => rfl), map_chainBounds, sorted]
  have records_of := congrArg (List.map Prod.fst) restored
  rw [List.map_map, List.zipIdx_map_fst] at records_of
  rw [withBounds, List.map_map]
  exact records_of

/-! ### Records in order -/

/-- The records, each with the offset of the next as its bound, and the last with that of the
directory. -/
def nextBounds (start : Int) : List Record → List (Record × Int)
  | [] => []
  | r :: rs => (r, (rs.head?.map Record.offset).getD start) :: nextBounds start rs

theorem map_chainBounds_reverse (start : Int) (records : List Record) (k : Nat) :
    ((chainBounds start (records.zipIdx k).reverse).reverse).map Prod.fst =
      nextBounds start records := by
  induction records generalizing k with
  | nil => rfl
  | cons r rs ih =>
      rw [List.zipIdx_cons, List.reverse_cons, chainBounds_concat, List.reverse_append,
        List.map_append, ih, nextBounds, List.foldl_reverse]
      cases rs <;> rfl

/-- **Records in the order of their offsets are bounded by the next.** -/
theorem withBounds_of_increasing (start : Int) {records : List Record}
    (h : records.Pairwise fun a b => a.offset < b.offset) :
    withBounds start records = nextBounds start records := by
  have rising : records.zipIdx.Pairwise fun a b => a.1.offset < b.1.offset := by
    rw [← List.zipIdx_map_fst 0 records, List.pairwise_map] at h
    exact h
  -- Bounds are dealt out from the last offset to the first, and then put back by index.
  have falling : (records.zipIdx.mergeSort fun a b => b.1.offset ≤ a.1.offset) =
      records.zipIdx.reverse := by
    refine mergeSort_eq ?_ ?_ (List.reverse_perm _) ?_
    · simp only [decide_eq_true_eq]
      omega
    · simp only [Bool.or_eq_true, decide_eq_true_eq]
      omega
    · rw [List.pairwise_reverse]
      refine rising.imp fun {a b} hab => ?_
      simp only [decide_eq_true_eq, decide_eq_false_iff_not]
      omega
  have order : (chainBounds start records.zipIdx.reverse).mergeSort (fun a b => a.2 ≤ b.2) =
      (chainBounds start records.zipIdx.reverse).reverse := by
    refine mergeSort_eq ?_ ?_ (List.reverse_perm _) ?_
    · simp only [decide_eq_true_eq]
      omega
    · simp only [Bool.or_eq_true, decide_eq_true_eq]
      omega
    · have indices : (chainBounds start records.zipIdx.reverse).reverse.map Prod.snd =
          records.zipIdx.map Prod.snd := by
        rw [List.map_reverse, map_snd_chainBounds, List.map_reverse, List.reverse_reverse]
      have increasing := indices_increasing records
      rw [← indices, List.pairwise_map] at increasing
      refine increasing.imp fun {a b} hab => ?_
      simp only [decide_eq_true_eq, decide_eq_false_iff_not]
      omega
  simp only [withBounds, falling, order, map_chainBounds_reverse]

/-! ### Records in any order -/

/-- One record comes before another where bounds are dealt out: it is said to begin behind it, or at
the same place and is listed first. -/
def Falls (x y : Record × Nat) : Prop :=
  y.1.offset < x.1.offset ∨ y.1.offset = x.1.offset ∧ x.2 < y.2

/-- Sorting by offset is stable. -/
theorem pairwise_fallingOrder (records : List Record) :
    (fallingOrder records).Pairwise Falls := by
  let le (a b : Record × Nat) : Bool := decide (b.1.offset ≤ a.1.offset)
  have trans : ∀ a b c, le a b → le b c → le a c := by
    simp only [le, decide_eq_true_eq]
    omega
  have total : ∀ a b, le a b || le b a := by
    simp only [le, Bool.or_eq_true, decide_eq_true_eq]
    omega
  -- It is sorting by offset and then by place, and the index of a record is its place.
  rw [fallingOrder, ← List.mergeSort_zipIdx, List.pairwise_map]
  have sorted := List.pairwise_mergeSort (List.zipIdxLE_trans trans) (List.zipIdxLE_total total)
    records.zipIdx.zipIdx
  have distinct := (List.mergeSort_perm records.zipIdx.zipIdx (List.zipIdxLE le)).symm.pairwise
    ((List.pairwise_map.mp (indices_increasing records.zipIdx)).imp Nat.ne_of_lt) Ne.symm
  have place : ∀ x ∈ records.zipIdx.zipIdx, x.1.2 = x.2 := by
    intro x hx
    obtain ⟨_, hx⟩ := List.mem_zipIdx' hx
    simpa using congrArg Prod.snd hx
  refine (sorted.and distinct).imp_of_mem fun {x y} hx hy ⟨hle, hne⟩ => ?_
  have hx := place x (List.mem_mergeSort.mp hx)
  have hy := place y (List.mem_mergeSort.mp hy)
  simp only [List.zipIdxLE, le, decide_eq_true_eq] at hle
  unfold Falls
  split at hle
  · split at hle
    · simp only [decide_eq_true_eq] at hle
      omega
    · omega
  · cases hle

section

variable {E : Record → Int → Prop} {start : Int} {records : List Record}

/-- Records in falling order keep to their bounds if each keeps to the offsets of all before it. -/
theorem keeps_chainBounds_iff (mono : ∀ {r a b}, E r a → a ≤ b → E r b) {bound : Int}
    {l : List (Record × Nat)} (sorted : l.Pairwise Falls) :
    (∀ y ∈ chainBounds bound l, E y.1.1 y.1.2) ↔
      (∀ y ∈ l.head?, E y.1 bound) ∧ l.Pairwise fun x y => E y.1 x.1.offset := by
  induction l generalizing bound with
  | nil => simp [chainBounds]
  | cons x l ih =>
      obtain ⟨before, sorted⟩ := List.pairwise_cons.mp sorted
      -- The record behind `x` is bounded by the offset of `x`, and so are all that keep to its own.
      have all : (∀ y ∈ l.head?, E y.1 x.1.offset) ∧ (l.Pairwise fun x y => E y.1 x.1.offset) ↔
          (∀ y ∈ l, E y.1 x.1.offset) ∧ l.Pairwise fun x y => E y.1 x.1.offset := by
        refine and_congr_left fun rest => ?_
        cases l with
        | nil => simp
        | cons z l =>
            have hz : z.1.offset ≤ x.1.offset := by
              rcases before z List.mem_cons_self with h | h <;> omega
            simp only [List.head?_cons, Option.mem_some_iff, forall_eq', List.forall_mem_cons]
            refine ⟨fun h => ⟨h, fun y hy => ?_⟩, And.left⟩
            exact mono ((List.pairwise_cons.mp rest).1 y hy) hz
      rw [chainBounds_cons, List.forall_mem_cons, ih sorted, all, List.pairwise_cons,
        List.head?_cons]
      simp

/-- Of two records, the one that is said to begin first keeps to the offset of the other; where both
begin at one place, the one that is listed last does. -/
def KeepsOff (E : Record → Int → Prop) (r r' : Record) : Prop :=
  if r.offset < r'.offset then E r r'.offset else E r' r.offset

/-- What holds of all pairs in falling order can be said in the order of the list. -/
theorem keepsOff_fallingOrder_iff :
    ((fallingOrder records).Pairwise fun x y => E y.1 x.1.offset) ↔
      records.Pairwise (KeepsOff E) := by
  let S (x y : Record × Nat) : Prop :=
    (Falls x y → E y.1 x.1.offset) ∧ (Falls y x → E x.1 y.1.offset)
  have inOrder : ∀ {x y}, Falls x y → (E y.1 x.1.offset ↔ S x y) := by
    intro x y hxy
    have hyx : ¬ Falls y x := by unfold Falls at hxy ⊢; omega
    exact ⟨fun e => ⟨fun _ => e, fun h => absurd h hyx⟩, fun s => s.1 hxy⟩
  have listed : ∀ {x y : Record × Nat}, x.2 < y.2 → (S x y ↔ KeepsOff E x.1 y.1) := by
    intro x y h
    unfold KeepsOff
    split
    · have hyx : Falls y x := by unfold Falls; omega
      exact Iff.trans and_comm (inOrder hyx).symm
    · have hxy : Falls x y := by unfold Falls; omega
      exact (inOrder hxy).symm
  calc
    _ ↔ (fallingOrder records).Pairwise S := pairwise_congr (pairwise_fallingOrder records) inOrder
    _ ↔ records.zipIdx.Pairwise S := (List.mergeSort_perm _ _).pairwise_iff And.symm
    _ ↔ records.zipIdx.Pairwise fun x y => KeepsOff E x.1 y.1 :=
      pairwise_congr (List.pairwise_map.mp (indices_increasing records)) listed
    _ ↔ records.Pairwise (KeepsOff E) := by rw [← List.pairwise_map, List.zipIdx_map_fst]

theorem mem_fallingOrder_iff {r : Record} :
    (∃ y ∈ fallingOrder records, y.1 = r) ↔ r ∈ records := by
  have perm : (fallingOrder records).Perm records.zipIdx := List.mergeSort_perm _ _
  have same := (perm.map Prod.fst).mem_iff (a := r)
  rw [List.zipIdx_map_fst, List.mem_map] at same
  exact same

/-- The first in falling order is one that no other begins behind, and any such record keeps to a
position if the first does. -/
theorem keeps_head_iff (mono : ∀ {r a b}, E r a → a ≤ b → E r b)
    (proper : ∀ r ∈ records, E r r.offset → ∀ pos, E r pos)
    (apart : records.Pairwise (KeepsOff E)) :
    (∀ y ∈ (fallingOrder records).head?, E y.1 start) ↔
      ∀ r ∈ records, (∀ r' ∈ records, r'.offset ≤ r.offset) → E r start := by
  have pairs := keepsOff_fallingOrder_iff.mpr apart
  have sorted := pairwise_fallingOrder records
  have mem {r : Record} : (∃ y ∈ fallingOrder records, y.1 = r) ↔ r ∈ records :=
    mem_fallingOrder_iff
  cases h : fallingOrder records with
  | nil =>
      have none : ∀ r, r ∉ records := fun r hr => by
        obtain ⟨y, hy, -⟩ := mem.mpr hr
        rw [h] at hy
        cases hy
      exact ⟨fun _ r hr => absurd hr (none r), fun _ => nofun⟩
  | cons x l =>
      rw [h] at pairs sorted
      simp only [h, List.mem_cons, exists_eq_or_imp] at mem
      simp only [List.head?_cons, Option.mem_some_iff, forall_eq']
      constructor
      · intro first r hr last
        rcases mem.mpr hr with rfl | ⟨y, hy, rfl⟩
        · exact first
        · -- The first begins at the same place then, and keeping off it says nothing of bounds.
          have keeps : E y.1 x.1.offset := (List.pairwise_cons.mp pairs).1 y hy
          exact proper y.1 hr (mono keeps (last x.1 (mem.mp (.inl rfl)))) start
      · intro last
        refine last x.1 (mem.mp (.inl rfl)) fun r' hr' => ?_
        rcases mem.mpr hr' with rfl | ⟨y, hy, rfl⟩
        · exact Int.le_refl _
        · rcases (List.pairwise_cons.mp sorted).1 y hy with h | h <;> omega

/-- **When records keep to their bounds**: of any two, one keeps off the other, and one that no
other begins behind keeps to the start of the directory. -/
theorem keeps_withBounds_iff (mono : ∀ {r a b}, E r a → a ≤ b → E r b)
    (proper : ∀ r ∈ records, E r r.offset → ∀ pos, E r pos) :
    (∀ m ∈ withBounds start records, E m.1 m.2) ↔ records.Pairwise (KeepsOff E) ∧
      ∀ r ∈ records, (∀ r' ∈ records, r'.offset ≤ r.offset) → E r start := by
  have chain : (∀ m ∈ withBounds start records, E m.1 m.2) ↔
      ∀ y ∈ chainBounds start (fallingOrder records), E y.1.1 y.1.2 := by
    simp only [withBounds, List.forall_mem_map, List.mem_mergeSort]
    rfl
  rw [chain, keeps_chainBounds_iff (E := E) mono (pairwise_fallingOrder records),
    keepsOff_fallingOrder_iff, and_comm]
  exact and_congr_right (keeps_head_iff mono proper)

end

end ZipContainer.Zip
