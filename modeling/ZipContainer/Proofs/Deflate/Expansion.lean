import ZipContainer.Proofs.Deflate.Arriving

/-!
# How far deflate data expand

Every item of a stream takes bits, and none spells more than 129 bytes for each of them: a copy
spells 258 bytes at most and takes a bit for its length and one for its distance.  The header of a
block takes bits and spells nothing.  A state that decoding comes to keeps this account (`Paced`),
since each step does (`step_paced`).

`inflate_bounded` bounds the output by the size of the data, and `inflate_not_full` says that with
the bound as the budget the output never runs full.
-/

namespace ZipContainer.Deflate

variable {src : ByteArray} {s e : State} {budget pos pos' : Nat}

/-! ### Bits -/

theorem bit?_within {b : Bool} (h : bit? src pos = some b) : pos < 8 * src.size := by
  unfold bit? at h
  split at h
  · omega
  · cases h

theorem bits?_within {n v : Nat} (h : bits? src pos n = some v) (hpos : pos ≤ 8 * src.size) :
    pos + n ≤ 8 * src.size ∧ v < 2 ^ n := by
  induction n generalizing pos v with
  | zero =>
      cases h
      exact ⟨hpos, Nat.one_pos⟩
  | succ n ih =>
      simp only [bits?] at h
      split at h
      · next b r hb hr =>
          cases h
          have hone := bit?_within hb
          obtain ⟨hrest, hr⟩ := ih hr hone
          have := b.toNat_lt
          rw [Nat.pow_succ]
          exact ⟨by omega, by omega⟩
      · cases h

/-- The tree has a bit at least for every symbol. -/
def PrefixTree.Branches (t : PrefixTree) : Prop := ∃ zero one, t = .node zero one

theorem walk_within {t : PrefixTree} {symbol : Nat} (h : t.walk src pos = .ok (symbol, pos'))
    (hpos : pos ≤ 8 * src.size) : pos ≤ pos' ∧ pos' ≤ 8 * src.size := by
  induction t generalizing pos with
  | dead => cases h
  | leaf _ => cases h; exact ⟨Nat.le_refl _, hpos⟩
  | node zero one ihZero ihOne =>
      simp only [PrefixTree.walk] at h
      split at h
      · cases h
      · next b hb =>
          have hone := bit?_within hb
          cases b with
          | false => have := ihZero h hone; omega
          | true => have := ihOne h hone; omega

/-- A walk through a tree that branches takes a bit. -/
theorem PrefixTree.Branches.walk_lt {t : PrefixTree} {symbol : Nat} (ht : t.Branches)
    (h : t.walk src pos = .ok (symbol, pos')) : pos < pos' ∧ pos' ≤ 8 * src.size := by
  obtain ⟨zero, one, rfl⟩ := ht
  simp only [PrefixTree.walk] at h
  split at h
  · cases h
  · next b hb =>
      have hone := bit?_within hb
      cases b with
      | false => exact walk_within h hone
      | true => exact walk_within h hone

theorem readExtra_within {entry : Nat × Nat} {n : Nat}
    (h : readExtra src pos entry = .ok (n, pos')) (hpos : pos ≤ 8 * src.size) :
    n < entry.1 + 2 ^ entry.2 ∧ pos ≤ pos' ∧ pos' ≤ 8 * src.size := by
  unfold readExtra at h
  split at h
  · next v hv =>
      cases h
      have := bits?_within hv hpos
      omega
  · cases h

/-! ### Codes -/

theorem canonical_branches (lengths : List Nat) : (PrefixTree.canonical lengths).Branches := by
  unfold PrefixTree.canonical
  generalize PrefixTree.levels lengths PrefixTree.maxLength 1 = ts
  match ts with
  | [] => exact ⟨_, _, rfl⟩
  | [t] => exact ⟨_, _, rfl⟩
  | a :: b :: r => exact ⟨_, _, rfl⟩

/-- Both codes have a bit at least for every symbol. -/
structure Codes.Branch (codes : Codes) : Prop where
  literal : codes.literal.Branches
  distance : codes.distance.Branches

theorem fixedCodes_branch : fixedCodes.Branch where
  literal := canonical_branches fixedLiteralLengths
  distance := canonical_branches fixedDistanceLengths

theorem readLengths_within {tree : PrefixTree} {total fuel : Nat} {acc lengths : List Nat}
    (h : readLengths src tree total fuel pos acc = .ok (lengths, pos'))
    (hpos : pos ≤ 8 * src.size) : pos ≤ pos' ∧ pos' ≤ 8 * src.size := by
  induction fuel generalizing pos acc with
  | zero => cases h; exact ⟨Nat.le_refl _, hpos⟩
  | succ fuel ih =>
      unfold readLengths at h
      split at h
      · cases h; exact ⟨Nat.le_refl _, hpos⟩
      cases hw : tree.walk src pos with
      | error why => rw [hw] at h; cases h
      | ok w =>
          obtain ⟨symbol, after⟩ := w
          rw [hw] at h
          have walked := walk_within hw hpos
          simp only [bind, Except.bind] at h
          split at h
          · have := ih h walked.2
            omega
          cases he : bits? src after (repeatRule symbol).1 with
          | none => simp only [he] at h; cases h
          | some e =>
              simp only [he] at h
              have extra := bits?_within he walked.2
              split at h
              · cases h
              split at h
              · cases h
              · have := ih h extra.1
                omega

theorem readTriples_within {n : Nat} {r : List Nat} (h : readTriples src n pos = some r)
    (hpos : pos ≤ 8 * src.size) : pos + 3 * n ≤ 8 * src.size := by
  induction n generalizing pos r with
  | zero => exact hpos
  | succ n ih =>
      simp only [readTriples] at h
      split at h
      · next v r hv hr =>
          have := ih hr (bits?_within hv hpos).1
          omega
      · cases h

theorem readCodes_within {codes : Codes} (h : readCodes src pos = .ok (codes, pos'))
    (hpos : pos ≤ 8 * src.size) : codes.Branch ∧ pos ≤ pos' ∧ pos' ≤ 8 * src.size := by
  unfold readCodes at h
  split at h
  · next l d c hl hd hc =>
      have counts := (bits?_within hc (bits?_within hd (bits?_within hl hpos).1).1).1
      dsimp only at h
      split at h
      · cases h
      cases ht : readTriples src (c + 4) (pos + 14) with
      | none => simp only [ht] at h; cases h
      | some stated =>
          have triples := readTriples_within ht counts
          simp only [ht] at h
          cases hcode : lengthCode stated with
          | error why => rw [hcode] at h; cases h
          | ok tree =>
              rw [hcode] at h
              simp only [bind, Except.bind] at h
              split at h
              · cases h
              · next lengths hlengths =>
                  have read := readLengths_within hlengths triples
                  split at h
                  · cases h
                  split at h
                  · cases h
                  · cases h
                    refine ⟨⟨canonical_branches _, canonical_branches _⟩, ?_, read.2⟩
                    omega
  · cases h

/-! ### Items -/

/-- The greatest length that a copy is stated to have. -/
theorem lengthTable_le : ∀ entry ∈ lengthTable, entry.1 + 2 ^ entry.2 ≤ 259 := by decide

/-- How many bytes an item spells. -/
def Item.spelled : Item → Nat
  | .literal _ => 1
  | .copy length _ => length
  | .endOfBlock => 0

/-- **An item takes a bit for every 129 bytes that it spells**, and one at least. -/
theorem readItem_within {codes : Codes} {item : Item} (hcodes : codes.Branch)
    (h : readItem src pos codes = .ok (item, pos')) :
    item.spelled ≤ 129 * (pos' - pos) ∧ pos < pos' ∧ pos' ≤ 8 * src.size := by
  unfold readItem at h
  cases hw : codes.literal.walk src pos with
  | error why => rw [hw] at h; cases h
  | ok w =>
      obtain ⟨symbol, after⟩ := w
      rw [hw] at h
      have walked := hcodes.literal.walk_lt hw
      simp only [bind, Except.bind] at h
      split at h
      · cases h
        simp only [Item.spelled]
        omega
      split at h
      · cases h
        simp only [Item.spelled]
        omega
      split at h
      · cases h
      next entry hentry =>
      have longest := lengthTable_le entry (List.mem_of_getElem? hentry)
      split at h
      · cases h
      next length hlength =>
      have extra := readExtra_within hlength walked.2
      split at h
      · cases h
      next far hfar =>
      have walked' := hcodes.distance.walk_lt hfar
      split at h
      · cases h
      next entry' hentry' =>
      split at h
      · cases h
      next distance hdistance =>
      have extra' := readExtra_within hdistance walked'.2
      cases h
      simp only [Item.spelled]
      omega

theorem size_copyBack (distance n : Nat) (out : ByteArray) :
    (copyBack distance n out).size = out.size + n := by
  induction n generalizing out with
  | zero => rfl
  | succ n ih => rw [copyBack, ih, ByteArray.size_push, Nat.add_assoc, Nat.add_comm 1]

/-! ### Steps -/

/-- What is known of the block that is open: its header took bits and spelled nothing, stored bytes
begin at a byte, and codes have a bit at least for every symbol. -/
def Block.Opened (s : State) : Block → Prop
  | .none => True
  | .stored _ => s.out.size + 129 ≤ 129 * s.pos ∧ s.pos % 8 = 0
  | .coded codes => s.out.size + 129 ≤ 129 * s.pos ∧ codes.Branch

/-- The output keeps pace with the bits that are read. -/
structure Paced (src : ByteArray) (s : State) : Prop where
  within : s.pos ≤ 8 * src.size
  size : s.out.size ≤ 129 * s.pos
  opened : s.block.Opened s

/-- A state that decoding goes on from keeps pace.  One that it stops in is within the bound, and
has room below it if the output was full. -/
def Progress.Paced (src : ByteArray) (budget : Nat) : Progress → Prop
  | .next s => Deflate.Paced src s
  | .stop e why => e.out.size ≤ 1032 * src.size ∧ (why = .full → budget < 1032 * src.size)

theorem Paced.bound (h : Paced src s) : s.out.size ≤ 1032 * src.size := by
  have := h.within
  have := h.size
  omega

/-- Stopping leaves the output as it was. -/
theorem Paced.stop {why : Stop} (h : Paced src s) (hout : e.out = s.out) (hwhy : why ≠ .full) :
    (Progress.stop e why).Paced src budget :=
  ⟨by rw [hout]; exact h.bound, fun hfull => absurd hfull hwhy⟩

theorem closeBlock_paced (hwithin : s.pos ≤ 8 * src.size) (hsize : s.out.size ≤ 129 * s.pos) :
    (closeBlock s).Paced src budget := by
  unfold closeBlock
  split
  · exact ⟨by dsimp only; omega, nofun⟩
  · exact ⟨hwithin, hsize, trivial⟩

theorem openBlock_paced (h : Paced src s) : (openBlock src s).Paced src budget := by
  have pace := h.size
  unfold openBlock
  split
  · next last kind hl hk =>
      have header := (bits?_within hk (bits?_within hl h.within).1).1
      dsimp only
      split
      · split
        · next len check hn hc =>
            have aligned : alignUp (s.pos + 3) ≤ 8 * src.size := by
              unfold alignUp
              omega
            have lengths := (bits?_within hc (bits?_within hn aligned).1).1
            have later : s.pos + 3 ≤ alignUp (s.pos + 3) := by
              unfold alignUp
              omega
            split
            · exact h.stop rfl nofun
            split
            · exact closeBlock_paced (by dsimp only; omega) (by dsimp only; omega)
            · refine ⟨by dsimp only; omega, by dsimp only; omega, by dsimp only; omega, ?_⟩
              dsimp only
              unfold alignUp
              omega
        · exact h.stop rfl nofun
      · exact ⟨by dsimp only; omega, by dsimp only; omega, by dsimp only; omega, fixedCodes_branch⟩
      · split
        · next codes after hcodes =>
            obtain ⟨hbranch, hle, hwithin⟩ := readCodes_within hcodes (by omega)
            exact ⟨hwithin, by dsimp only; omega, by dsimp only; omega, hbranch⟩
        · next why hwhy =>
            refine h.stop rfl ?_
            rintro rfl
            exact (readCodes_append src ByteArray.empty (s.pos + 3)).ne_full hwhy
      · exact h.stop rfl nofun
  · exact h.stop rfl nofun

theorem copyStored_paced {left : Nat} (h : Paced src s) (hopen : (Block.stored left).Opened s) :
    (copyStored src budget s left).Paced src budget := by
  obtain ⟨hroom, haligned⟩ := hopen
  have within := h.within
  unfold copyStored
  split
  · exact ⟨h.bound, fun _ => by omega⟩
  split
  · have taken : s.pos + 8 ≤ 8 * src.size := by omega
    dsimp only
    split
    · exact closeBlock_paced taken (by dsimp only; rw [ByteArray.size_push]; omega)
    · refine ⟨taken, ?_, ?_, by dsimp only; omega⟩ <;>
        (dsimp only; rw [ByteArray.size_push]; omega)
  · exact h.stop rfl nofun

theorem applyItem_paced {codes : Codes} {item : Item} (h : Paced src s)
    (hblock : s.block = .coded codes) (hcodes : codes.Branch)
    (hroom : s.out.size + 129 ≤ 129 * s.pos) (hlater : s.pos < pos) (hwithin : pos ≤ 8 * src.size)
    (hspelled : item.spelled ≤ 129 * (pos - s.pos)) :
    (applyItem budget s item pos).Paced src budget := by
  cases item with
  | literal b =>
      simp only [Item.spelled] at hspelled
      have pushed : (s.out.push b).size + 129 ≤ 129 * pos := by
        rw [ByteArray.size_push]
        omega
      refine ⟨hwithin, by dsimp only; omega, ?_⟩
      simp only [hblock, Block.Opened]
      exact ⟨pushed, hcodes⟩
  | endOfBlock => exact closeBlock_paced hwithin (by dsimp only; omega)
  | copy length distance =>
      simp only [Item.spelled] at hspelled
      have copied : (copyBack distance length s.out).size + 129 ≤ 129 * pos := by
        rw [size_copyBack]
        omega
      simp only [applyItem]
      split
      · refine ⟨hwithin, by dsimp only; omega, ?_⟩
        simp only [hblock, Block.Opened]
        exact ⟨copied, hcodes⟩
      · refine ⟨h.bound, fun hfull => ?_⟩
        split at hfull
        · omega
        · cases hfull

/-- **A step keeps pace.** -/
theorem step_paced (h : Paced src s) : (step src budget s).Paced src budget := by
  have opened := h.opened
  unfold step
  cases hblock : s.block with
  | none => exact openBlock_paced h
  | stored left =>
      rw [hblock] at opened
      exact copyStored_paced h opened
  | coded codes =>
      rw [hblock] at opened
      obtain ⟨hroom, hcodes⟩ := opened
      dsimp only
      split
      · next item after hitem =>
          obtain ⟨hspelled, hlater, hwithin⟩ := readItem_within hcodes hitem
          exact applyItem_paced h hblock hcodes hroom hlater hwithin hspelled
      · next why hwhy =>
          refine h.stop rfl ?_
          rintro rfl
          exact (readItem_append src ByteArray.empty s.pos codes).ne_full hwhy

/-! ### Runs -/

/-- **What a run spells is bounded by the size of the data**, and it only runs full within a budget
below that bound. -/
theorem run_bounded (fuel : Nat) (h : Paced src s) :
    (run src budget fuel s).1.out.size ≤ 1032 * src.size ∧
      ((run src budget fuel s).2 = .full → budget < 1032 * src.size) := by
  induction fuel generalizing s with
  | zero => exact ⟨h.bound, nofun⟩
  | succ fuel ih =>
      have bound := h.bound
      by_cases hfull : budget < s.out.size
      · rw [run_full hfull]
        exact ⟨bound, fun _ => by omega⟩
      rw [run_succ hfull]
      have stepped : (step src budget s).Paced src budget := step_paced h
      cases hs : step src budget s with
      | next s' => rw [hs] at stepped; exact ih stepped
      | stop e why => rw [hs] at stepped; exact stepped

theorem start_paced (src : ByteArray) : Paced src .start where
  within := Nat.zero_le _
  size := Nat.zero_le _
  opened := trivial

/-- **Data unpack to 1032 times their size at most.** -/
theorem inflate_bounded (src : ByteArray) (budget : Nat) :
    (inflate src budget).output.size ≤ 1032 * src.size :=
  (run_bounded (8 * src.size + 1) (start_paced src)).1

/-- Within that many bytes the output never runs full. -/
theorem inflate_not_full (h : 1032 * src.size ≤ budget) : (inflate src budget).why ≠ .full :=
  fun hfull => Nat.not_lt.mpr h ((run_bounded (8 * src.size + 1) (start_paced src)).2 hfull)

end ZipContainer.Deflate
