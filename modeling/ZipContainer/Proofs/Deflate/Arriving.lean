import ZipContainer.Deflate.Inflate
import ZipContainer.Proofs.Unpacking.Arriving

/-!
# Decoding what has arrived

A reader decodes a stream again and again, each time with more of its data and with a greater
budget.  Here is how two such runs compare.

* `step_append`: with more data a step does the same, unless it starved.
* `step_budget`: with a greater budget a step does the same, unless the output was full.
* `run_grows`: the output of a run only grows.
* `run_arriving`: with more data, a greater budget and more fuel, a run that came to the end of the
  stream or met corrupt data does so again with the same output; one that starved or was full goes
  on from where it was.
* `run_budget`: over the same data, only a full run depends on the budget.
* `run_resumes`: a run that was full while bytes were left unread adds to its output as soon as the
  budget grows.

`inflate_arriving`, `inflate_budget` and `inflate_resumes` say the same of whole decodings.
-/

namespace ZipContainer.Deflate

variable {α β : Type} {src rest : ByteArray} {s s' : State} {budget budget' fuel fuel' pos : Nat}

/-! ### More data -/

theorem bit?_append {b : Bool} (h : bit? src pos = some b) :
    bit? (src ++ rest) pos = some b := by
  unfold bit? at h ⊢
  split at h
  · next hlt =>
      rw [dif_pos (by simp only [ByteArray.size_append]; omega),
        ByteArray.getElem_append_left hlt]
      exact h
  · cases h

theorem bits?_append {n v : Nat} (h : bits? src pos n = some v) :
    bits? (src ++ rest) pos n = some v := by
  induction n generalizing pos v with
  | zero => exact h
  | succ n ih =>
      simp only [bits?] at h ⊢
      split at h
      · next b r hb hr => rw [bit?_append hb, ih hr]; exact h
      · cases h

theorem walk_append (tree : PrefixTree) (pos : Nat) :
    Settles (tree.walk src pos) (tree.walk (src ++ rest) pos) := by
  induction tree generalizing pos with
  | dead => exact .corrupt
  | leaf symbol => exact .ok _
  | node zero one ihZero ihOne =>
      simp only [PrefixTree.walk]
      cases hb : bit? src pos with
      | none => exact .starved _
      | some b =>
          rw [bit?_append hb]
          cases b with
          | false => exact ihZero _
          | true => exact ihOne _

theorem readExtra_append (pos : Nat) (entry : Nat × Nat) :
    Settles (readExtra src pos entry) (readExtra (src ++ rest) pos entry) := by
  unfold readExtra
  cases he : bits? src pos entry.2 with
  | none => exact .starved _
  | some e => rw [bits?_append he]; exact .ok _

theorem readItem_append (src rest : ByteArray) (pos : Nat) (codes : Codes) :
    Settles (readItem src pos codes) (readItem (src ++ rest) pos codes) := by
  refine (walk_append codes.literal pos).bind fun ⟨symbol, pos⟩ => ?_
  dsimp only
  split
  · exact .ok _
  split
  · exact .ok _
  split
  · exact .corrupt
  refine (readExtra_append pos _).bind fun ⟨length, pos⟩ => ?_
  refine (walk_append codes.distance pos).bind fun ⟨symbol, pos⟩ => ?_
  dsimp only
  split
  · exact .corrupt
  exact (readExtra_append pos _).bind fun _ => .ok _

theorem readTriples_append {n : Nat} {r : List Nat} (h : readTriples src n pos = some r) :
    readTriples (src ++ rest) n pos = some r := by
  induction n generalizing pos r with
  | zero => exact h
  | succ n ih =>
      simp only [readTriples] at h ⊢
      split at h
      · next v r hv hr => rw [bits?_append hv, ih hr]; exact h
      · cases h

theorem readLengths_append (tree : PrefixTree) (total fuel pos : Nat) (acc : List Nat) :
    Settles (readLengths src tree total fuel pos acc)
      (readLengths (src ++ rest) tree total fuel pos acc) := by
  induction fuel generalizing pos acc with
  | zero => exact .ok _
  | succ fuel ih =>
      simp only [readLengths]
      split
      · exact .ok _
      refine (walk_append tree pos).bind fun ⟨symbol, pos⟩ => ?_
      dsimp only
      split
      · exact ih _ _
      cases he : bits? src pos (repeatRule symbol).1 with
      | none => exact .starved _
      | some e =>
          rw [bits?_append he]
          dsimp only
          split
          · exact .corrupt
          · split
            · exact .corrupt
            · exact ih _ _

theorem lengthCode_settles (stated : List Nat) :
    Settles (lengthCode stated) (lengthCode stated) := by
  simp only [lengthCode]
  split
  · exact .ok _
  split
  · exact .ok _
  · exact .corrupt

theorem readCodes_append (src rest : ByteArray) (pos : Nat) :
    Settles (readCodes src pos) (readCodes (src ++ rest) pos) := by
  simp only [readCodes]
  cases hl : bits? src pos 5 with
  | none => exact .starved _
  | some l =>
  cases hd : bits? src (pos + 5) 5 with
  | none => exact .starved _
  | some d =>
  cases hc : bits? src (pos + 10) 4 with
  | none => exact .starved _
  | some c =>
  rw [bits?_append hl, bits?_append hd, bits?_append hc]
  dsimp only
  split
  · exact .corrupt
  cases ht : readTriples src (c + 4) (pos + 14) with
  | none => exact .starved _
  | some stated =>
      rw [readTriples_append ht]
      refine (lengthCode_settles stated).bind fun tree => ?_
      refine (readLengths_append tree _ _ _ []).bind fun _ => ?_
      split
      · exact .corrupt
      split
      · exact .corrupt
      · exact .ok _

/-! ### Steps -/

/-- The second step is the first one, unless the first one starved or had no room, and so left the
output as it was. -/
def Follows (budget : Nat) (s : State) (p q : Progress) : Prop :=
  q = p ∨ (∃ s', p = .stop s' .starved ∧ s'.out = s.out) ∨
    ∃ s', p = .stop s' .full ∧ s'.out = s.out ∧ budget ≤ s.out.size

theorem Follows.refl (p : Progress) : Follows budget s p p := .inl rfl

theorem Follows.starved {q : Progress} (h : s'.out = s.out) :
    Follows budget s (.stop s' .starved) q :=
  .inr (.inl ⟨s', rfl, h⟩)

theorem Follows.full {q : Progress} (h : s'.out = s.out) (hb : budget ≤ s.out.size) :
    Follows budget s (.stop s' .full) q :=
  .inr (.inr ⟨s', rfl, h, hb⟩)

theorem Follows.trans {p q r : Progress} (h : Follows budget s p q)
    (h' : Follows budget s q r) : Follows budget s p r := by
  rcases h with rfl | h | h
  · exact h'
  · exact .inr (.inl h)
  · exact .inr (.inr h)

theorem openBlock_append (s : State) :
    Follows budget s (openBlock src s) (openBlock (src ++ rest) s) := by
  unfold openBlock
  cases hl : bits? src s.pos 1 with
  | none => exact .starved rfl
  | some last =>
  cases hk : bits? src (s.pos + 1) 2 with
  | none => exact .starved rfl
  | some kind =>
  rw [bits?_append hl, bits?_append hk]
  dsimp only
  split
  · cases hn : bits? src (alignUp (s.pos + 3)) 16 with
    | none => exact .starved rfl
    | some len =>
    cases hc : bits? src (alignUp (s.pos + 3) + 16) 16 with
    | none => exact .starved rfl
    | some check =>
    rw [bits?_append hn, bits?_append hc]
    exact .refl _
  · exact .refl _
  · have settles := readCodes_append src rest (s.pos + 3)
    generalize readCodes src (s.pos + 3) = x at settles ⊢
    generalize readCodes (src ++ rest) (s.pos + 3) = y at settles ⊢
    cases settles with
    | starved => exact .starved rfl
    | corrupt => exact .refl _
    | ok r => exact .refl _
  · exact .refl _

theorem copyStored_append (s : State) (left : Nat) :
    Follows budget s (copyStored src budget s left) (copyStored (src ++ rest) budget s left) := by
  unfold copyStored
  split
  · exact .refl _
  split
  · next h =>
      rw [dif_pos (by simp only [ByteArray.size_append]; omega),
        ByteArray.getElem_append_left h]
      exact .refl _
  · exact .starved rfl

/-- **With more data a step does the same**, unless it starved. -/
theorem step_append (src rest : ByteArray) (s : State) :
    Follows budget s (step src budget s) (step (src ++ rest) budget s) := by
  unfold step
  split
  · exact openBlock_append s
  · exact copyStored_append s _
  · next codes _ =>
      have settles := readItem_append src rest s.pos codes
      generalize readItem src s.pos codes = x at settles ⊢
      generalize readItem (src ++ rest) s.pos codes = y at settles ⊢
      cases settles with
      | starved => exact .starved rfl
      | corrupt => exact .refl _
      | ok r => exact .refl _

/-! ### A greater budget -/

theorem closeBlock_ne_full (s e : State) : closeBlock s ≠ .stop e .full := by
  unfold closeBlock
  split <;> simp

theorem openBlock_ne_full (src : ByteArray) (s e : State) : openBlock src s ≠ .stop e .full := by
  unfold openBlock
  dsimp only
  -- A reading that settles is never full, and every reading settles over no more data.
  have hcodes := (readCodes_append src ByteArray.empty (s.pos + 3)).ne_full
  repeat' split
  all_goals first
    | exact closeBlock_ne_full _ _
    | simp_all

/-- A step that has no room leaves the output as it was, and the budget is reached. -/
theorem step_full {e : State} (h : step src budget s = .stop e .full) :
    e.out = s.out ∧ budget ≤ s.out.size := by
  unfold step at h
  split at h
  · exact absurd h (openBlock_ne_full src s e)
  · unfold copyStored at h
    split at h
    · next hfull => cases h; exact ⟨rfl, hfull⟩
    · dsimp only at h
      repeat' split at h
      · exact absurd h (closeBlock_ne_full _ _)
      · cases h
      · cases h
  · next codes _ =>
      have hitem := (readItem_append src ByteArray.empty s.pos codes).ne_full
      split at h
      · next item pos _ =>
          cases item with
          | literal b => cases h
          | endOfBlock => exact absurd h (closeBlock_ne_full _ _)
          | copy length distance =>
              simp only [applyItem] at h
              split at h
              · cases h
              · split at h
                · next hfull => cases h; exact ⟨rfl, hfull⟩
                · cases h
      · cases h; simp_all

/-- **With a greater budget a step does the same**, unless the output was full. -/
theorem step_budget (src : ByteArray) (hb : budget ≤ budget') (s : State) :
    step src budget' s = step src budget s ∨ ∃ e, step src budget s = .stop e .full := by
  unfold step
  split
  · exact .inl rfl
  · unfold copyStored
    by_cases hfull : budget ≤ s.out.size
    · rw [if_pos hfull]
      exact .inr ⟨s, rfl⟩
    · rw [if_neg hfull, if_neg (by omega)]
      exact .inl rfl
  · split
    · next item pos _ =>
        cases item with
        | literal b | endOfBlock => exact .inl rfl
        | copy length distance =>
            simp only [applyItem]
            split
            · exact .inl rfl
            · by_cases hfull : budget ≤ s.out.size
              · rw [if_pos hfull]
                exact .inr ⟨_, rfl⟩
              · rw [if_neg hfull, if_neg (by omega)]
                exact .inl rfl
    · exact .inl rfl

theorem step_arriving (src rest : ByteArray) (hb : budget ≤ budget') (s : State) :
    Follows budget s (step src budget s) (step (src ++ rest) budget' s) := by
  refine (step_append src rest s).trans ?_
  rcases step_budget (src ++ rest) hb s with h | ⟨e, h⟩
  · rw [h]; exact .refl _
  · rw [h]; exact .full (step_full h).1 (step_full h).2

/-! ### Output only grows -/

/-- The output of one state is the beginning of that of another. -/
def Grows (s s' : State) : Prop := ∃ t, s'.out = s.out ++ t

theorem Grows.refl (s : State) : Grows s s := ⟨ByteArray.empty, by simp⟩

theorem Grows.of_eq (h : s'.out = s.out) : Grows s s' := ⟨ByteArray.empty, by simp [h]⟩

theorem Grows.trans {s'' : State} (h : Grows s s') (h' : Grows s' s'') : Grows s s'' := by
  obtain ⟨t, ht⟩ := h
  obtain ⟨t', ht'⟩ := h'
  exact ⟨t ++ t', by rw [ht', ht, ByteArray.append_assoc]⟩

theorem Grows.size_le (h : Grows s s') : s.out.size ≤ s'.out.size := by
  obtain ⟨t, ht⟩ := h
  rw [ht, ByteArray.size_append]
  omega

/-- The state in which a step leaves decoding. -/
def Progress.state : Progress → State
  | .next s => s
  | .stop s _ => s

theorem copyBack_grows (distance length : Nat) (out : ByteArray) :
    ∃ t, copyBack distance length out = out ++ t := by
  induction length generalizing out with
  | zero => exact ⟨ByteArray.empty, by simp [copyBack]⟩
  | succ n ih =>
      obtain ⟨t, ht⟩ := ih (out.push (out[out.size - distance]?.getD 0))
      rw [copyBack, ht, ← ByteArray.append_toByteArray_singleton, ByteArray.append_assoc]
      exact ⟨_, rfl⟩

theorem closeBlock_grows (s : State) : Grows s (closeBlock s).state := by
  unfold closeBlock
  split <;> exact .of_eq rfl

theorem step_grows (src : ByteArray) (budget : Nat) (s : State) :
    Grows s (step src budget s).state := by
  unfold step
  split
  · unfold openBlock
    dsimp only
    repeat' split
    all_goals first
      | exact .of_eq rfl
      | exact (Grows.of_eq rfl).trans (closeBlock_grows _)
  · unfold copyStored
    dsimp only
    split
    · exact .refl s
    split
    · have pushed (pos : Nat) (b : UInt8) :
          Grows s { s with pos := pos, out := s.out.push b } :=
        ⟨_, ByteArray.append_toByteArray_singleton.symm⟩
      split
      · exact (pushed (s.pos + 8) _).trans (closeBlock_grows _)
      · exact pushed (s.pos + 8) _
    · exact .refl s
  · split
    · next item pos _ =>
        cases item with
        | literal b => exact ⟨_, ByteArray.append_toByteArray_singleton.symm⟩
        | endOfBlock => exact (Grows.of_eq rfl).trans (closeBlock_grows _)
        | copy length distance =>
            simp only [applyItem]
            split
            · exact copyBack_grows distance length s.out
            · exact .of_eq rfl
    · exact .refl s

/-! ### Runs -/

theorem run_full (h : budget < s.out.size) :
    run src budget (fuel + 1) s = (s, .full) := by
  exact if_pos h

theorem run_succ (h : ¬ budget < s.out.size) :
    run src budget (fuel + 1) s =
      match step src budget s with
      | .next s' => run src budget fuel s'
      | .stop s' why => (s', why) := by
  exact if_neg h

/-- **The output of a run only grows.** -/
theorem run_grows (src : ByteArray) (budget fuel : Nat) (s : State) :
    Grows s (run src budget fuel s).1 := by
  induction fuel generalizing s with
  | zero => exact .refl s
  | succ fuel ih =>
      by_cases hfull : budget < s.out.size
      · rw [run_full hfull]; exact .refl s
      rw [run_succ hfull]
      have stepped := step_grows src budget s
      cases hs : step src budget s with
      | next s' => rw [hs] at stepped; exact stepped.trans (ih s')
      | stop s' why => rw [hs] at stepped; exact stepped

/-- What a run does after its first step only adds to the output of that step. -/
theorem run_grows_step (src : ByteArray) (fuel : Nat) (hroom : ¬ budget < s.out.size) :
    Grows (step src budget s).state (run src budget (fuel + 1) s).1 := by
  rw [run_succ hroom]
  cases step src budget s with
  | next s' => exact run_grows src budget fuel s'
  | stop s' why => exact .refl s'

/-- **A run over what has arrived, and one over more.**  If the first comes to the end of the
stream or meets corrupt data, so does the second, with the same output.  If it starves or is full,
the second goes on from its output; and full means that the budget is reached. -/
theorem run_arriving (hb : budget ≤ budget') (hf : fuel ≤ fuel') (s : State) :
    run (src ++ rest) budget' fuel' s = run src budget fuel s ∨
      (((run src budget fuel s).2 = .starved ∨
        (run src budget fuel s).2 = .full ∧ budget ≤ (run src budget fuel s).1.out.size) ∧
        Grows (run src budget fuel s).1 (run (src ++ rest) budget' fuel' s).1) := by
  induction fuel generalizing s fuel' with
  | zero => exact .inr ⟨.inl rfl, run_grows _ _ _ s⟩
  | succ fuel ih =>
      by_cases hfull : budget < s.out.size
      · rw [run_full hfull]
        exact .inr ⟨.inr ⟨rfl, Nat.le_of_lt hfull⟩, run_grows _ _ _ s⟩
      obtain ⟨fuel', rfl⟩ : ∃ n, fuel' = n + 1 := ⟨fuel' - 1, by omega⟩
      have grown := run_grows (src ++ rest) budget' (fuel' + 1) s
      by_cases hfull' : budget' < s.out.size
      · omega
      rw [run_succ hfull'] at grown ⊢
      rw [run_succ hfull]
      -- Once a step differs, the second run is ahead for good: its output only grows.
      rcases step_arriving src rest hb s with h | ⟨s', h, hout⟩ |
          ⟨s', h, hout, hle⟩
      · rw [h]
        cases hs : step src budget s with
        | next s' => exact ih (by omega) s'
        | stop s' why => exact .inl rfl
      · rw [h]
        exact .inr ⟨.inl rfl, (Grows.of_eq hout.symm).trans grown⟩
      · rw [h]
        exact .inr ⟨.inr ⟨rfl, by rw [hout]; exact hle⟩, (Grows.of_eq hout.symm).trans grown⟩

/-- A run that is full has reached the budget. -/
theorem run_reached (h : (run src budget fuel s).2 = .full) :
    budget ≤ (run src budget fuel s).1.out.size := by
  induction fuel generalizing s with
  | zero => cases h
  | succ fuel ih =>
      by_cases hfull : budget < s.out.size
      · rw [run_full hfull]
        exact Nat.le_of_lt hfull
      rw [run_succ hfull] at h ⊢
      cases hs : step src budget s with
      | next s' => rw [hs] at h; exact ih h
      | stop s' why =>
          rw [hs] at h
          cases h
          obtain ⟨hout, hle⟩ := step_full hs
          rw [← hout] at hle
          exact hle

/-- **Over the same data, only a full run depends on the budget.** -/
theorem run_budget (fuel : Nat) (hb : budget ≤ budget') (s : State) :
    (run src budget fuel s).2 = .full ∨
      run src budget' fuel s = run src budget fuel s := by
  induction fuel generalizing s with
  | zero => exact .inr rfl
  | succ fuel ih =>
      by_cases hfull : budget < s.out.size
      · rw [run_full hfull]; exact .inl rfl
      by_cases hfull' : budget' < s.out.size
      · omega
      rw [run_succ hfull, run_succ hfull']
      rcases step_budget src hb s with h | ⟨e, h⟩
      · rw [h]
        cases step src budget s with
        | next s' => exact ih s'
        | stop s' why => exact .inr rfl
      · rw [h]; exact .inl rfl

/-- A copy of one stored byte that had no room makes output when there is some. -/
theorem copyStored_resumes {left : Nat} {e : State}
    (h : copyStored src budget s left = .stop e .full) (hroom : s.out.size < budget')
    (hleft : (e.pos + 7) / 8 < src.size) :
    s.out.size < (copyStored src budget' s left).state.out.size := by
  unfold copyStored at h ⊢
  split at h
  · cases h
    rw [if_neg (by omega), dif_pos (by omega)]
    have pushed : s.out.size < (s.out.push src[s.pos / 8]).size := by simp
    dsimp only
    split
    · exact Nat.lt_of_lt_of_le pushed (closeBlock_grows ⟨_, _, _, _⟩).size_le
    · exact pushed
  · dsimp only at h
    repeat' split at h
    · exact absurd h (closeBlock_ne_full _ _)
    · cases h
    · cases h

/-- A copy from before the output that was full is corrupt where there is room. -/
theorem applyItem_resumes {item : Item} {e : State}
    (h : applyItem budget s item pos = .stop e .full) (hroom : s.out.size < budget') :
    ∃ s', applyItem budget' s item pos = .stop s' .corrupt := by
  cases item with
  | literal b => cases h
  | endOfBlock => exact absurd h (closeBlock_ne_full _ _)
  | copy length distance =>
      simp only [applyItem] at h ⊢
      split at h
      · cases h
      · next hfar => rw [if_neg hfar, if_neg (by omega)]; exact ⟨_, rfl⟩

/-- A step that had no room makes output when there is some, if a byte is left to read, or turns
out corrupt. -/
theorem step_resumes {e : State} (h : step src budget s = .stop e .full)
    (hroom : s.out.size < budget') (hleft : (e.pos + 7) / 8 < src.size) :
    s.out.size < (step src budget' s).state.out.size ∨
      ∃ s', step src budget' s = .stop s' .corrupt := by
  unfold step at h ⊢
  split at h
  · exact absurd h (openBlock_ne_full src s e)
  · exact .inl (copyStored_resumes h hroom hleft)
  · next codes _ =>
      have hitem := (readItem_append src ByteArray.empty s.pos codes).ne_full
      split at h
      · exact .inr (applyItem_resumes h hroom)
      · cases h; simp_all

/-- **A full run resumes.**  If a run was full while a byte was left to read, then with any greater
budget there is more output, or the data turn out corrupt. -/
theorem run_resumes (hb : budget < budget') {e : State} (h : run src budget fuel s = (e, .full))
    (hleft : (e.pos + 7) / 8 < src.size) :
    budget < (run src budget' fuel s).1.out.size ∨ (run src budget' fuel s).2 = .corrupt := by
  induction fuel generalizing s with
  | zero => cases h
  | succ fuel ih =>
      by_cases hfull : budget < s.out.size
      · exact .inl (Nat.lt_of_lt_of_le hfull (run_grows _ _ _ s).size_le)
      have hroom : ¬ budget' < s.out.size := by omega
      rw [run_succ hfull] at h
      cases hp : step src budget s with
      | next s' =>
          rw [hp] at h
          rcases step_budget src (Nat.le_of_lt hb) s with hs | ⟨e', hs⟩
          · rw [run_succ hroom, hs, hp]
            exact ih h
          · rw [hp] at hs; cases hs
      | stop e' why =>
          rw [hp] at h
          cases h
          have hle := (step_full hp).2
          have more : s.out.size < budget' := by omega
          -- The output had reached the smaller budget, so any more of it is beyond.
          rcases step_resumes hp more hleft with hgrow | ⟨c, hc⟩
          · have hmore := (run_grows_step src fuel hroom).size_le
            exact .inl (by omega)
          · exact .inr (by rw [run_succ hroom, hc])

/-! ### Inflating -/

theorem inflate_eq (src : ByteArray) (budget : Nat) :
    inflate src budget =
      ⟨(run src budget (8 * src.size + 1) .start).1.out,
        ((run src budget (8 * src.size + 1) .start).1.pos + 7) / 8,
        (run src budget (8 * src.size + 1) .start).2⟩ := rfl

/-- **What has arrived inflates to a beginning** of what all data inflate to, with a budget no
smaller; unless it starves or is full, to the same. -/
theorem inflate_arriving (src rest : ByteArray) (hb : budget ≤ budget') :
    inflate (src ++ rest) budget' = inflate src budget ∨
      ((inflate src budget).why = .starved ∨
        (inflate src budget).why = .full ∧ budget ≤ (inflate src budget).output.size) ∧
        ∃ t, (inflate (src ++ rest) budget').output = (inflate src budget).output ++ t := by
  have hf : 8 * src.size + 1 ≤ 8 * (src ++ rest).size + 1 := by
    rw [ByteArray.size_append]
    omega
  rcases run_arriving hb hf .start with h | h
  · exact .inl (by rw [inflate_eq, inflate_eq, h])
  · exact .inr h

/-- An output that is full has reached the budget. -/
theorem inflate_reached (h : (inflate src budget).why = .full) :
    budget ≤ (inflate src budget).output.size := by
  have full : (run src budget (8 * src.size + 1) .start).2 = .full := h
  exact run_reached full

/-- Over the same data, only a full output depends on the budget. -/
theorem inflate_budget (src : ByteArray) (hb : budget ≤ budget') :
    (inflate src budget).why = .full ∨ inflate src budget' = inflate src budget := by
  rcases run_budget (8 * src.size + 1) hb .start with h | h
  · exact .inl h
  · exact .inr (by rw [inflate_eq, inflate_eq, h])

/-- A full output grows with the budget, if a byte is left to read, or the data are corrupt. -/
theorem inflate_resumes (hb : budget < budget') (h : (inflate src budget).why = .full)
    (hleft : (inflate src budget).used < src.size) :
    budget < (inflate src budget').output.size ∨ (inflate src budget').why = .corrupt := by
  have full : run src budget (8 * src.size + 1) .start =
      ((run src budget (8 * src.size + 1) .start).1, .full) := Prod.ext rfl h
  exact run_resumes hb full hleft

end ZipContainer.Deflate
