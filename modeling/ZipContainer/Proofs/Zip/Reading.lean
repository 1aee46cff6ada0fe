import ZipContainer.Proofs.Zip.Streams

/-!
# Reading in rounds

Packed data are taken in rounds, and what has arrived is unpacked anew in each.  Under a limit no
smaller than the stated size, reading never stops before the member ends: what has been read stays
below that size, so that something is always asked for, and every round but the last takes a byte
of the data or adds one to the content (`Source.Sound.round`).

`Source.Admitted.read_outcome` says how reading comes out then: with what the source yields; or with
a fault of a source that is not intact; or with a request beyond a machine word.
-/

namespace ZipContainer.Zip.Source

variable {s : Source} {r r' : Reading} {n : Nat}

/-- The limit leaves room for the stated size. -/
def Admitted (s : Source) : Prop := ∀ l, s.limit = some l → (s.size : Int) ≤ l

/-- The budget of a round. -/
def budget (s : Source) (r : Reading) : Nat :=
  r.content.size + max (request s.limit r.content.size) minRound

/-! ### Requests -/

theorem Admitted.request_pos (h : s.Admitted) (hn : n ≤ s.size) : 0 < request s.limit n := by
  unfold request
  split
  · decide
  · next l hl =>
      have := h l hl
      omega

theorem size_lt_budget (s : Source) (r : Reading) : r.content.size < s.budget r := by
  have : 0 < minRound := by decide
  simp only [budget]
  omega

/-- The more has been read, the greater is the budget. -/
theorem budget_le (h : r.content.size ≤ r'.content.size) : s.budget r ≤ s.budget r' := by
  simp only [budget, request]
  split <;> omega

/-- How taking comes out: it asks for more than a machine word says; or the data end within the
packed data; or it takes a byte, unless none is asked for or left. -/
theorem take_cases (harrived : r.arrived ≤ s.compressedSize)
    (hpresent : r.arrived ≤ s.data.size - s.start) :
    s.take r = .error .wordRange ∨
      s.take r = .error (.member .endOfData) ∧ s.data.size < s.start + s.compressedSize ∨
      ∃ n, s.take r = .ok n ∧ r.arrived ≤ n ∧ n ≤ s.compressedSize ∧ n ≤ s.data.size - s.start ∧
        (n = r.arrived → request s.limit r.content.size ≤ r.arrived - r.used ∨
          s.compressedSize ≤ r.arrived) := by
  have least : 0 < minRound := by decide
  simp only [Source.take]
  split
  · next hidle =>
      exact .inr (.inr ⟨_, rfl, Nat.le_refl _, harrived, hpresent, fun _ => by omega⟩)
  split
  · exact .inl rfl
  split
  · exact .inr (.inl ⟨rfl, by omega⟩)
  · exact .inr (.inr ⟨_, rfl, by omega, by omega, by omega, fun hn => by omega⟩)

/-! ### Rounds -/

/-- Where reading stands is sound: what has been read is shorter than stated and lies within what
has been unpacked; and if not all that has arrived is used up, the output was full. -/
structure Sound (s : Source) (r : Reading) : Prop where
  arrived : r.arrived ≤ s.compressedSize
  present : r.arrived ≤ s.data.size - s.start
  size : r.content.size ≤ s.size
  unpacked : r.content.size ≤ (s.unpacked r.arrived (s.budget r)).output.size
  used : r.arrived ≤ r.used ∨
    (s.unpacked r.arrived r.content.size).why = .full ∧
      (s.unpacked r.arrived r.content.size).used = r.used

/-- What is still to be taken and to be read. -/
def missing (s : Source) (r : Reading) : Nat :=
  (s.data.size - s.start - r.arrived) + (s.size - r.content.size)

theorem Sound.start (s : Source) : s.Sound ⟨0, 0, ByteArray.empty⟩ where
  arrived := Nat.zero_le _
  present := Nat.zero_le _
  size := Nat.zero_le _
  unpacked := Nat.zero_le _
  used := .inl (Nat.le_refl _)

/-- The stream or the data end in a round in which `n` bytes have arrived. -/
def isOver (s : Source) (n : Nat) (u : Unpacked) : Bool :=
  u.why = .ended || (s.compressedSize ≤ n && (u.why = .full → u.used = n))

/-- What a round reads that is not the last. -/
def kept (s : Source) (u : Unpacked) (b : Nat) : ByteArray :=
  if s.packing = .deflated then u.output.extract 0 b else u.output

/-- How a round ends in which `n` bytes have arrived and unpack as told, within the budget `b`. -/
def outcome (s : Source) (n : Nat) (u : Unpacked) (b : Nat) : Reading ⊕ ByteArray :=
  if s.isOver n u then
    .inr ((s.flush (s.data.extract s.start (s.start + n)) u).extract 0 s.size)
  else if s.size ≤ (s.kept u b).size then .inr ((s.kept u b).extract 0 s.size)
  else .inl ⟨n, if u.why = .full then u.used else n, s.kept u b⟩

/-- All that a round does, if it takes bytes and they unpack. -/
theorem round_eq (htake : s.take r = .ok n)
    (hasked : ¬ (s.packing = .deflated ∧ maxWord < max (request s.limit r.content.size) minRound))
    (hintact : (s.unpacked n (s.budget r)).why ≠ .corrupt) :
    s.round r = .ok (s.outcome n (s.unpacked n (s.budget r)) (s.budget r)) := by
  have ending (u : Unpacked) (b : Nat) :
      (let used := if u.why = .full then u.used else n
       let isOver := u.why = .ended || (s.compressedSize ≤ n && used = n)
       let output := if isOver then s.flush (s.data.extract s.start (s.start + n)) u else
         if s.packing = .deflated then u.output.extract 0 b else u.output
       if isOver || s.size ≤ output.size then Except.ok (.inr (output.extract 0 s.size))
       else .ok (.inl ⟨n, used, output⟩)) =
      (Except.ok (s.outcome n u b) : Except RoundFault (Reading ⊕ ByteArray)) := by
    have ends : (u.why = .ended ||
        (s.compressedSize ≤ n && (if u.why = .full then u.used else n) = n)) = s.isOver n u := by
      unfold isOver
      by_cases hfull : u.why = .full <;> simp [hfull]
    simp only [ends, outcome, kept]
    cases s.isOver n u with
    | true => rfl
    | false =>
        simp only [Bool.false_or, decide_eq_true_eq, Bool.false_eq_true, if_false]
        split <;> split <;> rfl
  simp only [Source.round, htake, bind, Except.bind]
  rw [if_neg hasked]
  simp only [pure, Except.pure]
  simp only [unpacked, budget] at hintact
  rw [if_neg hintact]
  exact ending _ _

/-- A round that asks for more than a machine word says of deflated data fails. -/
theorem round_large (htake : s.take r = .ok n)
    (hasked : s.packing = .deflated ∧ maxWord < max (request s.limit r.content.size) minRound) :
    s.round r = .error .wordRange := by
  simp only [Source.round, htake, bind, Except.bind]
  exact if_pos hasked

/-- A round that meets corrupt data fails. -/
theorem round_corrupt (htake : s.take r = .ok n)
    (hasked : ¬ (s.packing = .deflated ∧ maxWord < max (request s.limit r.content.size) minRound))
    (hcorrupt : (s.unpacked n (s.budget r)).why = .corrupt) :
    s.round r = .error (.member s.packing.fault) := by
  simp only [Source.round, htake, bind, Except.bind]
  rw [if_neg hasked]
  simp only [unpacked, budget] at hcorrupt
  exact if_pos hcorrupt

/-- What is kept is a beginning of what was unpacked. -/
theorem kept_begins (s : Source) (u : Unpacked) (b : Nat) : ∃ t, u.output = s.kept u b ++ t := by
  unfold kept
  split
  · exact extract_begins _ _
  · exact ⟨ByteArray.empty, ByteArray.append_empty.symm⟩

theorem le_size_kept (s : Source) (u : Unpacked) (b : Nat) :
    min b u.output.size ≤ (s.kept u b).size := by
  unfold kept
  split
  · rw [ByteArray.size_extract]; omega
  · exact Nat.min_le_right _ _

/-- A beginning that is kept and is as long as stated is cut like all that was unpacked. -/
theorem kept_cut {u : Unpacked} {b : Nat} (henough : s.size ≤ (s.kept u b).size) :
    s.size ≤ u.output.size ∧ (s.kept u b).extract 0 s.size = u.output.extract 0 s.size := by
  obtain ⟨t, ht⟩ := s.kept_begins u b
  refine ⟨?_, (cut_eq ht henough).symm⟩
  rw [ht, ByteArray.size_append]
  omega

/-- **Where a round is the last because the stream or the data end**, it yields what is settled. -/
theorem yields_atEnd {b : Nat} (hn : n ≤ s.compressedSize)
    (hintact : (s.unpacked n b).why ≠ .corrupt) (hover : s.isOver n (s.unpacked n b) = true) :
    s.Yields ((s.flush (s.data.extract s.start (s.start + n)) (s.unpacked n b)).extract 0 s.size) := by
  have precedes := s.unpacked_whole hn b
  simp only [isOver, Bool.or_eq_true, decide_eq_true_eq, Bool.and_eq_true] at hover
  unfold flush
  by_cases hfull : (s.unpacked n b).why = .full
  · -- The output is full, so all data have arrived and are used: they are unpacked once more.
    obtain ⟨hp, -⟩ := Packing.unpack_full hfull
    obtain hended | ⟨hall, -⟩ := hover
    · rw [hfull] at hended; cases hended
    obtain rfl : n = s.compressedSize := Nat.le_antisymm hn hall
    rw [if_pos ⟨hp, hfull⟩]
    refine .atEnd (.inl hp) ?_
    rw [whole, hp]
    rfl
  · rw [if_neg fun h => hfull h.2]
    obtain hended | ⟨hall, -⟩ := hover
    · obtain ⟨hout, hwhy⟩ := precedes.ended hended
      exact .atEnd (.inr (by rw [hwhy]; decide)) (by rw [hout])
    · obtain rfl : n = s.compressedSize := Nat.le_antisymm hn hall
      have same : s.unpacked s.compressedSize b = s.whole := Packing.unpack_eq_whole hfull
      rw [same] at hintact ⊢
      exact .atEnd (.inr hintact) rfl

/-- Where a round goes on, reading is sound and less is missing. -/
theorem Sound.next (sound : s.Sound r) (admitted : s.Admitted) (hle : r.arrived ≤ n)
    (hn : n ≤ s.compressedSize) (hpresent : n ≤ s.data.size - s.start)
    (hidle : n = r.arrived → request s.limit r.content.size ≤ r.arrived - r.used ∨
      s.compressedSize ≤ r.arrived) {u : Unpacked} (hu : s.unpacked n (s.budget r) = u)
    (hintact : u.why ≠ .corrupt) (hgoing : s.isOver n u = false)
    (hless : (s.kept u (s.budget r)).size < s.size)
    (hr' : r' = ⟨n, if u.why = .full then u.used else n, s.kept u (s.budget r)⟩) :
    s.Sound r' ∧ s.missing r' < s.missing r := by
  subst hr'
  have room := s.size_lt_budget r
  have least := s.le_size_kept u (s.budget r)
  have full : u.why = .full → s.packing = .deflated ∧ s.budget r ≤ u.output.size := by
    rw [← hu]
    exact Packing.unpack_full
  obtain ⟨t, ht⟩ := s.kept_begins u (s.budget r)
  have within : (s.kept u (s.budget r)).size ≤ u.output.size := by
    rw [ht, ByteArray.size_append]
    omega
  have spelled := sound.unpacked
  have grown : r.content.size ≤ u.output.size := by
    obtain ⟨t, ht⟩ := (s.unpacked_arriving hle (Nat.le_refl (s.budget r))).output
      (by rw [hu]; exact hintact)
    rw [hu] at ht
    rw [ht, ByteArray.size_append]
    omega
  have kept : r.content.size ≤ (s.kept u (s.budget r)).size := by omega
  refine ⟨⟨hn, hpresent, Nat.le_of_lt hless, ?_, ?_⟩, ?_⟩
  · have wider : s.budget r ≤
        s.budget ⟨n, if u.why = .full then u.used else n, s.kept u (s.budget r)⟩ := budget_le kept
    have longer := s.size_unpacked_le n wider
    rw [hu] at longer
    exact Nat.le_trans within longer
  · by_cases hfull : u.why = .full
    · obtain ⟨hpacking, hreached⟩ := full hfull
      have size : (s.kept u (s.budget r)).size = s.budget r := by
        rw [Source.kept, if_pos hpacking, ByteArray.size_extract]
        omega
      simp only [if_pos hfull, size, hu]
      exact .inr ⟨hfull, trivial⟩
    · rw [if_neg hfull]
      exact .inl (Nat.le_refl n)
  · simp only [missing]
    by_cases htaken : r.arrived < n
    · omega
    obtain rfl : n = r.arrived := by omega
    have added : r.content.size < u.output.size := by
      by_cases hfull : u.why = .full
      · have := (full hfull).2
        omega
      -- Nothing was taken and the output was not full, so bytes had arrived before that were not
      -- used up: then the output was full the last time, and goes on with the greater budget.
      simp only [isOver, hfull, false_implies, decide_true, Bool.and_true, Bool.or_eq_false_iff,
        decide_eq_false_iff_not] at hgoing
      have asked := admitted.request_pos sound.size
      rcases hidle rfl with hnone | hall
      · rcases sound.used with hused | ⟨hfull', hused⟩
        · omega
        · obtain ⟨hp, -⟩ := Packing.unpack_full hfull'
          have unused : (s.unpacked r.arrived r.content.size).used <
              (s.data.extract s.start (s.start + r.arrived)).size := by
            rw [ByteArray.size_extract]
            omega
          have resumed := unpacked_resumes hp room hfull' unused
          rw [hu] at resumed
          exact resumed.resolve_right hintact
      · exact absurd hall hgoing.2
    omega

/-- How reading comes out when it does not stop early: with what the source yields, at the end of
the member; with a fault of a source that is not intact; or with a request beyond a machine
word. -/
inductive Outcome (s : Source) : Except RoundFault (ByteArray × Bool) → Prop where
  | yields (content : ByteArray) (h : s.Yields content) : Outcome s (.ok (content, true))
  | fault (f : MemberFault) (broken : ¬ s.Intact) (hf : f = .endOfData ∨ f = s.packing.fault) :
      Outcome s (.error (.member f))
  | wordRange : Outcome s (.error .wordRange)

/-- **A round from where reading is sound** comes out, or leaves reading sound and less missing. -/
theorem Sound.round (sound : s.Sound r) (admitted : s.Admitted) :
    (∃ f, s.round r = .error f ∧ s.Outcome (.error f)) ∨
      (∃ content, s.round r = .ok (.inr content) ∧ s.Yields content) ∨
      ∃ r', s.round r = .ok (.inl r') ∧ s.Sound r' ∧ s.missing r' < s.missing r := by
  rcases take_cases sound.arrived sound.present with
    htake | ⟨htake, hshort⟩ | ⟨n, htake, hle, hn, hpresent, hidle⟩
  · exact .inl ⟨_, by rw [Source.round, htake]; rfl, .wordRange⟩
  · have broken : ¬ s.Intact := fun h => Nat.not_lt.mpr h.within hshort
    exact .inl ⟨_, by rw [Source.round, htake]; rfl, .fault _ broken (.inl rfl)⟩
  by_cases hasked : s.packing = .deflated ∧ maxWord < max (request s.limit r.content.size) minRound
  · exact .inl ⟨_, round_large htake hasked, .wordRange⟩
  by_cases hcorrupt : (s.unpacked n (s.budget r)).why = .corrupt
  · have broken : ¬ s.Intact := fun h => h.valid ((s.unpacked_whole hn _).corrupt hcorrupt)
    exact .inl ⟨_, round_corrupt htake hasked hcorrupt, .fault _ broken (.inr rfl)⟩
  rw [round_eq htake hasked hcorrupt]
  cases hover : s.isOver n (s.unpacked n (s.budget r)) with
  | true =>
      refine .inr (.inl ⟨_, ?_, yields_atEnd hn hcorrupt hover⟩)
      rw [outcome, hover]
      rfl
  | false =>
      by_cases henough : s.size ≤ (s.kept (s.unpacked n (s.budget r)) (s.budget r)).size
      · obtain ⟨hsize, hcut⟩ := kept_cut henough
        refine .inr (.inl ⟨_, ?_, .early n _ hn hcorrupt hsize hcut⟩)
        rw [outcome, hover, if_neg Bool.false_ne_true, if_pos henough]
      · refine .inr (.inr ⟨_, ?_, sound.next admitted hle hn hpresent hidle rfl hcorrupt hover
          (by omega) rfl⟩)
        rw [outcome, hover, if_neg Bool.false_ne_true, if_neg henough]

/-- **How reading comes out** under a limit no smaller than the stated size: it never stops before
the member ends. -/
theorem Admitted.read_outcome (admitted : s.Admitted) : s.Outcome s.read := by
  have enough : s.missing ⟨0, 0, ByteArray.empty⟩ < s.data.size + s.size + 1 := by
    simp only [missing, ByteArray.size_empty]
    omega
  -- Something is always asked for, and no round but the last leaves as much missing as there was.
  have run (fuel : Nat) (r : Reading) (sound : s.Sound r) (hfuel : s.missing r < fuel) :
      s.Outcome (s.rounds fuel r) := by
    induction fuel generalizing r with
    | zero => omega
    | succ fuel ih =>
        have asked := admitted.request_pos sound.size
        rw [Source.rounds, if_neg (by omega)]
        rcases sound.round admitted with ⟨f, hr, hf⟩ | ⟨content, hr, hyields⟩ | ⟨r', hr, sound', hless⟩
        · rw [hr]; exact hf
        · rw [hr]; exact .yields content hyields
        · rw [hr]; exact ih r' sound' (by omega)
  exact run _ _ (Sound.start s) enough

end ZipContainer.Zip.Source
