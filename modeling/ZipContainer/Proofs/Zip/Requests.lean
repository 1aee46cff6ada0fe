import ZipContainer.Proofs.Zip.Reading

/-!
# Requests beyond a machine word

A round asks for one byte more than the limit leaves, and no request can be larger than a machine
word says.  `Source.read_eq_wordRange_iff` says exactly when reading fails so: in the first round or
never.
-/

namespace ZipContainer.Zip.Source

variable {s : Source} {r : Reading}

/-- More than a machine word says is only asked for under a limit that is as large. -/
theorem of_request_large {limit : Option Int} {n : Nat}
    (h : maxWord < max (request limit n) minRound) :
    ∃ l, limit = some l ∧ (maxWord : Int) ≤ l := by
  have least : minRound ≤ maxWord := by decide
  have free : openRound ≤ maxWord := by decide
  cases limit with
  | none =>
      simp only [request] at h
      omega
  | some l =>
      refine ⟨l, rfl, ?_⟩
      simp only [request] at h
      omega

/-- A round that fails so asks for more than a machine word says, and of data that are as large or
deflated. -/
theorem round_wordRange (h : s.round r = .error .wordRange) :
    maxWord < max (request s.limit r.content.size) minRound ∧
      (maxWord < s.compressedSize ∨ s.packing = .deflated) := by
  cases ht : s.take r with
  | error f =>
      rw [Source.round, ht] at h
      cases h
      simp only [Source.take] at ht
      split at ht
      · cases ht
      split at ht
      · next hn => exact ⟨by omega, .inl (by omega)⟩
      · split at ht <;> cases ht
  | ok n =>
      by_cases hasked : s.packing = .deflated ∧
          maxWord < max (request s.limit r.content.size) minRound
      · exact ⟨hasked.2, .inr hasked.1⟩
      by_cases hcorrupt : (s.unpacked n (s.budget r)).why = .corrupt
      · rw [round_corrupt ht hasked hcorrupt] at h
        cases h
      · rw [round_eq ht hasked hcorrupt] at h
        cases h

theorem rounds_wordRange {fuel : Nat} (h : s.rounds fuel r = .error .wordRange) :
    ∃ r', s.round r' = .error .wordRange := by
  induction fuel generalizing r with
  | zero => cases h
  | succ fuel ih =>
      rw [Source.rounds] at h
      split at h
      · cases h
      split at h
      · next f hf => cases h; exact ⟨r, hf⟩
      · cases h
      · exact ih h

/-- The first round, under a limit as large as a machine word. -/
theorem first_round {l : Int} (hl : s.limit = some l) (hlarge : (maxWord : Int) ≤ l) :
    (maxWord < s.compressedSize →
      s.round ⟨0, 0, ByteArray.empty⟩ = .error .wordRange) ∧
    (s.compressedSize ≤ maxWord → s.compressedSize ≠ 0 → s.data.size ≤ s.start →
      s.round ⟨0, 0, ByteArray.empty⟩ = .error (.member .endOfData)) ∧
    (s.compressedSize ≤ maxWord → s.compressedSize = 0 ∨ s.start < s.data.size →
      s.packing = .deflated → s.round ⟨0, 0, ByteArray.empty⟩ = .error .wordRange) := by
  obtain ⟨a, asked, large⟩ : ∃ a, request s.limit ByteArray.empty.size = a ∧ maxWord < a := by
    refine ⟨_, rfl, ?_⟩
    rw [hl, request]
    simp only [ByteArray.size_empty]
    omega
  have least : 0 < minRound := by decide
  refine ⟨fun hsize => ?_, fun hsize hsome hnone => ?_, fun hsize hsome hdeflated => ?_⟩
  · have taken : s.take ⟨0, 0, ByteArray.empty⟩ = .error .wordRange := by
      simp only [Source.take, asked]
      rw [if_neg (by omega), if_pos (by omega)]
    rw [Source.round, taken]
    rfl
  · have taken : s.take ⟨0, 0, ByteArray.empty⟩ = .error (.member .endOfData) := by
      simp only [Source.take, asked]
      rw [if_neg (by omega), if_neg (by omega), if_pos (by omega)]
    rw [Source.round, taken]
    rfl
  · obtain ⟨n, taken⟩ : ∃ n, s.take ⟨0, 0, ByteArray.empty⟩ = .ok n := by
      simp only [Source.take, asked]
      split
      · exact ⟨_, rfl⟩
      · rw [if_neg (by omega), if_neg (by omega)]
        exact ⟨_, rfl⟩
    rw [Source.round, taken]
    simp only [bind, Except.bind, asked]
    rw [if_pos ⟨hdeflated, by omega⟩]
    rfl

/-- Under such a limit the first round comes about. -/
theorem rounds_first {l : Int} {fuel : Nat} (hl : s.limit = some l) (hlarge : (maxWord : Int) ≤ l) :
    s.rounds (fuel + 1) ⟨0, 0, ByteArray.empty⟩ =
      match s.round ⟨0, 0, ByteArray.empty⟩ with
      | .error f => .error f
      | .ok (.inr content) => .ok (content, true)
      | .ok (.inl r) => s.rounds fuel r := by
  have asked : request s.limit ByteArray.empty.size ≠ 0 := by
    rw [hl, request]
    simp only [ByteArray.size_empty]
    omega
  exact if_neg asked

/-- **When reading asks for more than a machine word says.**  It does so in the first round or
never: under a limit that is as large, if the packed data are said to be as large, or if they are
deflated and the round comes as far as to unpack them. -/
theorem read_eq_wordRange_iff :
    s.read = .error .wordRange ↔ ∃ l, s.limit = some l ∧ (maxWord : Int) ≤ l ∧
      (maxWord < s.compressedSize ∨
        s.packing = .deflated ∧ (s.compressedSize = 0 ∨ s.start < s.data.size)) := by
  constructor
  · intro h
    -- The round that fails need not be the first, but then the first one fails as well.
    obtain ⟨r, hr⟩ := rounds_wordRange h
    obtain ⟨hlarge, hpacked⟩ := round_wordRange hr
    obtain ⟨l, hl, hle⟩ := of_request_large hlarge
    by_cases hsize : maxWord < s.compressedSize
    · exact ⟨l, hl, hle, .inl hsize⟩
    have hdeflated := hpacked.resolve_left hsize
    refine ⟨l, hl, hle, .inr ⟨hdeflated, ?_⟩⟩
    refine Decidable.byContradiction fun hnone => ?_
    have ended := (first_round hl hle).2.1 (by omega) (by omega) (by omega)
    rw [Source.read, rounds_first hl hle, ended] at h
    cases h
  · rintro ⟨l, hl, hle, hpacked⟩
    obtain ⟨large, -, deflated⟩ := first_round hl hle
    have failed : s.round ⟨0, 0, ByteArray.empty⟩ = .error .wordRange := by
      by_cases hsize : maxWord < s.compressedSize
      · exact large hsize
      · obtain ⟨hdeflated, hsome⟩ := hpacked.resolve_left hsize
        exact deflated (by omega) hsome hdeflated
    rw [Source.read, rounds_first hl hle, failed]

end ZipContainer.Zip.Source
