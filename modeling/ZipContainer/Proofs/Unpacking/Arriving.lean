import ZipContainer.Unpacking

/-!
# Data that arrive

A reader unpacks a stream again and again, each time with more of its data.  `Settles` says how a
reading of a few bits compares with the same reading over more data, and `Precedes` how what is
unpacked at first compares with what is unpacked later.
-/

namespace ZipContainer

variable {α β : Type}

/-- How the same reading goes over what has arrived and over more: it starves at first, or both
times it meets corrupt data or succeeds. -/
inductive Settles : Except Stop α → Except Stop α → Prop where
  | starved (y : Except Stop α) : Settles (.error .starved) y
  | corrupt : Settles (.error .corrupt) (.error .corrupt)
  | ok (a : α) : Settles (.ok a) (.ok a)

theorem Settles.bind {x y : Except Stop α} {f g : α → Except Stop β} (h : Settles x y)
    (hf : ∀ a, Settles (f a) (g a)) : Settles (x >>= f) (y >>= g) := by
  cases h with
  | starved => exact .starved _
  | corrupt => exact .corrupt
  | ok a => exact hf a

theorem Settles.ne_full {x y : Except Stop α} (h : Settles x y) : x ≠ .error .full := by
  cases h <;> simp

/-- What is unpacked at first, within a budget, comes before what is unpacked later, of more data
and within a budget no smaller. -/
inductive Precedes (budget : Nat) (u v : Unpacked) : Prop where
  /-- The stream has come to its end, or is corrupt, and stays so. -/
  | settled (why : u.why = .ended ∨ u.why = .corrupt) (output : v.output = u.output)
      (same : v.why = u.why)
  /-- The output goes on from where it was. -/
  | going (why : u.why = .starved ∨ u.why = .full ∧ budget ≤ u.output.size) (t : ByteArray)
      (output : v.output = u.output ++ t)
  /-- Output was passed on before it was checked, and turns out corrupt. -/
  | recalled (why : u.why = .starved) (corrupt : v.why = .corrupt)

namespace Precedes

variable {budget : Nat} {u v : Unpacked}

theorem refl (h : u.why = .full → budget ≤ u.output.size) : Precedes budget u u := by
  cases hwhy : u.why with
  | ended => exact .settled (.inl hwhy) rfl rfl
  | corrupt => exact .settled (.inr hwhy) rfl rfl
  | starved => exact .going (.inl hwhy) ByteArray.empty ByteArray.append_empty.symm
  | full => exact .going (.inr ⟨hwhy, h hwhy⟩) ByteArray.empty ByteArray.append_empty.symm

/-- Unless the data turn out corrupt, what is unpacked later goes on from what was unpacked. -/
theorem output (h : Precedes budget u v) (hv : v.why ≠ .corrupt) :
    ∃ t, v.output = u.output ++ t := by
  cases h with
  | settled _ hout _ => exact ⟨ByteArray.empty, by rw [hout, ByteArray.append_empty]⟩
  | going _ t hout => exact ⟨t, hout⟩
  | recalled _ hcorrupt => exact absurd hcorrupt hv

/-- Corrupt data stay corrupt. -/
theorem corrupt (h : Precedes budget u v) (hu : u.why = .corrupt) : v.why = .corrupt := by
  cases h with
  | settled _ _ hsame => rw [hsame, hu]
  | going hwhy _ _ =>
      rcases hwhy with hwhy | ⟨hwhy, -⟩
      · rw [hu] at hwhy; cases hwhy
      · rw [hu] at hwhy; cases hwhy
  | recalled _ hcorrupt => exact hcorrupt

/-- A stream that has come to its end stays as it is. -/
theorem ended (h : Precedes budget u v) (hu : u.why = .ended) :
    v.output = u.output ∧ v.why = .ended := by
  cases h with
  | settled _ hout hsame => exact ⟨hout, by rw [hsame, hu]⟩
  | going hwhy _ _ =>
      rcases hwhy with hwhy | ⟨hwhy, -⟩
      · rw [hu] at hwhy; cases hwhy
      · rw [hu] at hwhy; cases hwhy
  | recalled hwhy _ => rw [hu] at hwhy; cases hwhy

/-- What is full has reached the budget. -/
theorem full (h : Precedes budget u v) (hu : u.why = .full) : budget ≤ u.output.size := by
  cases h with
  | settled hwhy _ _ =>
      rcases hwhy with hwhy | hwhy
      · rw [hu] at hwhy; cases hwhy
      · rw [hu] at hwhy; cases hwhy
  | going hwhy _ _ =>
      rcases hwhy with hwhy | ⟨-, hle⟩
      · rw [hu] at hwhy; cases hwhy
      · exact hle
  | recalled hwhy _ => rw [hu] at hwhy; cases hwhy

end Precedes

end ZipContainer
