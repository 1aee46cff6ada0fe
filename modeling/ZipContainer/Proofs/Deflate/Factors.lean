import ZipContainer.Deflate.Factor

/-!
# Factors spell the byte string

`Spells out items final` says that the items lead from the output `out` to the output `final`, and
that each of them can be written: a copy has an admissible length, and reaches back no farther than
the output and the window.  `factor_spells` says that the factors of a byte string spell it.
-/

namespace ZipContainer.Deflate

/-- The items, each of which can be written, lead from one output to another. -/
inductive Spells : ByteArray → List Item → ByteArray → Prop where
  | nil (out : ByteArray) : Spells out [] out
  | literal {out final : ByteArray} {items : List Item} (b : UInt8)
      (rest : Spells (out.push b) items final) : Spells out (.literal b :: items) final
  | copy {out final : ByteArray} {items : List Item} {length distance : Nat}
      (hlength : minCopy ≤ length ∧ length ≤ maxCopy)
      (hdistance : 1 ≤ distance ∧ distance ≤ maxDistance) (hback : distance ≤ out.size)
      (rest : Spells (copyBack distance length out) items final) :
      Spells out (.copy length distance :: items) final

namespace Spells

variable {out mid final : ByteArray} {items more : List Item}

theorem append (h : Spells out items mid) (h' : Spells mid more final) :
    Spells out (items ++ more) final := by
  induction h with
  | nil => exact h'
  | literal b _ ih => exact .literal b (ih h')
  | copy hlength hdistance hback _ ih => exact .copy hlength hdistance hback (ih h')

end Spells

variable {data : ByteArray} {i j n : Nat}

/-! ### One factor -/

theorem agreement_le (data : ByteArray) (i j n : Nat) : agreement data i j n ≤ n := by
  induction n generalizing i j with
  | zero => exact Nat.le_refl 0
  | succ n ih =>
      have := ih (i + 1) (j + 1)
      simp only [agreement]
      repeat' split
      all_goals omega

theorem extract_push (h : i < data.size) :
    (data.extract 0 i).push data[i] = data.extract 0 (i + 1) := by
  rw [← ByteArray.append_toByteArray_singleton, ← ByteArray.extract_add_one (by omega)]
  exact (ByteArray.extract_eq_extract_append_extract i (Nat.zero_le i) (by omega)).symm

/-- A copy over as many bytes as agree extends a beginning of the data to a longer one. -/
theorem copyBack_agreement (hij : j < i) (hi : i ≤ data.size) :
    copyBack (i - j) (agreement data i j n) (data.extract 0 i) =
        data.extract 0 (i + agreement data i j n) ∧
      i + agreement data i j n ≤ data.size := by
  induction n generalizing i j with
  | zero => exact ⟨rfl, hi⟩
  | succ n ih =>
      simp only [agreement]
      split
      case h_2 => exact ⟨rfl, hi⟩
      next a b ha hb =>
        split
        case isFalse => exact ⟨rfl, hi⟩
        next hab =>
          obtain ⟨hlt, rfl⟩ := getElem?_eq_some_iff.mp ha
          obtain ⟨spelled, within⟩ := ih (i := i + 1) (j := j + 1) (by omega) hlt
          have size : (data.extract 0 i).size = i := by
            rw [ByteArray.size_extract]; omega
          -- The copy reads the byte at `j`, which is the one to come because the two agree.
          have copied : (data.extract 0 i)[i - (i - j)]? = some data[i] := by
            rw [getElem?_pos _ _ (by rw [size]; omega), ByteArray.getElem_extract]
            obtain ⟨hj, hb⟩ := getElem?_eq_some_iff.mp hb
            simp only [hab, ← hb]
            congr 2
            omega
          rw [Nat.add_comm 1, copyBack, size, copied, Option.getD_some, extract_push hlt,
            ← Nat.add_assoc, Nat.add_right_comm]
          rw [Nat.add_sub_add_right] at spelled
          exact ⟨spelled, within⟩

/-- The factor at a position spells what the data go on with. -/
theorem factorAt_spells (h : i < data.size) (guess : Nat) :
    Spells (data.extract 0 i) [factorAt data i h guess]
        (data.extract 0 (i + (factorAt data i h guess).width)) ∧
      i + (factorAt data i h guess).width ≤ data.size ∧ 0 < (factorAt data i h guess).width := by
  have byte : Spells (data.extract 0 i) [.literal data[i]] (data.extract 0 (i + 1)) := by
    rw [← extract_push h]
    exact .literal _ (.nil _)
  simp only [factorAt]
  split
  case isFalse => exact ⟨byte, h, Nat.one_pos⟩
  next near =>
    split
    case isFalse => exact ⟨byte, h, Nat.one_pos⟩
    next long =>
      obtain ⟨hguess, hsource, hwindow⟩ := near
      obtain ⟨copied, within⟩ := copyBack_agreement (n := maxCopy) hsource (Nat.le_of_lt h)
      have reaches : i - (guess - 1) ≤ (data.extract 0 i).size := by
        rw [ByteArray.size_extract]; omega
      have distance : 1 ≤ i - (guess - 1) ∧ i - (guess - 1) ≤ maxDistance :=
        ⟨by omega, hwindow⟩
      refine ⟨.copy ⟨long, agreement_le _ _ _ _⟩ distance reaches ?_, within, ?_⟩
      · rw [copied]; exact .nil _
      · exact Nat.lt_of_lt_of_le (by decide) long

/-! ### All factors -/

/-- Factors on from a position spell the whole data, if those before it spell what is before. -/
theorem factorFrom_spells {fuel : Nat} {guesses : Array Nat} {acc : List Item}
    (h : Spells ByteArray.empty acc.reverse (data.extract 0 i)) (hi : i ≤ data.size)
    (hfuel : data.size - i ≤ fuel) :
    Spells ByteArray.empty (factorFrom data fuel i guesses acc).reverse data := by
  -- Whatever the guesses are, a factor is as wide as one byte, so the fuel lasts.
  induction fuel generalizing i guesses acc with
  | zero =>
      have complete : data.extract 0 i = data := by
        rw [show i = data.size by omega, ByteArray.extract_zero_size]
      rwa [factorFrom, ← complete]
  | succ fuel ih =>
      unfold factorFrom
      split
      · next hlt =>
          obtain ⟨spelled, within, wide⟩ := factorAt_spells hlt
            (guesses[guessKey data i]?.getD 0)
          refine ih ?_ within (by omega)
          rw [List.reverse_cons]
          exact h.append spelled
      · have complete : data.extract 0 i = data := by
          rw [show i = data.size by omega, ByteArray.extract_zero_size]
        rwa [← complete]

/-- **The factors of a byte string spell it.** -/
theorem factor_spells (data : ByteArray) : Spells ByteArray.empty (factor data) data := by
  refine factorFrom_spells (i := 0) ?_ (Nat.zero_le _) (Nat.le_refl _)
  simpa using Spells.nil ByteArray.empty

end ZipContainer.Deflate
