import ZipContainer.Lzma.Decode
import ZipContainer.Proofs.Bytes.Slices
import ZipContainer.Proofs.Unpacking.Arriving

/-!
# Decoding LZMA data that arrive

The decoder takes in one byte of the data after the other, so an action of it does the same over
more data, unless it starves (`Steady`).  Actions that are put together of steady ones are steady,
up to the decoding of one symbol (`steady_symbol`).  So the symbols that were decoded at first are
decoded again, and the output goes on from them (`run_arriving`).
-/

namespace ZipContainer.Lzma

variable {α β : Type} {src rest : ByteArray}

/-! ### Actions -/

/-- The decoder with more data behind those that it has. -/
def Range.more (r : Range) (rest : ByteArray) : Range := { r with src := r.src ++ rest }

/-- The action does the same over more data, unless it starves. -/
def Steady (d : Decoder α) : Prop :=
  ∀ (r : Range) (rest : ByteArray),
    Settles ((d r).map fun p => (p.1, p.2.more rest)) (d (r.more rest))

namespace Steady

theorem pure (a : α) : Steady (Pure.pure a) := fun _ _ => .ok _

theorem corrupt : Steady (throw .corrupt : Decoder α) := fun _ _ => .corrupt

theorem bind {d : Decoder α} {f : α → Decoder β} (hd : Steady d) (hf : ∀ a, Steady (f a)) :
    Steady (d >>= f) := by
  intro r rest
  have first := hd r rest
  show Settles (Except.map _ (d r >>= fun p => f p.1 p.2)) (d (r.more rest) >>= fun p => f p.1 p.2)
  generalize d (r.more rest) = y at first ⊢
  cases hr : d r with
  | error why =>
      rw [hr] at first
      cases first with
      | starved => exact .starved _
      | corrupt => exact .corrupt
  | ok p =>
      rw [hr] at first
      cases first with
      | ok => exact hf p.1 p.2 rest

/-- What an action does once the range is large enough. -/
theorem of_normalize {d : Decoder α} (f : Range → Except Stop (α × Range))
    (hd : ∀ r, d r = r.normalize >>= f)
    (hf : ∀ (r : Range) (rest : ByteArray),
      Settles ((f r).map fun p => (p.1, p.2.more rest)) (f (r.more rest))) : Steady d := by
  intro r rest
  have normal : Settles (r.normalize.map (·.more rest)) (r.more rest).normalize := by
    unfold Range.normalize
    by_cases hsmall : r.range < 0x1000000
    · by_cases hpos : r.pos < r.src.size
      · have hpos' : (r.more rest).pos < (r.more rest).src.size := by
          simp only [Range.more, ByteArray.size_append]
          omega
        have hsmall' : (r.more rest).range < 0x1000000 := hsmall
        rw [if_pos hsmall, dif_pos hpos, if_pos hsmall', dif_pos hpos']
        have same : (r.more rest).src[(r.more rest).pos] = r.src[r.pos] :=
          ByteArray.getElem_append_left hpos
        rw [same]
        exact .ok _
      · rw [if_pos hsmall, dif_neg hpos]
        exact .starved _
    · have hsmall' : ¬ (r.more rest).range < 0x1000000 := hsmall
      rw [if_neg hsmall, if_neg hsmall']
      exact .ok _
  rw [hd, hd]
  generalize (r.more rest).normalize = y at normal ⊢
  cases hr : r.normalize with
  | error why =>
      rw [hr] at normal
      cases normal with
      | starved => exact .starved _
      | corrupt => exact .corrupt
  | ok r' =>
      rw [hr] at normal
      cases normal with
      | ok => exact hf r' rest

end Steady

/-! ### Bits and numbers -/

theorem steady_bit (index : Nat) : Steady (bit index) := by
  refine .of_normalize (fun r =>
    let p := r.estimates[index]?.getD evenEstimate
    let bound := (r.range >>> scaleBits) * p
    if r.code < bound then
      let p := p + (((1 <<< scaleBits) - p) >>> moveBits)
      .ok (0, { r with range := bound, estimates := r.estimates.setIfInBounds index p })
    else
      let p := p - (p >>> moveBits)
      .ok (1, { r with
        range := r.range - bound
        code := r.code - bound
        estimates := r.estimates.setIfInBounds index p })) (fun r => ?_) fun r rest => ?_
  · unfold bit
    cases r.normalize <;> rfl
  · by_cases h : r.code < (r.range >>> scaleBits) * r.estimates[index]?.getD evenEstimate
    · have h' : (r.more rest).code < ((r.more rest).range >>> scaleBits) *
          (r.more rest).estimates[index]?.getD evenEstimate := h
      simp only [if_pos h, if_pos h']
      exact .ok _
    · have h' : ¬ (r.more rest).code < ((r.more rest).range >>> scaleBits) *
          (r.more rest).estimates[index]?.getD evenEstimate := h
      simp only [if_neg h, if_neg h']
      exact .ok _

theorem steady_evenBit : Steady evenBit := by
  refine .of_normalize (fun r =>
    let half := r.range >>> 1
    if r.code < half then .ok (0, { r with range := half })
    else .ok (1, { r with range := half, code := r.code - half })) (fun r => ?_) fun r rest => ?_
  · unfold evenBit
    cases r.normalize <;> rfl
  · by_cases h : r.code < r.range >>> 1
    · have h' : (r.more rest).code < (r.more rest).range >>> 1 := h
      simp only [if_pos h, if_pos h']
      exact .ok _
    · have h' : ¬ (r.more rest).code < (r.more rest).range >>> 1 := h
      simp only [if_neg h, if_neg h']
      exact .ok _

theorem steady_endOfStream : Steady endOfStream := by
  refine .of_normalize (fun r =>
    if r.code = 0 then .ok (.endOfStream, r) else .error .corrupt) (fun r => ?_) fun r rest => ?_
  · unfold endOfStream
    cases r.normalize <;> rfl
  · by_cases h : r.code = 0
    · have h' : (r.more rest).code = 0 := h
      simp only [if_pos h, if_pos h']
      exact .ok _
    · have h' : ¬ (r.more rest).code = 0 := h
      simp only [if_neg h, if_neg h']
      exact .corrupt

theorem steady_directBits (n acc : Nat) : Steady (directBits n acc) := by
  induction n generalizing acc with
  | zero => exact .pure _
  | succ n ih => exact steady_evenBit.bind fun _ => ih _

theorem steady_treeFrom (base n node : Nat) : Steady (treeFrom base n node) := by
  induction n generalizing node with
  | zero => exact .pure _
  | succ n ih => exact (steady_bit _).bind fun _ => ih _

theorem steady_tree (base n : Nat) : Steady (tree base n) :=
  (steady_treeFrom base n 1).bind fun _ => .pure _

theorem steady_reverseTree (base n node weight acc : Nat) :
    Steady (reverseTree base n node weight acc) := by
  induction n generalizing node weight acc with
  | zero => exact .pure _
  | succ n ih => exact (steady_bit _).bind fun _ => ih _ _ _

/-! ### Symbols -/

theorem steady_decodeLength (base pos : Nat) : Steady (decodeLength base pos) := by
  refine (steady_bit _).bind fun b => ?_
  split
  · exact (steady_tree _ _).bind fun _ => .pure _
  refine (steady_bit _).bind fun b => ?_
  split <;> exact (steady_tree _ _).bind fun _ => .pure _

theorem steady_matchedLiteral (base other n offset node : Nat) :
    Steady (matchedLiteral base other n offset node) := by
  induction n generalizing offset node with
  | zero => exact .pure _
  | succ n ih => exact (steady_bit _).bind fun _ => ih _ _

theorem steady_literal (p : Parameters) (h : History) : Steady (literal p h) := by
  unfold literal
  dsimp only
  split
  · exact (steady_treeFrom _ _ _).bind fun _ => .pure _
  · exact (steady_matchedLiteral _ _ _ _ _).bind fun _ => .pure _

theorem steady_decodeDistance (length : Nat) : Steady (decodeDistance length) := by
  refine (steady_tree _ _).bind fun slot => ?_
  split
  · exact .pure _
  split
  · exact steady_reverseTree _ _ _ _ _
  · exact (steady_directBits _ _).bind fun _ => steady_reverseTree _ _ _ _ _

/-- **Decoding a symbol is steady.** -/
theorem steady_symbol (p : Parameters) (h : History) : Steady (symbol p h) := by
  have copied (state length d₀ d₁ d₂ d₃ : Nat) :
      Steady (pure (.copy state length d₀ d₁ d₂ d₃) : Decoder Symbol) := .pure _
  unfold symbol
  dsimp only
  refine (steady_bit _).bind fun isMatch => ?_
  split
  · exact (steady_literal p h).bind fun _ => .pure _
  refine (steady_bit _).bind fun isRepeat => ?_
  split
  · refine (steady_decodeLength _ _).bind fun length => ?_
    refine (steady_decodeDistance _).bind fun distance => ?_
    split
    · exact steady_endOfStream
    split
    · exact .corrupt
    · exact copied _ _ _ _ _ _
  split
  · exact .corrupt
  refine (steady_bit _).bind fun isOlder => ?_
  split
  · refine (steady_bit _).bind fun isLong => ?_
    split
    · exact copied _ _ _ _ _ _
    · exact (steady_decodeLength _ _).bind fun _ => copied _ _ _ _ _ _
  refine (steady_bit _).bind fun isThird => ?_
  split
  · exact (steady_decodeLength _ _).bind fun _ => copied _ _ _ _ _ _
  refine (steady_bit _).bind fun isFourth => ?_
  split <;> exact (steady_decodeLength _ _).bind fun _ => copied _ _ _ _ _ _

/-! ### Streams -/

theorem copyBack_grows (distance n : Nat) (out : ByteArray) :
    ∃ t, copyBack distance n out = out ++ t := by
  induction n generalizing out with
  | zero => exact ⟨ByteArray.empty, ByteArray.append_empty.symm⟩
  | succ n ih =>
      obtain ⟨t, ht⟩ := ih (out.push (out[out.size - 1 - distance]?.getD 0))
      rw [copyBack, ht, ← ByteArray.append_toByteArray_singleton, ByteArray.append_assoc]
      exact ⟨_, rfl⟩

/-- The output of a run goes on from what was there. -/
theorem run_grows (p : Parameters) (fuel : Nat) (h : History) (r : Range) :
    ∃ t, (run p fuel h r).1 = h.out ++ t := by
  induction fuel generalizing h r with
  | zero => exact ⟨ByteArray.empty, ByteArray.append_empty.symm⟩
  | succ fuel ih =>
      have same : ∃ t, h.out = h.out ++ t := ⟨ByteArray.empty, ByteArray.append_empty.symm⟩
      unfold run
      split
      · exact same
      · exact same
      · next b r' _ =>
          obtain ⟨t, ht⟩ := ih { h with out := h.out.push b, state := afterLiteral h.state } r'
          rw [ht, ← ByteArray.append_toByteArray_singleton, ByteArray.append_assoc]
          exact ⟨_, rfl⟩
      · next state length d r₁ r₂ r₃ r' _ =>
          obtain ⟨t, ht⟩ := ih ⟨copyBack d length h.out, state, d, r₁, r₂, r₃⟩ r'
          obtain ⟨t', ht'⟩ := copyBack_grows d length h.out
          rw [ht, ht', ByteArray.append_assoc]
          exact ⟨_, rfl⟩

/-- What a run yields, as what is unpacked. -/
def unpackedOf (used : Nat) (result : ByteArray × Stop) : Unpacked := ⟨result.1, used, result.2⟩

/-- **Symbols that were decoded of what had arrived** are decoded again when more has arrived. -/
theorem run_arriving (budget used used' : Nat) (p : Parameters) {fuel fuel' : Nat}
    (hf : fuel ≤ fuel') (h : History) (r : Range) (rest : ByteArray) :
    Precedes budget (unpackedOf used (run p fuel h r))
      (unpackedOf used' (run p fuel' h (r.more rest))) := by
  induction fuel generalizing fuel' h r with
  | zero =>
      obtain ⟨t, ht⟩ := run_grows p fuel' h (r.more rest)
      exact .going (.inl rfl) t ht
  | succ fuel ih =>
      obtain ⟨fuel', rfl⟩ : ∃ n, fuel' = n + 1 := ⟨fuel' - 1, by omega⟩
      obtain ⟨t, ht⟩ := run_grows p (fuel' + 1) h (r.more rest)
      have next := steady_symbol p h r rest
      unfold run at ht ⊢
      generalize symbol p h (r.more rest) = y at next ht ⊢
      cases hr : symbol p h r with
      | error why =>
          rw [hr] at next
          cases next with
          | starved => exact .going (.inl rfl) t ht
          | corrupt => exact .settled (.inr rfl) rfl rfl
      | ok q =>
          obtain ⟨s, r'⟩ := q
          rw [hr] at next
          cases next with
          | ok =>
              cases s with
              | endOfStream => exact .settled (.inl rfl) rfl rfl
              | literal b => exact ih (by omega) _ r'
              | copy state length d r₁ r₂ r₃ => exact ih (by omega) _ r'

/-- A byte that has arrived stays. -/
theorem byte_append {i : Nat} {b : UInt8} (h : src[i]? = some b) : (src ++ rest)[i]? = some b := by
  obtain ⟨hlt, rfl⟩ := getElem?_eq_some_iff.mp h
  have hlt' : i < (src ++ rest).size := by rw [ByteArray.size_append]; omega
  rw [getElem?_eq_some_iff]
  exact ⟨hlt', ByteArray.getElem_append_left hlt⟩

/-- A decoder that has started starts the same when more has arrived. -/
theorem start_arriving (src rest : ByteArray) (pos estimates : Nat) :
    Settles ((Range.start src pos estimates).map (·.more rest))
      (Range.start (src ++ rest) pos estimates) := by
  unfold Range.start
  cases h : src[pos]? with
  | none => exact .starved _
  | some b =>
      rw [byte_append h]
      by_cases hb : b ≠ 0
      · simp only [if_pos hb]
        exact .corrupt
      · simp only [if_neg hb]
        split
        · next h₁ h₂ h₃ h₄ =>
            simp only [byte_append h₁, byte_append h₂, byte_append h₃, byte_append h₄]
            exact .ok _
        · exact .starved _

theorem decodeRaw_arriving (budget used used' : Nat) (p : Parameters) (src rest : ByteArray)
    (pos : Nat) :
    Precedes budget (unpackedOf used (decodeRaw p src pos))
      (unpackedOf used' (decodeRaw p (src ++ rest) pos)) := by
  have start := start_arriving src rest pos (estimateCount p)
  have longer : symbolsPerByte * (src.size + 2) ≤ symbolsPerByte * ((src ++ rest).size + 2) :=
    Nat.mul_le_mul_left _ (by rw [ByteArray.size_append]; omega)
  unfold decodeRaw
  generalize Range.start (src ++ rest) pos (estimateCount p) = y at start ⊢
  cases hr : Range.start src pos (estimateCount p) with
  | error why =>
      rw [hr] at start
      cases start with
      | starved => exact .going (.inl rfl) _ ByteArray.empty_append.symm
      | corrupt => exact .settled (.inr rfl) rfl rfl
  | ok r =>
      rw [hr] at start
      cases start with
      | ok => exact run_arriving budget used used' p longer _ r rest

/-- **LZMA data that have arrived decode to a beginning** of what all data decode to. -/
theorem decode_arriving (budget : Nat) (src rest : ByteArray) :
    Precedes budget (decode src) (decode (src ++ rest)) := by
  unfold decode
  split
  · next lo hi hlo hhi =>
      simp only [byte_append hlo, byte_append hhi]
      split
      · exact .going (.inl rfl) _ ByteArray.empty_append.symm
      · next hsize =>
          have hsize' : ¬ (src ++ rest).size ≤ 4 + (lo.toNat + 0x100 * hi.toNat) := by
            rw [ByteArray.size_append]
            omega
          have same : (src ++ rest).extract 4 (4 + (lo.toNat + 0x100 * hi.toNat)) =
              src.extract 4 (4 + (lo.toNat + 0x100 * hi.toNat)) :=
            extract_append_of_le src rest 4 (by omega)
          rw [if_neg hsize', same]
          split
          · exact .settled (.inr rfl) rfl rfl
          · next p _ => exact decodeRaw_arriving budget src.size (src ++ rest).size p src rest _
  · exact .going (.inl rfl) _ ByteArray.empty_append.symm

end ZipContainer.Lzma
