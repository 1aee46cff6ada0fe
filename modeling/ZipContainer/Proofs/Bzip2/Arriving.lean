import ZipContainer.Bzip2.Decode
import ZipContainer.Proofs.Bytes.Slices
import ZipContainer.Proofs.Unpacking.Arriving

/-!
# Decoding bzip2 data that arrive

Every reading settles: over more data it starves no sooner, and otherwise does the same.  So the
blocks that were decoded at first are decoded again, and the output goes on from them
(`readBlocks_arriving`).  Only a block whose bytes were passed on before its checksum was compared
may turn out corrupt later, and is then missing from the output.
-/

namespace ZipContainer.Bzip2

variable {α : Type} {src rest : ByteArray}

theorem bit?_append {pos : Nat} {b : Bool} (h : bit? src pos = some b) :
    bit? (src ++ rest) pos = some b := by
  unfold bit? at h ⊢
  split at h
  · next hlt =>
      rw [dif_pos (by simp only [ByteArray.size_append]; omega),
        ByteArray.getElem_append_left hlt]
      exact h
  · cases h

/-! ### Codes -/

theorem readBits_append (n acc pos : Nat) :
    Settles (readBits src n acc pos) (readBits (src ++ rest) n acc pos) := by
  induction n generalizing acc pos with
  | zero => exact .ok _
  | succ n ih =>
      simp only [readBits]
      cases hb : bit? src pos with
      | none => exact .starved _
      | some b => rw [bit?_append hb]; exact ih _ _

theorem match?_append (c : Code) (fuel len acc pos : Nat) :
    Settles (c.match? src fuel len acc pos) (c.match? (src ++ rest) fuel len acc pos) := by
  induction fuel generalizing len acc pos with
  | zero => exact .corrupt
  | succ fuel ih =>
      simp only [Code.match?]
      split
      · exact .corrupt
      split
      · split
        · exact .corrupt
        · exact .ok _
      cases hb : bit? src pos with
      | none => exact .starved _
      | some b => rw [bit?_append hb]; exact ih _ _ _

theorem code_read_append (c : Code) (pos : Nat) :
    Settles (c.read src pos) (c.read (src ++ rest) pos) :=
  (readBits_append c.least 0 pos).bind fun _ => match?_append c _ _ _ _

/-! ### Headers -/

theorem readSet16_append (pos : Nat) :
    Settles (readSet16 src pos) (readSet16 (src ++ rest) pos) :=
  (readBits_append 16 0 pos).bind fun _ => .ok _

theorem readRows_append (rows : List Nat) (pos : Nat) :
    Settles (readRows src rows pos) (readRows (src ++ rest) rows pos) := by
  induction rows generalizing pos with
  | nil => exact .ok _
  | cons row rows ih =>
      exact (readSet16_append pos).bind fun _ => (ih _).bind fun _ => .ok _

theorem readUnary_append (bound fuel n pos : Nat) :
    Settles (readUnary src bound fuel n pos) (readUnary (src ++ rest) bound fuel n pos) := by
  induction fuel generalizing n pos with
  | zero => exact .corrupt
  | succ fuel ih =>
      simp only [readUnary]
      cases hb : bit? src pos with
      | none => exact .starved _
      | some b =>
          rw [bit?_append hb]
          cases b with
          | false => exact .ok _
          | true =>
              dsimp only
              split
              · exact .corrupt
              · exact ih _ _

theorem readSelectors_append (groups n : Nat) (recent acc : List Nat) (pos : Nat) :
    Settles (readSelectors src groups n recent acc pos)
      (readSelectors (src ++ rest) groups n recent acc pos) := by
  induction n generalizing recent acc pos with
  | zero => exact .ok _
  | succ n ih => exact (readUnary_append _ _ _ pos).bind fun _ => ih _ _ _

/-- More fuel does no harm either. -/
theorem readLength_append {fuel fuel' : Nat} (hf : fuel ≤ fuel') (len pos : Nat) :
    Settles (readLength src fuel len pos) (readLength (src ++ rest) fuel' len pos) := by
  induction fuel generalizing fuel' len pos with
  | zero => exact .starved _
  | succ fuel ih =>
      obtain ⟨fuel', rfl⟩ : ∃ n, fuel' = n + 1 := ⟨fuel' - 1, by omega⟩
      simp only [readLength]
      split
      · exact .corrupt
      cases hb : bit? src pos with
      | none => exact .starved _
      | some b =>
          rw [bit?_append hb]
          cases b with
          | false => exact .ok _
          | true =>
              cases hd : bit? src (pos + 1) with
              | none => exact .starved _
              | some down => rw [bit?_append hd]; exact ih (by omega) _ _

/-- The fuel is measured by the data, so there is more of it for more data. -/
theorem fuel_append (src rest : ByteArray) : 8 * src.size + 1 ≤ 8 * (src ++ rest).size + 1 := by
  rw [ByteArray.size_append]
  omega

theorem readLengths_append (n len pos : Nat) :
    Settles (readLengths src n len pos) (readLengths (src ++ rest) n len pos) := by
  induction n generalizing len pos with
  | zero => exact .ok _
  | succ n ih =>
      exact (readLength_append (fuel_append src rest) len pos).bind fun _ =>
        (ih _ _).bind fun _ => .ok _

theorem readCodes_append (alphabet n pos : Nat) :
    Settles (readCodes src alphabet n pos) (readCodes (src ++ rest) alphabet n pos) := by
  induction n generalizing pos with
  | zero => exact .ok _
  | succ n ih =>
      exact (readBits_append 5 0 pos).bind fun _ => (readLengths_append alphabet _ _).bind fun _ =>
        (ih _).bind fun _ => .ok _

theorem readHeader_append (limit pos : Nat) :
    Settles (readHeader src limit pos) (readHeader (src ++ rest) limit pos) := by
  unfold readHeader
  refine (readBits_append 32 0 pos).bind fun ⟨crc, pos⟩ => ?_
  refine (readBits_append 1 0 pos).bind fun ⟨randomised, pos⟩ => ?_
  refine (readBits_append 24 0 pos).bind fun ⟨row, pos⟩ => ?_
  dsimp only
  split
  · exact .corrupt
  refine (readSet16_append pos).bind fun ⟨rows, pos⟩ => ?_
  refine (readRows_append rows pos).bind fun ⟨alphabet, pos⟩ => ?_
  dsimp only
  split
  · exact .corrupt
  refine (readBits_append 3 0 pos).bind fun ⟨groups, pos⟩ => ?_
  dsimp only
  split
  · exact .corrupt
  refine (readBits_append 15 0 pos).bind fun ⟨count, pos⟩ => ?_
  dsimp only
  split
  · exact .corrupt
  refine (readSelectors_append groups count _ _ pos).bind fun ⟨selectors, pos⟩ => ?_
  exact (readCodes_append _ groups pos).bind fun _ => .ok _

/-! ### Blocks -/

theorem openGroup_settles (s : Symbols) (codes : Array Code) :
    Settles (s.openGroup codes) (s.openGroup codes) := by
  unfold Symbols.openGroup
  split
  · split
    · exact .corrupt
    · exact .ok _
  · exact .ok _

theorem closeRun_settles (s : Symbols) (limit : Nat) :
    Settles (s.closeRun limit) (s.closeRun limit) := by
  unfold Symbols.closeRun
  split
  · exact .ok _
  split
  · exact .corrupt
  · exact .ok _

theorem readColumn_append (codes : Array Code) (limit ending : Nat) {fuel fuel' : Nat}
    (hf : fuel ≤ fuel') (s : Symbols) (pos : Nat) :
    Settles (readColumn src codes limit ending fuel s pos)
      (readColumn (src ++ rest) codes limit ending fuel' s pos) := by
  induction fuel generalizing fuel' s pos with
  | zero => exact .starved _
  | succ fuel ih =>
      obtain ⟨fuel', rfl⟩ : ∃ n, fuel' = n + 1 := ⟨fuel' - 1, by omega⟩
      simp only [readColumn]
      refine (openGroup_settles s codes).bind fun s => ?_
      refine (code_read_append s.code pos).bind fun ⟨symbol, pos⟩ => ?_
      dsimp only
      split
      · split
        · exact .corrupt
        · exact ih (by omega) _ _
      refine (closeRun_settles _ limit).bind fun s => ?_
      split
      · exact .ok _
      split
      · exact .corrupt
      · exact ih (by omega) _ _

theorem lengthenRuns_settles (block : Array UInt8) :
    Settles (lengthenRuns block) (lengthenRuns block) := by
  unfold lengthenRuns
  dsimp only
  split
  · exact .corrupt
  · exact .ok _

theorem readBlock_append (limit pos : Nat) :
    Settles (readBlock src limit pos) (readBlock (src ++ rest) limit pos) := by
  unfold readBlock
  refine (readHeader_append limit pos).bind fun ⟨h, pos⟩ => ?_
  refine (readColumn_append h.codes limit _ (fuel_append src rest) _ pos).bind
    fun ⟨column, pos⟩ => ?_
  dsimp only
  split
  · exact .corrupt
  · exact (lengthenRuns_settles _).bind fun _ => .ok _

/-! ### Streams -/

theorem expectBytes_append (bs : List Nat) (pos : Nat) :
    Settles (expectBytes src bs pos) (expectBytes (src ++ rest) bs pos) := by
  induction bs generalizing pos with
  | nil => exact .ok _
  | cons b bs ih =>
      refine (readBits_append 8 0 pos).bind fun ⟨x, pos⟩ => ?_
      dsimp only
      split
      · exact ih pos
      · exact .corrupt

theorem readEnding_append (combined : UInt32) (pos : Nat) :
    Settles (readEnding src combined pos) (readEnding (src ++ rest) combined pos) := by
  refine (expectBytes_append endMark pos).bind fun ⟨_, pos⟩ => ?_
  refine (readBits_append 32 0 pos).bind fun ⟨stated, _⟩ => ?_
  dsimp only
  split
  · exact .ok _
  · exact .corrupt

theorem readMarked_append (limit pos : Nat) :
    Settles (readMarked src limit pos) (readMarked (src ++ rest) limit pos) :=
  (expectBytes_append blockMark pos).bind fun _ => readBlock_append limit _

/-- The output goes on from that of the blocks before. -/
theorem readBlocks_grows (src : ByteArray) (limit fuel : Nat) (out : ByteArray)
    (combined : UInt32) (pos : Nat) :
    ∃ t, (readBlocks src limit fuel out combined pos).output = out ++ t := by
  induction fuel generalizing out combined pos with
  | zero => exact ⟨ByteArray.empty, ByteArray.append_empty.symm⟩
  | succ fuel ih =>
      have same : ∃ t, out = out ++ t := ⟨ByteArray.empty, ByteArray.append_empty.symm⟩
      unfold readBlocks
      split
      · exact same
      split
      · split <;> exact same
      split
      · exact same
      · next stated block pos' _ =>
          dsimp only
          split
          · exact ⟨_, rfl⟩
          split
          · exact same
          · obtain ⟨t, ht⟩ := ih (out ++ block) (combineCrc combined (blockCrc block)) pos'
            exact ⟨block ++ t, by rw [ht, ByteArray.append_assoc]⟩

/-- **Blocks that were decoded of what had arrived** are decoded again when more has arrived. -/
theorem readBlocks_arriving (budget limit : Nat) {fuel fuel' : Nat} (hf : fuel ≤ fuel')
    (out : ByteArray) (combined : UInt32) (pos : Nat) :
    Precedes budget (readBlocks src limit fuel out combined pos)
      (readBlocks (src ++ rest) limit fuel' out combined pos) := by
  induction fuel generalizing fuel' out combined pos with
  | zero =>
      obtain ⟨t, ht⟩ := readBlocks_grows (src ++ rest) limit fuel' out combined pos
      exact .going (.inl rfl) t ht
  | succ fuel ih =>
      obtain ⟨fuel', rfl⟩ : ∃ n, fuel' = n + 1 := ⟨fuel' - 1, by omega⟩
      obtain ⟨t, ht⟩ := readBlocks_grows (src ++ rest) limit (fuel' + 1) out combined pos
      unfold readBlocks at ht ⊢
      have mark : Settles (readBits src 8 0 pos) (readBits (src ++ rest) 8 0 pos) :=
        readBits_append 8 0 pos
      generalize readBits src 8 0 pos = x at mark ⊢
      generalize readBits (src ++ rest) 8 0 pos = y at mark ht ⊢
      cases mark with
      | starved => exact .going (.inl rfl) t ht
      | corrupt => exact .settled (.inr rfl) rfl rfl
      | ok m =>
      obtain ⟨mark, after⟩ := m
      dsimp only at ht ⊢
      by_cases hmark : mark = 0x17
      · simp only [if_pos hmark] at ht ⊢
        have ending : Settles (readEnding src combined pos) (readEnding (src ++ rest) combined pos) :=
          readEnding_append combined pos
        generalize readEnding src combined pos = x at ending ⊢
        generalize readEnding (src ++ rest) combined pos = y at ending ht ⊢
        cases ending with
        | starved => exact .going (.inl rfl) t ht
        | corrupt => exact .settled (.inr rfl) rfl rfl
        | ok => exact .settled (.inl rfl) rfl rfl
      · simp only [if_neg hmark] at ht ⊢
        have marked : Settles (readMarked src limit pos) (readMarked (src ++ rest) limit pos) :=
          readMarked_append limit pos
        generalize readMarked src limit pos = x at marked ⊢
        generalize readMarked (src ++ rest) limit pos = y at marked ht ⊢
        cases marked with
        | starved => exact .going (.inl rfl) t ht
        | corrupt => exact .settled (.inr rfl) rfl rfl
        | ok b =>
        obtain ⟨⟨stated, block⟩, pos'⟩ := b
        dsimp only at ht ⊢
        by_cases hpassed : src.size * 8 < pos' + 8 ∧
            passedOn out.size (out.size + block.size) < out.size + block.size
        · simp only [hpassed, decide_true, Bool.and_true, if_true]
          obtain ⟨later, hlater⟩ :=
            extract_begins block (passedOn out.size (out.size + block.size) - out.size)
          generalize passedOn out.size (out.size + block.size) = passed at hpassed hlater ⊢
          -- More data may show that the block was corrupt, or that it was to be passed on whole.
          split
          · exact .going (.inl rfl) ByteArray.empty ByteArray.append_empty.symm
          split
          · exact .recalled rfl rfl
          · obtain ⟨t, ht⟩ := readBlocks_grows (src ++ rest) limit fuel' (out ++ block)
              (combineCrc combined (blockCrc block)) pos'
            have whole : block ++ t = block.extract 0 (passed - out.size) ++ (later ++ t) := by
              rw [← ByteArray.append_assoc, ← hlater]
            exact .going (.inl rfl) (later ++ t) (by
              rw [ht, ByteArray.append_assoc, whole, ByteArray.append_assoc])
        · have hpassed' : ¬ ((src ++ rest).size * 8 < pos' + 8 ∧
              passedOn out.size (out.size + block.size) < out.size + block.size) := by
            rw [ByteArray.size_append]
            omega
          simp only [← Bool.decide_and, decide_eq_true_eq, if_neg hpassed, if_neg hpassed']
          split
          · exact .settled (.inr rfl) rfl rfl
          · exact ih (by omega) _ _ _

theorem readLevel_append (pos : Nat) :
    Settles (readLevel src pos) (readLevel (src ++ rest) pos) := by
  refine (expectBytes_append _ pos).bind fun ⟨_, pos⟩ => ?_
  refine (readBits_append 8 0 pos).bind fun ⟨level, pos⟩ => ?_
  dsimp only
  split
  · exact .corrupt
  · exact .ok _

/-- **Bzip2 data that have arrived decode to a beginning** of what all data decode to, unless more
data turn out corrupt. -/
theorem decode_arriving (budget : Nat) (src rest : ByteArray) :
    Precedes budget (decode src) (decode (src ++ rest)) := by
  have level : Settles (readLevel src 0) (readLevel (src ++ rest) 0) := readLevel_append 0
  unfold decode
  generalize readLevel src 0 = x at level ⊢
  generalize readLevel (src ++ rest) 0 = y at level ⊢
  cases level with
  | starved => exact .going (.inl rfl) _ ByteArray.empty_append.symm
  | corrupt => exact .settled (.inr rfl) rfl rfl
  | ok l =>
      exact readBlocks_arriving budget _ (by rw [ByteArray.size_append]; omega) _ _ _

end ZipContainer.Bzip2
