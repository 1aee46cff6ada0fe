import ZipContainer.Proofs.Deflate.Expansion
import ZipContainer.Proofs.Deflate.Factors
import ZipContainer.Proofs.Deflate.Stored

/-!
# What was deflated is inflated again

The encoder writes the factors of a byte string as one block with fixed codes, or stores it where
that is shorter.  The decoder reads every item back (`readItem_copy`) and puts it into effect, so that
the run spells the byte string and ends (`inflate_codedStream`).  It does so with any budget that has
room for the whole output.

So this way to deflate is a compressor (`compressor`).  What holds of any of them is that data are never
so short that the bound on their expansion would have no room (`Compressor.expands`).
-/

namespace ZipContainer.Deflate

variable {src : ByteArray} {pos : Nat}

/-! ### One item -/

/-- Extra bits are read as the number that they were made from. -/
theorem readExtra_extraBits {base width n : Nat}
    (h : BitsAt src pos (extraBits (some (base, width)) n)) (hbase : base ≤ n)
    (hn : n < base + 2 ^ width) :
    readExtra src pos (base, width) = .ok (n, pos + (extraBits (some (base, width)) n).length) := by
  have value : bits? src pos width = some (n - base) := bits?_lowBits h (by omega)
  rw [readExtra, value, extraBits, length_lowBits]
  simp only [Except.ok.injEq, Prod.mk.injEq, and_true]
  omega

theorem readItem_literal {b : UInt8} (h : BitsAt src pos (Item.bits (.literal b))) :
    readItem src pos fixedCodes = .ok (.literal b, pos + (Item.bits (.literal b)).length) := by
  have small : b.toNat < endSymbol := b.toNat_lt
  have symbol : b.toNat < 286 := Nat.lt_trans small (by decide)
  simp only [readItem, literal_walk symbol h, Item.bits, bind, Except.bind, small, if_true]
  simp [pure, Except.pure]

theorem readItem_endOfBlock (h : BitsAt src pos (Item.bits .endOfBlock)) :
    readItem src pos fixedCodes = .ok (.endOfBlock, pos + (Item.bits .endOfBlock).length) := by
  simp only [readItem, literal_walk (by decide : endSymbol < 286) h, Item.bits, bind, Except.bind,
    Nat.lt_irrefl, if_false, if_true]
  rfl

theorem readItem_copy {length distance : Nat} (hlength : minCopy ≤ length ∧ length ≤ maxCopy)
    (hdistance : 1 ≤ distance ∧ distance ≤ maxDistance)
    (h : BitsAt src pos (Item.bits (.copy length distance))) :
    readItem src pos fixedCodes =
      .ok (.copy length distance, pos + (Item.bits (.copy length distance)).length) := by
  obtain ⟨base, width, hrow, hbase, hlt⟩ := rowFor_length hlength.1 hlength.2
  obtain ⟨base', width', hrow', hbase', hlt'⟩ := rowFor_distance hdistance.1 hdistance.2
  have hl : rowFor lengthTable length < 29 := (List.getElem?_eq_some_iff.mp hrow).1
  have hd : rowFor distanceTable distance < 30 := (List.getElem?_eq_some_iff.mp hrow').1
  simp only [Item.bits, bitsAt_append, hrow, hrow'] at h ⊢
  obtain ⟨⟨⟨hcode, hextra⟩, hcode'⟩, hextra'⟩ := h
  -- The symbols of lengths come after that of the end, so the item is read as a copy.
  have symbol : firstLength + rowFor lengthTable length < 286 := by
    rw [firstLength]; omega
  have notLiteral : ¬ firstLength + rowFor lengthTable length < endSymbol := by
    rw [firstLength, endSymbol]; omega
  have notEnd : ¬ firstLength + rowFor lengthTable length = endSymbol := by
    rw [firstLength, endSymbol]; omega
  have row : firstLength + rowFor lengthTable length - firstLength = rowFor lengthTable length := by
    omega
  rw [readItem, literal_walk symbol hcode]
  simp only [bind, Except.bind, if_neg notLiteral, if_neg notEnd, row, hrow,
    readExtra_extraBits hextra hbase hlt]
  rw [List.length_append, ← Nat.add_assoc] at hcode'
  rw [distance_walk hd hcode']
  simp only [hrow']
  rw [List.length_append, List.length_append, ← Nat.add_assoc, ← Nat.add_assoc] at hextra'
  rw [readExtra_extraBits hextra' hbase' hlt']
  simp only [List.length_append, pure, Except.pure, Nat.add_assoc]

/-! ### All items -/

theorem Spells.size_le {items : List Item} {out final : ByteArray} (h : Spells out items final) :
    out.size ≤ final.size := by
  induction h with
  | nil out => exact Nat.le_refl _
  | literal b _ ih =>
      rw [ByteArray.size_push] at ih
      omega
  | @copy out final items length distance _ _ _ _ ih =>
      obtain ⟨t, ht⟩ := copyBack_grows distance length out
      rw [ht, ByteArray.size_append] at ih
      omega

/-- **A run over items spells what they spell, and ends** where the end of the block stands behind
them. -/
theorem run_items {items : List Item} {out final : ByteArray} {budget fuel : Nat}
    (spelled : Spells out items final) (hbudget : final.size ≤ budget)
    (hfuel : items.length < fuel)
    (h : BitsAt src pos ((items ++ [Item.endOfBlock]).flatMap Item.bits)) :
    ∃ e : State, run src budget fuel ⟨pos, out, .coded fixedCodes, true⟩ = (e, .ended) ∧
      e.out = final := by
  induction spelled generalizing pos fuel with
  | nil out =>
      obtain ⟨fuel, rfl⟩ : ∃ n, fuel = n + 1 := ⟨fuel - 1, by omega⟩
      rw [List.nil_append, List.flatMap_singleton] at h
      rw [run_succ (Nat.not_lt.mpr hbudget), step]
      simp only [readItem_endOfBlock h, applyItem, closeBlock, if_true]
      exact ⟨_, rfl, rfl⟩
  | literal b rest ih =>
      obtain ⟨fuel, rfl⟩ : ∃ n, fuel = n + 1 := ⟨fuel - 1, by omega⟩
      have room := (Spells.literal b rest).size_le
      rw [List.cons_append, List.flatMap_cons, bitsAt_append] at h
      rw [run_succ (by dsimp only; omega), step]
      simp only [readItem_literal h.1, applyItem]
      exact ih hbudget (by simpa using hfuel) h.2
  | copy hlength hdistance hback rest ih =>
      obtain ⟨fuel, rfl⟩ : ∃ n, fuel = n + 1 := ⟨fuel - 1, by omega⟩
      have room := (Spells.copy hlength hdistance hback rest).size_le
      rw [List.cons_append, List.flatMap_cons, bitsAt_append] at h
      rw [run_succ (by dsimp only; omega), step]
      simp only [readItem_copy hlength hdistance h.1, applyItem, if_pos hback]
      exact ih hbudget (by simpa using hfuel) h.2

/-! ### The size of a stream -/

theorem seven_le_bits (item : Item) : 7 ≤ item.bits.length := by
  cases item with
  | literal b => exact seven_le_length_literalCode _
  | endOfBlock => exact seven_le_length_literalCode _
  | copy length distance =>
      have := seven_le_length_literalCode (firstLength + rowFor lengthTable length)
      simp only [Item.bits, List.length_append]
      omega

theorem length_le_bits (items : List Item) :
    items.length ≤ (items.flatMap Item.bits).length := by
  induction items with
  | nil => exact Nat.le_refl 0
  | cons item items ih =>
      have := seven_le_bits item
      rw [List.flatMap_cons, List.length_append, List.length_cons]
      omega

/-- The bits of the stream that a byte string is deflated to. -/
def streamBits (data : ByteArray) : List Bool :=
  lastFixedHeader ++ (factor data ++ [Item.endOfBlock]).flatMap Item.bits

theorem length_streamBits (data : ByteArray) :
    10 + ((factor data).flatMap Item.bits).length ≤ (streamBits data).length := by
  have := seven_le_bits .endOfBlock
  simp only [streamBits, lastFixedHeader, List.flatMap_append, List.flatMap_singleton,
    List.length_append, List.length_cons, List.length_nil]
  omega

theorem size_codedStream (data : ByteArray) :
    (codedStream data).size = ((streamBits data).length + 7) / 8 := by
  obtain ⟨t, ht, hsize⟩ := packBits_grows ByteArray.empty (streamBits data)
  change (packBits ByteArray.empty (streamBits data)).size = _
  rw [ht, ByteArray.size_append, hsize]
  simp

/-! ### The whole stream -/

/-- **What was coded is inflated again**, with any budget that has room for it. -/
theorem inflate_codedStream {data : ByteArray} {budget : Nat} (h : data.size ≤ budget) :
    ∃ used, inflate (codedStream data) budget = ⟨data, used, .ended⟩ := by
  have bits : BitsAt (codedStream data) 0 (streamBits data) :=
    packBits_bitsAt ByteArray.empty (streamBits data)
  obtain ⟨⟨hlast, hkind, hkind', -⟩, items⟩ := bitsAt_append.mp bits
  have last : bits? (codedStream data) 0 1 = some 1 := by simp [bits?, hlast]
  have kind : bits? (codedStream data) 1 2 = some 1 := by simp [bits?, hkind, hkind']
  -- The header takes one step and every item one more, and each of them has a bit of its own.
  have enough : (factor data).length < 8 * (codedStream data).size := by
    have := length_le_bits (factor data)
    have := length_streamBits data
    rw [size_codedStream]
    omega
  obtain ⟨e, hrun, hout⟩ := run_items (factor_spells data) h enough items
  have opened : openBlock (codedStream data) .start =
      .next ⟨3, ByteArray.empty, .coded fixedCodes, true⟩ := by
    simp only [openBlock, State.start, last, kind]
    rfl
  refine ⟨(e.pos + 7) / 8, ?_⟩
  rw [inflate, run_succ (by simp [State.start])]
  simp only [step, State.start] at opened ⊢
  rw [opened]
  simp only [List.length_cons, List.length_nil, lastFixedHeader] at hrun
  simp only [hrun, hout]

/-- **What was deflated is inflated again**, with any budget that has room for it. -/
theorem inflate_deflate {data : ByteArray} {budget : Nat} (h : data.size ≤ budget) :
    ∃ used, inflate (deflate data) budget = ⟨data, used, .ended⟩ := by
  simp only [deflate]
  split
  · exact inflate_codedStream h
  · exact inflate_storedStream h

/-- The shorter of two streams is short enough if the stored one is. -/
theorem size_deflate_le (data : ByteArray) : (deflate data).size ≤ compressBound data.size := by
  have stored := size_storedStream_le data
  simp only [deflate]
  split
  · omega
  · exact stored

/-- This way to deflate, where no other is given. -/
def compressor : Compressor where
  compress := deflate
  inflates _ := inflate_deflate (Nat.le_refl _)
  bounded := size_deflate_le

/-- What a byte string is deflated to is never so short that what it spells exceeds the bound on its
expansion. -/
theorem Compressor.expands (c : Compressor) (data : ByteArray) :
    data.size ≤ 1032 * (c.compress data).size := by
  obtain ⟨used, h⟩ := c.inflates data
  have bounded := inflate_bounded (c.compress data) data.size
  rwa [h] at bounded

/-- **What a compressor packs is inflated again**, with any budget that has room for it. -/
theorem Compressor.inflate_compress (c : Compressor) {data : ByteArray} {budget : Nat}
    (h : data.size ≤ budget) : ∃ used, inflate (c.compress data) budget = ⟨data, used, .ended⟩ := by
  obtain ⟨used, least⟩ := c.inflates data
  rcases inflate_budget (c.compress data) h with full | same
  · rw [least] at full
    cases full
  · exact ⟨used, same.trans least⟩

end ZipContainer.Deflate
