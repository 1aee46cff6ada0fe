import ZipContainer.Deflate.Compressor
import ZipContainer.Proofs.Bytes.Slices
import ZipContainer.Proofs.Deflate.Codes

/-!
# Stored blocks are inflated again

Each stored block begins with a header of five bytes, which the decoder reads back
(`openBlock_stored`), and then copies the bytes of the block one by one (`run_copyStored`).  So a
run over the blocks yields the byte string and ends (`inflate_storedStream`).

Five bytes for each block are so few that stored blocks are never much larger than the byte string
(`size_storedStream_le`).
-/

namespace ZipContainer.Deflate

variable {src out data : ByteArray} {pos n budget fuel : Nat}

/-! ### Headers -/

theorem lowBits_append (a b n : Nat) :
    lowBits (a + b) n = lowBits a n ++ lowBits b (n / 2 ^ a) := by
  induction a generalizing n with
  | zero => simp [lowBits]
  | succ a ih =>
      rw [Nat.add_right_comm, lowBits, lowBits, ih, List.cons_append, Nat.pow_succ',
        Nat.div_div_eq_div_mul]

theorem getElem?_lowBits {w i : Nat} (h : i < w) (n : Nat) :
    (lowBits w n)[i]? = some (n.testBit i) := by
  induction w generalizing i n with
  | zero => omega
  | succ w ih =>
      cases i with
      | zero => rw [lowBits, List.getElem?_cons_zero, Nat.testBit_zero]
      | succ i =>
          rw [lowBits, List.getElem?_cons_succ, ih (by omega), Nat.testBit_succ]

/-- The bits of a number stand where its bytes do. -/
theorem bitsAt_littleEndian {w : Nat} (h : StandsAt src pos (bytesOf (littleEndian w n))) :
    BitsAt src (8 * pos) (lowBits (8 * w) n) := by
  induction w generalizing pos n with
  | zero => trivial
  | succ w ih =>
      have split : bytesOf (littleEndian (w + 1) n) =
          bytesOf [UInt8.ofNat n] ++ bytesOf (littleEndian w (n / 256)) :=
        bytesOf_append [UInt8.ofNat n] _
      rw [split, standsAt_append] at h
      rw [Nat.mul_add, Nat.add_comm, lowBits_append, bitsAt_append, length_lowBits]
      refine ⟨bitsAt_iff.mpr fun i b hb => ?_, ih h.2⟩
      obtain ⟨hi, -⟩ := List.getElem?_eq_some_iff.mp hb
      rw [length_lowBits] at hi
      rw [getElem?_lowBits hi] at hb
      have within : pos < src.size := by
        have := h.1.within (by simp)
        simp only [size_bytesOf, List.length_singleton] at this
        omega
      have byte : src[pos] = UInt8.ofNat n := by
        have first := h.1.getElem? (i := 0) (by simp)
        exact Option.some.inj ((Array.getElem?_eq_getElem within).symm.trans first)
      have place : (8 * pos + i) / 8 = pos := by omega
      have inner : (8 * pos + i) % 8 = i := by omega
      rw [bit?, dif_pos (by rw [place]; exact within)]
      simp only [place, inner, byte]
      rw [UInt8.toNat_ofNat', ← hb]
      have low : (n % 2 ^ 8).testBit i = n.testBit i := by
        rw [Nat.testBit_mod_two_pow, decide_eq_true hi, Bool.true_and]
      rw [← low]

/-- The header of a stored block. -/
structure HeaderAt (src : ByteArray) (pos : Nat) (isLast : Bool) (size : Nat) : Prop where
  last : bits? src (8 * pos) 1 = some isLast.toNat
  kind : bits? src (8 * pos + 1) 2 = some 0
  stated : bits? src (8 * pos + 8) 16 = some size
  check : bits? src (8 * pos + 8 + 16) 16 = some (maxStored - size)

theorem headerAt_of_standsAt {isLast : Bool} {size : Nat} (hsize : size ≤ maxStored)
    (h : StandsAt src pos (bytesOf (storedHeader isLast size))) : HeaderAt src pos isLast size := by
  simp only [storedHeader, bytesOf_append, standsAt_append, size_bytesOf, ByteArray.size_append,
    length_littleEndian] at h
  obtain ⟨⟨hfirst, hstated⟩, hcheck⟩ := h
  have wide : maxStored < 2 ^ 16 := by decide
  have first := bitsAt_littleEndian hfirst
  have stated := bitsAt_littleEndian hstated
  have check := bitsAt_littleEndian hcheck
  rw [lowBits_append 1 7, bitsAt_append, length_lowBits, lowBits_append 2 5, bitsAt_append] at first
  have none : isLast.toNat / 2 ^ 1 = 0 := by cases isLast <;> rfl
  rw [none] at first
  have second : 8 * (pos + 1) = 8 * pos + 8 := by omega
  have third : 8 * (pos + (1 + 2)) = 8 * pos + 8 + 16 := by omega
  rw [second] at stated
  rw [third] at check
  exact {
    last := bits?_lowBits first.1 (by cases isLast <;> decide)
    kind := bits?_lowBits first.2.1 (by decide)
    stated := bits?_lowBits stated (by omega)
    check := bits?_lowBits check (by omega) }

/-- **The header of a stored block is read back.** -/
theorem openBlock_stored {isLast : Bool} {size : Nat} (h : HeaderAt src pos isLast size)
    (hsize : size ≤ maxStored) (out : ByteArray) (isLast' : Bool) :
    openBlock src ⟨8 * pos, out, .none, isLast'⟩ =
      if size = 0 then closeBlock ⟨8 * (pos + 5), out, .none, isLast⟩
      else .next ⟨8 * (pos + 5), out, .stored size, isLast⟩ := by
  have start : alignUp (8 * pos + 3) = 8 * pos + 8 := by rw [alignUp]; omega
  have behind : 8 * pos + 8 + 32 = 8 * (pos + 5) := by omega
  have whole : size + (maxStored - size) = 0xFFFF := by rw [maxStored] at hsize ⊢; omega
  have last : decide (isLast.toNat = 1) = isLast := by cases isLast <;> rfl
  simp only [openBlock, h.last, h.kind, start, h.stated, h.check, whole, behind, last]
  rfl

/-! ### Blocks -/

theorem extract_push_back (h : pos < src.size) :
    out.push src[pos] = out ++ src.extract pos (pos + 1) := by
  rw [ByteArray.extract_add_one h, ByteArray.append_toByteArray_singleton]

/-- **The bytes of a block are copied one by one**, and then the block is closed. -/
theorem run_copyStored {left : Nat} (fuel : Nat) (isLast : Bool)
    (within : pos + (left + 1) ≤ src.size) (room : out.size + (left + 1) ≤ budget) :
    run src budget (fuel + (left + 1)) ⟨8 * pos, out, .stored (left + 1), isLast⟩ =
      match closeBlock ⟨8 * (pos + (left + 1)), out ++ src.extract pos (pos + (left + 1)), .none,
        isLast⟩ with
      | .next s => run src budget fuel s
      | .stop s why => (s, why) := by
  have here : 8 * pos / 8 = pos := by omega
  have next : 8 * pos + 8 = 8 * (pos + 1) := by omega
  have byte : pos < src.size := by omega
  induction left generalizing pos out with
  | zero =>
      rw [run_succ (by dsimp only; omega), step]
      simp only [copyStored, if_neg (by omega : ¬ budget ≤ out.size), here, dif_pos byte, next,
        extract_push_back byte, if_pos (Nat.le_refl 1)]
      rfl
  | succ left ih =>
      have rest : run src budget (fuel + (left + 1))
          ⟨8 * (pos + 1), out.push src[pos], .stored (left + 1), isLast⟩ = _ :=
        ih (by omega) (by rw [ByteArray.size_push]; omega) (by omega) (by omega) (by omega)
      have chunk : out.push src[pos] ++ src.extract (pos + 1) (pos + 1 + (left + 1)) =
          out ++ src.extract pos (pos + (left + 1 + 1)) := by
        rw [extract_push_back byte, ByteArray.append_assoc, ByteArray.extract_append_extract]
        congr 2
        all_goals omega
      have stop : pos + 1 + (left + 1) = pos + (left + 1 + 1) := by omega
      rw [chunk, stop] at rest
      rw [← Nat.add_assoc fuel, run_succ (by dsimp only; omega), step, ← rest]
      simp only [copyStored, if_neg (by omega : ¬ budget ≤ out.size), here, dif_pos byte, next,
        if_neg (by omega : ¬ left + 1 + 1 ≤ 1), Nat.add_sub_cancel]

/-- **A block is opened and copied**, and then closed. -/
theorem run_stored {isLast : Bool} {chunk : ByteArray} (fuel : Nat) (isLast' : Bool)
    (hsize : chunk.size ≤ maxStored)
    (h : StandsAt src pos (bytesOf (storedHeader isLast chunk.size) ++ chunk))
    (room : out.size + chunk.size ≤ budget) :
    run src budget (fuel + (chunk.size + 1)) ⟨8 * pos, out, .none, isLast'⟩ =
      match closeBlock ⟨8 * (pos + 5 + chunk.size), out ++ chunk, .none, isLast⟩ with
      | .next s => run src budget fuel s
      | .stop s why => (s, why) := by
  obtain ⟨header, content⟩ := standsAt_append.mp h
  have opened := openBlock_stored (headerAt_of_standsAt hsize header) hsize out isLast'
  have width : (bytesOf (storedHeader isLast chunk.size)).size = 5 := by simp [storedHeader]
  rw [width] at content
  rw [← Nat.add_assoc, run_succ (by dsimp only; omega), step, opened]
  by_cases none : chunk.size = 0
  · have nothing : out ++ chunk = out := by
      rw [ByteArray.size_eq_zero_iff.mp none, ByteArray.append_empty]
    rw [if_pos none, none, nothing]
    rfl
  · obtain ⟨left, hleft⟩ : ∃ left, chunk.size = left + 1 := ⟨chunk.size - 1, by omega⟩
    have stop := content.within none
    have copied := run_copyStored fuel isLast (hleft ▸ stop) (hleft ▸ room)
    rw [StandsAt] at content
    rw [if_neg none]
    rw [← hleft, content] at copied
    exact copied

/-! ### All blocks -/

/-- **A run over blocks yields what is stored in them, and ends.** -/
theorem run_storedFrom {isLast : Bool} {i : Nat} (h : StandsAt src pos (storedFrom data n i))
    (least : i + n * maxStored ≤ data.size) (most : data.size ≤ i + (n + 1) * maxStored)
    (room : out.size + (data.size - i) ≤ budget) (hfuel : data.size - i + n < fuel) :
    ∃ e : State, run src budget fuel ⟨8 * pos, out, .none, isLast⟩ = (e, .ended) ∧
      e.out = out ++ data.extract i data.size := by
  induction n generalizing pos i out fuel isLast with
  | zero =>
      have size : (data.extract i data.size).size = data.size - i := by
        rw [ByteArray.size_extract]; omega
      obtain ⟨fuel, rfl⟩ : ∃ k, fuel = k + (data.size - i + 1) :=
        ⟨fuel - (data.size - i + 1), by omega⟩
      rw [storedFrom, ← size] at h
      rw [← size] at room ⊢
      rw [run_stored fuel isLast (by rw [size]; omega) h room]
      exact ⟨_, rfl, rfl⟩
  | succ n ih =>
      rw [Nat.succ_mul] at least most
      rw [storedFrom] at h
      obtain ⟨first, rest⟩ := standsAt_append.mp h
      -- The number is kept from being computed with.
      generalize hfull : maxStored = full at *
      have size : (data.extract i (i + full)).size = full := by
        rw [ByteArray.size_extract]; omega
      have width : (bytesOf (storedHeader false full)).size = 5 := by simp [storedHeader]
      rw [ByteArray.size_append, width, size, ← Nat.add_assoc] at rest
      obtain ⟨fuel, rfl⟩ : ∃ k, fuel = k + (full + 1) := ⟨fuel - (full + 1), by omega⟩
      obtain ⟨e, hrun, hout⟩ : ∃ e, run src budget fuel
          ⟨8 * (pos + 5 + full), out ++ data.extract i (i + full), .none, false⟩ = (e, .ended) ∧ _ :=
        ih rest (by omega) (by omega) (by rw [ByteArray.size_append, size]; omega) (by omega)
      refine ⟨e, ?_, ?_⟩
      · have stands : StandsAt src pos
            (bytesOf (storedHeader false (data.extract i (i + full)).size) ++
              data.extract i (i + full)) := by
          rw [size]
          exact first
        have room' : out.size + (data.extract i (i + full)).size ≤ budget := by
          rw [size]
          omega
        have copied := run_stored fuel isLast (Nat.le_of_eq (size.trans hfull.symm)) stands room'
        rw [size] at copied
        rw [copied]
        exact hrun
      · rw [hout, ByteArray.append_assoc, ByteArray.extract_append_extract]
        congr 2
        all_goals omega

theorem size_storedFrom (least : pos + n * maxStored ≤ data.size) :
    (storedFrom data n pos).size = data.size - pos + 5 * (n + 1) := by
  induction n generalizing pos with
  | zero =>
      rw [storedFrom, ByteArray.size_append, ByteArray.size_extract]
      simp [storedHeader]
      omega
  | succ n ih =>
      rw [Nat.succ_mul] at least
      rw [storedFrom, ByteArray.size_append, ByteArray.size_append, ByteArray.size_extract,
        ih (by omega)]
      simp [storedHeader]
      omega

/-- The number of full blocks is the right one. -/
theorem fullBlocks (data : ByteArray) :
    0 + (data.size - 1) / maxStored * maxStored ≤ data.size ∧
      data.size ≤ 0 + ((data.size - 1) / maxStored + 1) * maxStored := by
  rw [maxStored]
  omega

/-- **What was stored is inflated again**, with any budget that has room for it. -/
theorem inflate_storedStream (h : data.size ≤ budget) :
    ∃ used, inflate (storedStream data) budget = ⟨data, used, .ended⟩ := by
  obtain ⟨least, most⟩ := fullBlocks data
  have size := size_storedFrom least
  obtain ⟨e, hrun, hout⟩ : ∃ e, run (storedStream data) budget (8 * (storedStream data).size + 1)
      ⟨8 * 0, ByteArray.empty, .none, false⟩ = (e, .ended) ∧ _ :=
    run_storedFrom (standsAt_self _) least most (by simpa using h)
      (by rw [storedStream, size]; omega)
  rw [ByteArray.empty_append, ByteArray.extract_zero_size] at hout
  refine ⟨(e.pos + 7) / 8, ?_⟩
  change run (storedStream data) budget (8 * (storedStream data).size + 1) .start = _ at hrun
  rw [inflate, hrun]
  simp only [hout]

/-- **Stored blocks are not much larger** than what is stored in them. -/
theorem size_storedStream_le (data : ByteArray) :
    (storedStream data).size ≤ compressBound data.size := by
  rw [storedStream, size_storedFrom (fullBlocks data).1, compressBound, maxStored]
  omega

end ZipContainer.Deflate
