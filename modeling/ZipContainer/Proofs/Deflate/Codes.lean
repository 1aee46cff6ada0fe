import ZipContainer.Deflate.Encode
import ZipContainer.Proofs.Deflate.Arriving

/-!
# Bits that stand in a byte string

An encoder lays bits one behind the other, and a decoder reads fields and codes at a position.
`BitsAt src pos bs` says that the bits `bs` stand in `src` from `pos` on.  What is read depends on
them alone:

* `bits?_lowBits`: a field of low bits is read as the number it was made from;
* `walk_of_follow`: a tree that the bits lead through to a leaf is walked to that leaf;
* `literal_walk`, `distance_walk`: the fixed codes are read as the symbols they stand for.

`packBits_bitsAt` says that packed bits stand where they were packed.
-/

namespace ZipContainer.Deflate

variable {src : ByteArray} {pos n w : Nat}

/-- The bits stand in the byte string from a position on. -/
def BitsAt (src : ByteArray) : Nat → List Bool → Prop
  | _, [] => True
  | pos, b :: bs => bit? src pos = some b ∧ BitsAt src (pos + 1) bs

theorem bitsAt_append {as bs : List Bool} :
    BitsAt src pos (as ++ bs) ↔ BitsAt src pos as ∧ BitsAt src (pos + as.length) bs := by
  induction as generalizing pos with
  | nil => simp [BitsAt]
  | cons a as ih =>
      rw [List.cons_append, BitsAt, BitsAt, ih, List.length_cons, and_assoc,
        Nat.add_right_comm, Nat.add_assoc pos]

theorem bitsAt_iff {bs : List Bool} :
    BitsAt src pos bs ↔ ∀ i, ∀ b, bs[i]? = some b → bit? src (pos + i) = some b := by
  induction bs generalizing pos with
  | nil => simp [BitsAt]
  | cons b bs ih =>
      rw [BitsAt, ih]
      constructor
      · rintro ⟨hb, hbs⟩ (_ | i) c hc
        · cases hc; exact hb
        · have := hbs i c (by simpa using hc)
          rwa [Nat.add_assoc, Nat.add_comm 1] at this
      · intro h
        refine ⟨h 0 b rfl, fun i c hc => ?_⟩
        have := h (i + 1) c (by simpa using hc)
        rwa [Nat.add_assoc, Nat.add_comm 1]

/-! ### Fields -/

@[simp] theorem length_lowBits (w n : Nat) : (lowBits w n).length = w := by
  induction w generalizing n with
  | zero => rfl
  | succ w ih => rw [lowBits, List.length_cons, ih]

@[simp] theorem length_highBits (w n : Nat) : (highBits w n).length = w := by
  rw [highBits, List.length_reverse, length_lowBits]

/-- A field of low bits is read as the number it was made from, if it is wide enough. -/
theorem bits?_lowBits (h : BitsAt src pos (lowBits w n)) (hn : n < 2 ^ w) :
    bits? src pos w = some n := by
  induction w generalizing pos n with
  | zero =>
      obtain rfl : n = 0 := by simpa using hn
      rfl
  | succ w ih =>
      obtain ⟨hb, hr⟩ := h
      have half : n / 2 < 2 ^ w := by rw [Nat.pow_succ] at hn; omega
      rw [bits?, hb, ih hr half]
      simp only [Option.some.injEq]
      by_cases odd : n % 2 = 1
      · simp only [odd, decide_true, Bool.toNat_true]; omega
      · simp only [odd, decide_false, Bool.toNat_false]; omega

/-! ### Codes -/

/-- The symbol that bits lead to, all of them and no more. -/
def PrefixTree.follow? : PrefixTree → List Bool → Option Nat
  | .leaf s, [] => some s
  | .node zero one, b :: bs => if b then one.follow? bs else zero.follow? bs
  | _, _ => none

/-- Bits that lead through a tree to a leaf are walked to that leaf. -/
theorem walk_of_follow {t : PrefixTree} {bs : List Bool} {s : Nat} (h : BitsAt src pos bs)
    (ht : t.follow? bs = some s) : t.walk src pos = .ok (s, pos + bs.length) := by
  -- Bits lead to a leaf only if they run out there, so tree and bits shrink together.
  induction t generalizing pos bs with
  | dead => cases bs <;> cases ht
  | leaf s' =>
      cases bs with
      | nil => cases ht; rfl
      | cons b bs => cases ht
  | node zero one ihZero ihOne =>
      cases bs with
      | nil => cases ht
      | cons b bs =>
          obtain ⟨hb, hbs⟩ := h
          rw [PrefixTree.walk, hb, List.length_cons]
          cases b with
          | false =>
              have walked := ihZero hbs ht
              rw [Nat.add_assoc, Nat.add_comm 1] at walked
              exact walked
          | true =>
              have walked := ihOne hbs ht
              rw [Nat.add_assoc, Nat.add_comm 1] at walked
              exact walked

/-- The fixed codes lead to the symbols they stand for. -/
theorem follow_literalCode :
    ∀ s < 286, fixedCodes.literal.follow? (literalCode s) = some s := by
  -- The codes are tables that never change, so each of their symbols is tried.
  decide +kernel

@[inherit_doc follow_literalCode]
theorem follow_distanceCode :
    ∀ s < 30, fixedCodes.distance.follow? (distanceCode s) = some s := by
  decide +kernel

theorem literal_walk {s : Nat} (hs : s < 286) (h : BitsAt src pos (literalCode s)) :
    fixedCodes.literal.walk src pos = .ok (s, pos + (literalCode s).length) :=
  walk_of_follow h (follow_literalCode s hs)

theorem distance_walk {s : Nat} (hs : s < 30) (h : BitsAt src pos (distanceCode s)) :
    fixedCodes.distance.walk src pos = .ok (s, pos + (distanceCode s).length) :=
  walk_of_follow h (follow_distanceCode s hs)

/-- Every code of the fixed literal code has at least seven bits. -/
theorem seven_le_length_literalCode (s : Nat) : 7 ≤ (literalCode s).length := by
  unfold literalCode
  repeat' split
  all_goals simp

/-! ### Rows of tables -/

/-- The rows of a table, from the one whose base is `least` on, leave no gap below `limit`. -/
def Gapless (limit : Nat) : List (Nat × Nat) → Bool
  | [] => false
  | [row] => limit ≤ row.1 + 2 ^ row.2
  | row :: next :: rest =>
    row.1 < next.1 && next.1 ≤ row.1 + 2 ^ row.2 && Gapless limit (next :: rest)

/-- In a table without gaps, a number is its row's base and a number in the row's extra bits. -/
theorem rowFor_spec (limit : Nat) {n : Nat} {first : Nat × Nat} {rest : List (Nat × Nat)}
    (gapless : Gapless limit (first :: rest) = true) (hfirst : first.1 ≤ n) (hn : n < limit) :
    ∃ base width, (first :: rest)[rowFor (first :: rest) n]? = some (base, width) ∧
      base ≤ n ∧ n < base + 2 ^ width := by
  induction rest generalizing first with
  | nil =>
      refine ⟨first.1, first.2, ?_, hfirst, ?_⟩
      · simp [rowFor, hfirst]
      · exact Nat.lt_of_lt_of_le hn (by simpa [Gapless] using gapless)
  | cons next rest ih =>
      simp only [Gapless, Bool.and_eq_true, decide_eq_true_eq] at gapless
      obtain ⟨⟨-, near⟩, gapless⟩ := gapless
      -- The next row begins no later than this one ends: no number falls between the two.
      by_cases hnext : next.1 ≤ n
      · obtain ⟨base, width, hrow, hbase, hlt⟩ := ih gapless hnext
        refine ⟨base, width, ?_, hbase, hlt⟩
        have later : rowFor (first :: next :: rest) n = rowFor (next :: rest) n + 1 := by
          simp [rowFor, hfirst, hnext]
        rw [later, List.getElem?_cons_succ]
        exact hrow
      · refine ⟨first.1, first.2, ?_, hfirst, by omega⟩
        simp [rowFor, hfirst, hnext]

theorem rowFor_length {n : Nat} (h : 3 ≤ n) (hn : n ≤ 258) :
    ∃ base width, lengthTable[rowFor lengthTable n]? = some (base, width) ∧
      base ≤ n ∧ n < base + 2 ^ width :=
  rowFor_spec 259 (by decide) h (by omega)

theorem rowFor_distance {n : Nat} (h : 1 ≤ n) (hn : n ≤ 32768) :
    ∃ base width, distanceTable[rowFor distanceTable n]? = some (base, width) ∧
      base ≤ n ∧ n < base + 2 ^ width :=
  rowFor_spec 32769 (by decide) h (by omega)

/-! ### Packing -/

/-- The number with the given bits, the least significant first. -/
def bitsValue (bs : List Bool) : Nat := bs.foldr (fun b n => b.toNat + 2 * n) 0

theorem bitsValue_lt (bs : List Bool) : bitsValue bs < 2 ^ bs.length := by
  induction bs with
  | nil => simp [bitsValue]
  | cons b bs ih =>
      have := b.toNat_lt
      simp only [bitsValue, List.foldr_cons, List.length_cons, Nat.pow_succ] at ih ⊢
      omega

theorem testBit_bitsValue (bs : List Bool) (i : Nat) :
    (bitsValue bs).testBit i = bs[i]?.getD false := by
  induction bs generalizing i with
  | nil => simp [bitsValue]
  | cons b bs ih =>
      have low : (b.toNat + 2 * bitsValue bs) % 2 = b.toNat := by
        have := b.toNat_lt
        omega
      have high : (b.toNat + 2 * bitsValue bs) / 2 = bitsValue bs := by
        have := b.toNat_lt
        omega
      change (b.toNat + 2 * bitsValue bs).testBit i = _
      cases i with
      | zero => rw [Nat.testBit_zero, low]; cases b <;> rfl
      | succ i => rw [Nat.testBit_succ, high, ih, List.getElem?_cons_succ]

theorem testBit_byteOfBits {bs : List Bool} (h : bs.length ≤ 8) (i : Nat) :
    (byteOfBits bs).toNat.testBit i = bs[i]?.getD false := by
  have small : bitsValue bs < 256 :=
    Nat.lt_of_lt_of_le (bitsValue_lt bs) (Nat.pow_le_pow_right (by decide) h : _ ≤ 2 ^ 8)
  have value : (byteOfBits bs).toNat = bitsValue bs := by
    change (UInt8.ofNat (bitsValue bs)).toNat = _
    simp only [UInt8.toNat_ofNat', Nat.mod_eq_of_lt small]
  rw [value, testBit_bitsValue]

theorem BitsAt.append {bs : List Bool} (h : BitsAt src pos bs) (rest : ByteArray) :
    BitsAt (src ++ rest) pos bs := by
  rw [bitsAt_iff] at h ⊢
  exact fun i b hb => bit?_append (h i b hb)

/-- The bits of a byte that was pushed last. -/
theorem bit?_push (acc : ByteArray) (b : UInt8) {i : Nat} (hi : i < 8) :
    bit? (acc.push b) (8 * acc.size + i) = some (b.toNat.testBit i) := by
  have place : (8 * acc.size + i) / 8 = acc.size := by omega
  have within : (8 * acc.size + i) % 8 = i := by omega
  have last (h : acc.size < (acc.push b).size) : (acc.push b)[acc.size] = b :=
    Array.getElem_push_eq
  unfold bit?
  rw [dif_pos (by rw [place, ByteArray.size_push]; omega)]
  simp only [place, within, last]

theorem bitsAt_push (acc : ByteArray) {bs : List Bool} (h : bs.length ≤ 8) :
    BitsAt (acc.push (byteOfBits bs)) (8 * acc.size) bs := by
  rw [bitsAt_iff]
  intro i b hb
  have hi : i < bs.length := (List.getElem?_eq_some_iff.mp hb).1
  rw [bit?_push acc _ (by omega), testBit_byteOfBits h, hb]
  rfl

/-- The bits that fill no byte are fewer than eight. -/
theorem length_lt_eight {bs : List Bool}
    (h : ∀ b₀ b₁ b₂ b₃ b₄ b₅ b₆ b₇ r, bs = b₀ :: b₁ :: b₂ :: b₃ :: b₄ :: b₅ :: b₆ :: b₇ :: r →
      False) : bs.length < 8 := by
  rcases bs with _ | ⟨b₀, _ | ⟨b₁, _ | ⟨b₂, _ | ⟨b₃, _ | ⟨b₄, _ | ⟨b₅, _ | ⟨b₆, _ | ⟨b₇, r⟩⟩⟩⟩⟩⟩⟩⟩
  all_goals first
    | exact absurd rfl (h _ _ _ _ _ _ _ _ _)
    | simp

/-- Packing only adds to what is packed already, a byte for every eight bits. -/
theorem packBits_grows (acc : ByteArray) (bs : List Bool) :
    ∃ t, packBits acc bs = acc ++ t ∧ t.size = (bs.length + 7) / 8 := by
  fun_induction packBits acc bs with
  | case1 acc b₀ b₁ b₂ b₃ b₄ b₅ b₆ b₇ r ih =>
      obtain ⟨t, ht, hsize⟩ := ih
      refine ⟨[byteOfBits [b₀, b₁, b₂, b₃, b₄, b₅, b₆, b₇]].toByteArray ++ t, ?_, ?_⟩
      · rw [ht, ← ByteArray.append_assoc, ByteArray.append_toByteArray_singleton]
      · simp only [ByteArray.size_append, hsize, List.size_toByteArray, List.length_cons,
          List.length_nil]
        omega
  | case2 acc => exact ⟨ByteArray.empty, by simp, rfl⟩
  | case3 acc short hlong hnil =>
      refine ⟨_, ByteArray.append_toByteArray_singleton.symm, ?_⟩
      have positive : 0 < short.length := List.length_pos_iff.mpr hnil
      have few := length_lt_eight hlong
      simp only [List.size_toByteArray, List.length_cons, List.length_nil]
      omega

/-- **Packed bits stand where they were packed.** -/
theorem packBits_bitsAt (acc : ByteArray) (bs : List Bool) :
    BitsAt (packBits acc bs) (8 * acc.size) bs := by
  fun_induction packBits acc bs with
  | case1 acc b₀ b₁ b₂ b₃ b₄ b₅ b₆ b₇ r ih =>
      let first := [b₀, b₁, b₂, b₃, b₄, b₅, b₆, b₇]
      obtain ⟨t, ht, -⟩ := packBits_grows (acc.push (byteOfBits first)) r
      have head : BitsAt (acc.push (byteOfBits first)) (8 * acc.size) first :=
        bitsAt_push acc (Nat.le_refl 8)
      change BitsAt _ _ (first ++ r)
      -- What is packed later goes behind the first byte, which stays where it is.
      refine bitsAt_append.mpr ⟨?_, ?_⟩
      · rw [ht]
        exact head.append t
      · rw [ByteArray.size_push, Nat.mul_add] at ih
        exact ih
  | case2 acc => trivial
  | case3 acc short hlong hnil => exact bitsAt_push acc (Nat.le_of_lt (length_lt_eight hlong))

end ZipContainer.Deflate
