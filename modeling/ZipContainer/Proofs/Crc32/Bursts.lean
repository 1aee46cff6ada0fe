import Mathlib.Logic.Function.Iterate
import ZipContainer.Bytes
import ZipContainer.Crc32

/-!
# Bursts of errors

A shift of the register is linear in exclusive or, and nothing but zero is shifted to zero.  So a
register is never lost: different registers stay different, whatever bytes are taken into them
(`update_injective`).

Up to four bytes are taken into the register as one number, since a number only moves down while
there are low bits to drop (`foldl_step`).  So different bytes that are so few leave different
registers, and a burst of errors that is no longer than the register always changes the checksum
(`crc32_burst`).
-/

namespace ZipContainer.Crc32

/-! ### Shifts -/

theorem low_bit_iff (c : UInt32) : c &&& 1 = 1 ↔ c.toNat.testBit 0 = true := by
  rw [← UInt32.toNat_inj, UInt32.toNat_and, Nat.testBit_zero, decide_eq_true_iff]
  exact Eq.congr_left (Nat.and_one_is_mod _)

/-- A shift halves the register, and takes the polynomial to it if a bit drops out. -/
theorem shift_eq (c : UInt32) :
    shift c = (c >>> 1) ^^^ if c.toNat.testBit 0 then 0xEDB88320 else 0 := by
  unfold shift
  by_cases h : c.toNat.testBit 0 = true
  · rw [if_pos ((low_bit_iff c).mpr h), if_pos h]
  · rw [if_neg (mt (low_bit_iff c).mp h), if_neg h, UInt32.xor_zero]

/-- **A shift is linear** in exclusive or. -/
theorem shift_xor (a b : UInt32) : shift (a ^^^ b) = shift a ^^^ shift b := by
  have taken (p q : Bool) : (if p ^^ q then (0xEDB88320 : UInt32) else 0) =
      (if p then 0xEDB88320 else 0) ^^^ if q then 0xEDB88320 else 0 := by
    cases p <;> cases q <;> rfl
  rw [shift_eq, shift_eq, shift_eq, UInt32.shiftRight_xor, UInt32.toNat_xor, Nat.testBit_xor, taken]
  ac_rfl

theorem toNat_half (c : UInt32) : (c >>> 1).toNat = c.toNat / 2 := by
  rw [UInt32.toNat_shiftRight]
  rfl

theorem shift_eq_zero {c : UInt32} (h : shift c = 0) : c = 0 := by
  rw [shift_eq, UInt32.xor_eq_zero_iff, ← UInt32.toNat_inj, toNat_half] at h
  have small := c.toNat_lt
  by_cases odd : c.toNat.testBit 0 = true
  · -- The polynomial has the highest bit, which half a register lacks.
    rw [if_pos odd] at h
    have top : (0xEDB88320 : UInt32).toNat = 0xEDB88320 := rfl
    omega
  · rw [if_neg odd] at h
    rw [Nat.testBit_zero, decide_eq_true_iff] at odd
    have zero : (0 : UInt32).toNat = 0 := rfl
    exact UInt32.toNat_inj.mp (by omega)

theorem iterate_shift_xor (n : Nat) (a b : UInt32) :
    shift^[n] (a ^^^ b) = shift^[n] a ^^^ shift^[n] b := by
  induction n with
  | zero => rfl
  | succ n ih => simp only [Function.iterate_succ_apply', ih, shift_xor]

/-- **Different registers are shifted to different ones.** -/
theorem shift_injective : Function.Injective shift := by
  intro a b h
  rw [← UInt32.xor_eq_zero_iff, ← shift_xor] at h
  exact UInt32.xor_eq_zero_iff.mp (shift_eq_zero h)

/-- A number with low bits that are zero only moves down. -/
theorem iterate_shift_mul (k : Nat) {n : Nat} (h : 2 ^ k * n < 2 ^ 32) :
    shift^[k] (UInt32.ofNat (2 ^ k * n)) = UInt32.ofNat n := by
  induction k with
  | zero => simp
  | succ k ih =>
      have half : 2 ^ (k + 1) * n = 2 * (2 ^ k * n) := by rw [Nat.pow_succ']; ac_rfl
      rw [half] at h ⊢
      have value : (UInt32.ofNat (2 * (2 ^ k * n))).toNat = 2 * (2 ^ k * n) :=
        UInt32.toNat_ofNat_of_lt' h
      have value' : (UInt32.ofNat (2 ^ k * n)).toNat = 2 ^ k * n :=
        UInt32.toNat_ofNat_of_lt' (by rw [UInt32.size]; omega)
      have down : shift (UInt32.ofNat (2 * (2 ^ k * n))) = UInt32.ofNat (2 ^ k * n) := by
        rw [shift_eq, value, Nat.testBit_zero, if_neg (by simp), UInt32.xor_zero,
          ← UInt32.toNat_inj, toNat_half, value, value']
        omega
      rw [Function.iterate_succ_apply, down, ih (by omega)]

/-! ### Bytes -/

theorem step_eq (c : UInt32) (b : UInt8) : step c b = shift^[8] (c ^^^ b.toUInt32) := rfl

theorem foldl_step_injective (bs : List UInt8) :
    Function.Injective fun c => bs.foldl step c := by
  induction bs with
  | nil => exact Function.injective_id
  | cons b bs ih =>
      intro a c h
      have shifted := ih h
      rw [step_eq, step_eq] at shifted
      exact (UInt32.xor_left_inj _).mp (shift_injective.iterate 8 shifted)

/-- **Different registers stay different**, whatever bytes are taken into them. -/
theorem update_injective (bs : ByteArray) : Function.Injective fun c => update c bs := by
  intro a c h
  simp only [update, ← Array.foldl_toList] at h
  exact foldl_step_injective bs.data.toList h

/-- A byte and a number above it are put together by exclusive or. -/
theorem ofNat_byte_add (b : UInt8) (n : Nat) :
    UInt32.ofNat (b.toNat + 256 * n) = b.toUInt32 ^^^ UInt32.ofNat (256 * n) := by
  have apart : b.toNat + 256 * n = b.toNat ^^^ 256 * n := by
    refine Nat.eq_of_testBit_eq fun i => ?_
    have low := b.toNat_lt
    rw [Nat.add_comm, Nat.testBit_xor, Nat.testBit_two_pow_mul_add n (i := 8) low,
      Nat.testBit_two_pow_mul (i := 8)]
    by_cases hi : i < 8
    · simp [hi, Nat.not_le.mpr hi]
    · have above : b.toNat < 2 ^ i :=
        Nat.lt_of_lt_of_le low (Nat.pow_le_pow_right (by decide) (Nat.le_of_not_lt hi))
      simp [hi, Nat.le_of_not_lt hi, Nat.testBit_lt_two_pow above]
  rw [apart, UInt32.ofNat_xor, UInt32.ofNat_uInt8ToNat]

/-- **Up to four bytes are taken into the register as one number.** -/
theorem foldl_step (c : UInt32) {bs : List UInt8} (h : bs.length ≤ 4) :
    bs.foldl step c = shift^[8 * bs.length] (c ^^^ UInt32.ofNat (ofLittleEndian bs)) := by
  induction bs generalizing c with
  | nil => simp [ofLittleEndian]
  | cons b bs ih =>
      rw [List.length_cons] at h
      have value : 2 ^ 8 * ofLittleEndian bs < 2 ^ 32 := by
        have := ofLittleEndian_lt bs
        have : 256 ^ bs.length ≤ 256 ^ 3 := Nat.pow_le_pow_right (by decide) (by omega)
        omega
      -- What comes behind the byte has not moved yet when the byte is shifted out.
      rw [List.foldl_cons, ih _ (by omega), step_eq, ← iterate_shift_mul 8 value,
        ← iterate_shift_xor, ← Function.iterate_add_apply, ofLittleEndian, ofNat_byte_add,
        UInt32.xor_assoc, List.length_cons, Nat.mul_add, Nat.mul_one]
      rfl

theorem ofLittleEndian_injective {as bs : List UInt8} (size : as.length = bs.length)
    (h : ofLittleEndian as = ofLittleEndian bs) : as = bs := by
  induction as generalizing bs with
  | nil => exact (List.eq_nil_of_length_eq_zero size.symm).symm
  | cons a as ih =>
      cases bs with
      | nil => cases size
      | cons b bs =>
          rw [ofLittleEndian, ofLittleEndian] at h
          have := a.toNat_lt
          have := b.toNat_lt
          have first : a = b := UInt8.toNat_inj.mp (by omega)
          rw [first, ih (Nat.succ.inj size) (by omega)]

/-- Different bytes that are no more than the register holds leave different registers. -/
theorem foldl_step_ne {c : UInt32} {as bs : List UInt8} (size : as.length = bs.length)
    (short : as.length ≤ 4) (differ : as ≠ bs) : as.foldl step c ≠ bs.foldl step c := by
  intro h
  rw [foldl_step c short, foldl_step c (size ▸ short), size] at h
  have same := (UInt32.xor_right_inj c).mp (shift_injective.iterate _ h)
  have fits (l : List UInt8) (hl : l.length ≤ 4) : ofLittleEndian l < 2 ^ 32 :=
    Nat.lt_of_lt_of_le (ofLittleEndian_lt l) (Nat.pow_le_pow_right (by decide) hl)
  have values := congrArg UInt32.toNat same
  rw [UInt32.toNat_ofNat_of_lt' (fits as short), UInt32.toNat_ofNat_of_lt' (fits bs (size ▸ short))]
    at values
  exact differ (ofLittleEndian_injective size values)

/-- **A burst of errors changes the checksum**: if two contents differ in no more than four bytes
in a row, their checksums differ, whatever stands before and behind these. -/
theorem crc32_burst (before behind : ByteArray) {a b : ByteArray} (size : a.size = b.size)
    (short : a.size ≤ 4) (differ : a ≠ b) :
    crc32 (before ++ a ++ behind) ≠ crc32 (before ++ b ++ behind) := by
  intro h
  have registers := UInt32.not_inj.mp h
  rw [update_append, update_append, update_append, update_append] at registers
  have burst := update_injective behind registers
  simp only [update, ← Array.foldl_toList] at burst
  have differ' : a.data.toList ≠ b.data.toList := fun same =>
    differ (ByteArray.ext (Array.toList_inj.mp same))
  refine foldl_step_ne ?_ ?_ differ' burst
  · simpa using size
  · simpa using short

end ZipContainer.Crc32
