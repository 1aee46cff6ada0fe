/-!
# Bytes

Fixed-width little-endian numbers, and the slices of a byte string that hold them.

* `littleEndian w n` writes the low `w` base-256 digits of `n`, least significant first, and
  `ofLittleEndian` reads digits back; `ofLittleEndian_littleEndian_mod` says that what is read back
  is the number as far as it fits into its width.
* `fieldAt b pos w` is the number stored in the `w` bytes of `b` at `pos`.
* `startsAt b pos sig` says that the bytes `sig` stand in `b` at `pos`.
-/

namespace ZipContainer

-- Other libraries bring powers of numbers and an equality test for byte strings of their own.  These
-- instances keep the meaning of the definitions below apart from what is imported beside them.

@[default_instance high] instance (priority := high) powNat : Pow Nat Nat := instPowNat

instance (priority := high) decidableEqByteArray : DecidableEq ByteArray :=
  ByteArray.instDecidableEq

/-- The low `w` base-256 digits of `n`, least significant first. -/
def littleEndian : Nat → Nat → List UInt8
  | 0, _ => []
  | w + 1, n => UInt8.ofNat n :: littleEndian w (n / 256)

/-- The number with the given base-256 digits, least significant first. -/
def ofLittleEndian : List UInt8 → Nat
  | [] => 0
  | b :: bs => b.toNat + 256 * ofLittleEndian bs

@[simp] theorem length_littleEndian (w n : Nat) : (littleEndian w n).length = w := by
  induction w generalizing n with
  | zero => rfl
  | succ w ih => simp only [littleEndian, List.length_cons, ih]

/-- Digits beyond the width are dropped. -/
theorem ofLittleEndian_littleEndian_mod (w n : Nat) :
    ofLittleEndian (littleEndian w n) = n % 256 ^ w := by
  induction w generalizing n with
  | zero => simp [littleEndian, ofLittleEndian, Nat.mod_one]
  | succ w ih =>
    have digit : (UInt8.ofNat n).toNat = n % 256 := by simp
    rw [littleEndian, ofLittleEndian, ih, digit, Nat.pow_succ', Nat.mod_mul]

theorem ofLittleEndian_lt (bs : List UInt8) : ofLittleEndian bs < 256 ^ bs.length := by
  induction bs with
  | nil => simp [ofLittleEndian]
  | cons b bs ih =>
    rw [ofLittleEndian, List.length_cons, Nat.pow_succ]
    have := b.toNat_lt
    omega

/-- The bytes of a list, as a byte string. -/
def bytesOf (bs : List UInt8) : ByteArray := ⟨⟨bs⟩⟩

@[simp] theorem toList_data_bytesOf (bs : List UInt8) : (bytesOf bs).data.toList = bs := rfl

@[simp] theorem size_bytesOf (bs : List UInt8) : (bytesOf bs).size = bs.length := rfl

/-- The little-endian number in the `w` bytes of `b` at `pos`. -/
def fieldAt (b : ByteArray) (pos w : Nat) : Nat :=
  ofLittleEndian (b.extract pos (pos + w)).data.toList

/-- The bytes `sig` stand in `b` at `pos`. -/
def startsAt (b : ByteArray) (pos : Nat) (sig : List UInt8) : Bool :=
  (b.extract pos (pos + sig.length)).data.toList == sig

end ZipContainer
