import ZipContainer.Bytes

/-!
# What stands in a byte string

`StandsAt data pos bs` says that the bytes `bs` stand in `data` from `pos` on.  A record that was
written stands in the archive as a whole; `standsAt_append` takes it apart into its fields, and each
field is read back by `fieldAt`, `startsAt` or a slice.
-/

namespace ZipContainer

variable {data as bs : ByteArray} {pos n w : Nat}

/-- A byte string goes on from any of its beginnings. -/
theorem extract_begins (a : ByteArray) (i : Nat) : ∃ t, a = a.extract 0 i ++ t := by
  by_cases h : i ≤ a.size
  · refine ⟨a.extract i a.size, ?_⟩
    rw [ByteArray.extract_append_extract, Nat.zero_min, Nat.max_eq_right h,
      ByteArray.extract_zero_size]
  · refine ⟨ByteArray.empty, ?_⟩
    have all := ByteArray.extract_zero_max_size (a := a) (i := i)
    rw [Nat.max_eq_left (by omega)] at all
    rw [all, ByteArray.append_empty]

/-- A slice that ends within the first part is one of it. -/
theorem extract_append_of_le (a b : ByteArray) (i : Nat) {j : Nat} (h : j ≤ a.size) :
    (a ++ b).extract i j = a.extract i j := by
  have none_of_b : b.extract (i - a.size) (j - a.size) = ByteArray.empty :=
    ByteArray.extract_eq_empty_iff.mpr (by omega)
  rw [ByteArray.extract_append, none_of_b, ByteArray.append_empty]

/-- A slice as long as the bytes, or longer, is all of them. -/
theorem extract_zero_of_le (a : ByteArray) {n : Nat} (h : a.size ≤ n) : a.extract 0 n = a := by
  apply ByteArray.ext
  rw [ByteArray.data_extract]
  exact Array.extract_eq_self_of_le h

theorem size_extract_le (a : ByteArray) (pos n : Nat) : (a.extract pos (pos + n)).size ≤ n := by
  rw [ByteArray.size_extract]
  omega

@[simp] theorem bytesOf_append (l m : List UInt8) : bytesOf (l ++ m) = bytesOf l ++ bytesOf m := by
  apply ByteArray.ext
  rw [ByteArray.data_append]
  simp [bytesOf]

/-- The bytes stand in the data at a position. -/
def StandsAt (data : ByteArray) (pos : Nat) (bs : ByteArray) : Prop :=
  data.extract pos (pos + bs.size) = bs

/-- Where bytes stand, the data do not end before them. -/
theorem StandsAt.within (h : StandsAt data pos bs) (hbs : bs.size ≠ 0) :
    pos + bs.size ≤ data.size := by
  have := congrArg ByteArray.size h
  rw [ByteArray.size_extract] at this
  omega

/-- Bytes stand one behind the other where they stand together. -/
theorem standsAt_append :
    StandsAt data pos (as ++ bs) ↔ StandsAt data pos as ∧ StandsAt data (pos + as.size) bs := by
  unfold StandsAt
  have split := ByteArray.extract_eq_extract_append_extract (a := data) (i := pos)
    (k := pos + (as ++ bs).size) (pos + as.size) (by omega) (by rw [ByteArray.size_append]; omega)
  have stop : pos + (as ++ bs).size = pos + as.size + bs.size := by
    rw [ByteArray.size_append]; omega
  rw [split, stop]
  constructor
  · intro h
    have total := congrArg ByteArray.size h
    simp only [ByteArray.size_append, ByteArray.size_extract] at total
    refine (ByteArray.append_eq_append_iff_of_size_eq_left ?_).mp h
    rw [ByteArray.size_extract]
    omega
  · rintro ⟨h, h'⟩
    rw [h, h']

/-- The middle of a byte string stands in it behind the beginning. -/
theorem standsAt_middle (a b c : ByteArray) : StandsAt (a ++ b ++ c) a.size b := by
  have front := ByteArray.extract_append_size_add (a := a) (b := b ++ c) (i := 0) (j := b.size)
  rw [Nat.add_zero] at front
  rw [StandsAt, ByteArray.append_assoc, front, ByteArray.extract_append_eq_left rfl]

/-- The whole of a byte string stands at its start. -/
theorem standsAt_self (bs : ByteArray) : StandsAt bs 0 bs := by
  simp [StandsAt]

/-- A slice of the data has their bytes. -/
theorem getElem?_extract (data : ByteArray) (pos : Nat) {i n : Nat} (hi : i < n) :
    (data.extract pos (pos + n)).data[i]? = data.data[pos + i]? := by
  rw [ByteArray.data_extract, Array.getElem?_extract]
  split
  · rfl
  · exact (Array.getElem?_eq_none (by omega)).symm

theorem StandsAt.getElem? (h : StandsAt data pos bs) {i : Nat} (hi : i < bs.size) :
    data.data[pos + i]? = bs.data[i]? := by
  rw [← getElem?_extract data pos hi, h]

/-! ### Fields and signatures -/

theorem fieldAt_lt (b : ByteArray) (pos w : Nat) : fieldAt b pos w < 256 ^ w := by
  refine Nat.lt_of_lt_of_le (ofLittleEndian_lt _) (Nat.pow_le_pow_right (by decide) ?_)
  rw [Array.length_toList]
  exact size_extract_le b pos w

/-- A field is zero if all of its bytes are. -/
theorem ofLittleEndian_eq_zero {l : List UInt8} (h : ofLittleEndian l = 0) : ∀ b ∈ l, b = 0 := by
  induction l with
  | nil => exact nofun
  | cons b l ih =>
      rw [ofLittleEndian] at h
      intro b' hb'
      rcases List.mem_cons.mp hb' with rfl | hb'
      · exact UInt8.toNat_inj.mp (by rw [UInt8.toNat_zero]; omega)
      · exact ih (by omega) b' hb'

/-- A field that begins within bytes of which none is zero is not zero. -/
theorem fieldAt_ne_zero {i : Nat} (h : StandsAt data pos bs) (hi : i < bs.size) (hw : 0 < w)
    (hzero : 0 ∉ bs.data.toList) : fieldAt data (pos + i) w ≠ 0 := by
  intro hfield
  have first : (data.extract (pos + i) (pos + i + w)).data[0]? = some bs.data[i] := by
    rw [getElem?_extract data _ hw, Nat.add_zero, h.getElem? hi]
    exact Array.getElem?_eq_getElem hi
  have zero : bs.data[i] = 0 :=
    ofLittleEndian_eq_zero hfield _ (Array.mem_toList_iff.mpr (Array.mem_of_getElem? first))
  exact hzero (Array.mem_toList_iff.mpr (zero ▸ Array.getElem_mem hi))

theorem fieldAt_of_standsAt (h : StandsAt data pos (bytesOf (littleEndian w n))) :
    fieldAt data pos w = n % 256 ^ w := by
  unfold StandsAt at h
  rw [size_bytesOf, length_littleEndian] at h
  rw [fieldAt, h, toList_data_bytesOf, ofLittleEndian_littleEndian_mod]

theorem startsAt_iff {sig : List UInt8} :
    startsAt data pos sig = true ↔ StandsAt data pos (bytesOf sig) := by
  rw [startsAt, StandsAt, size_bytesOf, beq_iff_eq, bytesOf, ByteArray.ext_iff,
    ← Array.toList_inj]

end ZipContainer
