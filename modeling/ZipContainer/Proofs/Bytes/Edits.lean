import ZipContainer.Proofs.Bytes.Slices

/-!
# Edits of byte strings

`overwrite data pos bs` puts the bytes `bs` in the place of those that stand in `data` at `pos`.
`AgreeOutside first n b b'` says that two byte strings differ in a window of `n` bytes at most; if
the window lies within a part of the first, the second has the same parts before and behind
(`AgreeOutside.exists_burst`).
-/

namespace ZipContainer

/-- The data with the bytes at a position replaced by as many others. -/
def overwrite (data : ByteArray) (pos : Nat) (bs : ByteArray) : ByteArray :=
  data.extract 0 pos ++ bs ++ data.extract (pos + bs.size) data.size

/-- What is overwritten is replaced. -/
theorem overwrite_append (a c : ByteArray) {b bs : ByteArray} {pos : Nat} (hpos : pos = a.size)
    (size : bs.size = b.size) : overwrite (a ++ b ++ c) pos bs = a ++ bs ++ c := by
  have before : (a ++ b ++ c).extract 0 pos = a := by
    rw [ByteArray.append_assoc, ByteArray.extract_append_eq_left hpos]
  have behind : (a ++ b ++ c).extract (pos + bs.size) (a ++ b ++ c).size = c := by
    refine ByteArray.extract_append_eq_right ?_ ByteArray.size_append
    rw [ByteArray.size_append, hpos, size]
  rw [overwrite, before, behind]

/-- A byte string comes apart at two places. -/
theorem eq_extract_append (b : ByteArray) {i j : Nat} (hij : i ≤ j) (hj : j ≤ b.size) :
    b = b.extract 0 i ++ b.extract i j ++ b.extract j b.size := by
  rw [← ByteArray.extract_eq_extract_append_extract i (Nat.zero_le i) hij,
    ← ByteArray.extract_eq_extract_append_extract j (Nat.zero_le j) hj,
    ByteArray.extract_zero_size]

/-- What was overwritten is read back. -/
theorem standsAt_overwrite {data bs : ByteArray} {pos : Nat} (h : pos + bs.size ≤ data.size) :
    StandsAt (overwrite data pos bs) pos bs := by
  have size : (data.extract 0 pos).size = pos := by
    rw [ByteArray.size_extract]
    omega
  have stands := standsAt_middle (data.extract 0 pos) bs (data.extract (pos + bs.size) data.size)
  rwa [size] at stands

/-- The second byte string is as long as the first, and differs from it at most in the `n` bytes from
a place on. -/
structure AgreeOutside (first n : Nat) (b b' : ByteArray) : Prop where
  size : b'.size = b.size
  before : b'.extract 0 first = b.extract 0 first
  behind : b'.extract (first + n) b'.size = b.extract (first + n) b.size

/-- Nothing is changed outside what is overwritten. -/
theorem agreeOutside_overwrite {data bs : ByteArray} {pos : Nat} (h : pos + bs.size ≤ data.size) :
    AgreeOutside pos bs.size data (overwrite data pos bs) := by
  obtain ⟨a, ha⟩ : ∃ a, a = data.extract 0 pos := ⟨_, rfl⟩
  obtain ⟨c, hc⟩ : ∃ c, c = data.extract (pos + bs.size) data.size := ⟨_, rfl⟩
  have size_a : a.size = pos := by rw [ha, ByteArray.size_extract]; omega
  have size_c : c.size = data.size - (pos + bs.size) := by rw [hc, ByteArray.size_extract]; omega
  have whole : (a ++ bs ++ c).size = data.size := by
    rw [ByteArray.size_append, ByteArray.size_append]
    omega
  rw [overwrite, ← ha, ← hc]
  exact {
    size := whole
    before := by
      rw [ByteArray.append_assoc, ByteArray.extract_append_eq_left size_a.symm, ha]
    behind := by
      rw [ByteArray.extract_append_eq_right _ ByteArray.size_append, hc]
      rw [ByteArray.size_append, size_a] }

/-- A byte string that agrees with another outside a part of it has that part replaced. -/
theorem AgreeOutside.exists_part {a u d b' : ByteArray} {first n : Nat}
    (h : AgreeOutside first n (a ++ u ++ d) b') (begins : first = a.size) (size : n = u.size) :
    ∃ u', u'.size = u.size ∧ b' = a ++ u' ++ d := by
  have whole : b'.size = first + n + d.size := by
    rw [h.size, ByteArray.size_append, ByteArray.size_append, begins, size]
  have before : b'.extract 0 first = a := by
    rw [h.before, ByteArray.append_assoc, ByteArray.extract_append_eq_left begins]
  have behind : b'.extract (first + n) b'.size = d := by
    refine h.behind.trans (ByteArray.extract_append_eq_right ?_ ByteArray.size_append)
    rw [ByteArray.size_append, begins, size]
  refine ⟨b'.extract first (first + n), ?_, ?_⟩
  · rw [ByteArray.size_extract]
    omega
  · have parts := eq_extract_append b' (Nat.le_add_right first n) (by omega)
    rwa [before, behind] at parts

/-- **Where only a part of a byte string is changed in a window**, everything else stays, within the
part and around it. -/
theorem AgreeOutside.exists_burst {x c y b' : ByteArray} {first n : Nat}
    (h : AgreeOutside first n (x ++ c ++ y) b') (begins : x.size ≤ first)
    (ends : first + n ≤ x.size + c.size) :
    ∃ s u u' t, c = s ++ u ++ t ∧ b' = x ++ (s ++ u' ++ t) ++ y ∧ u.size = n ∧ u'.size = n := by
  have parts := eq_extract_append c (i := first - x.size) (j := first - x.size + n) (by omega)
    (by omega)
  obtain ⟨s, hs⟩ : ∃ s, s = c.extract 0 (first - x.size) := ⟨_, rfl⟩
  obtain ⟨u, hu⟩ : ∃ u, u = c.extract (first - x.size) (first - x.size + n) := ⟨_, rfl⟩
  obtain ⟨t, ht⟩ : ∃ t, t = c.extract (first - x.size + n) c.size := ⟨_, rfl⟩
  have size_s : s.size = first - x.size := by rw [hs, ByteArray.size_extract]; omega
  have size_u : u.size = n := by rw [hu, ByteArray.size_extract]; omega
  rw [← hs, ← hu, ← ht] at parts
  have regrouped (v : ByteArray) : x ++ (s ++ v ++ t) ++ y = (x ++ s) ++ v ++ (t ++ y) := by
    simp only [ByteArray.append_assoc]
  rw [parts, regrouped] at h
  obtain ⟨u', size_u', rfl⟩ := h.exists_part (by rw [ByteArray.size_append]; omega) size_u.symm
  exact ⟨s, u, u', t, parts, (regrouped u').symm, size_u, size_u'.trans size_u⟩

end ZipContainer
