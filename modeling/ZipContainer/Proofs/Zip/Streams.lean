import ZipContainer.Proofs.Bytes.Slices
import ZipContainer.Proofs.Bzip2.Arriving
import ZipContainer.Proofs.Deflate.Expansion
import ZipContainer.Proofs.Lzma.Arriving
import ZipContainer.Zip.Member

/-!
# Packed streams

What the packed data of a member unpack to does not depend on how they are read: whatever part of
them has arrived, and whatever budget there is, unpacking yields a beginning of one and the same
output (`Packing.unpack_whole`).  Only a stream that is corrupt further on may show something else
at first.

A content is what a source `Yields` if it is such a beginning, cut at the stated size.  There is at
most one such content (`Source.Yields.unique`), and unless the stream is corrupt it is all that the
stream unpacks to, cut at the stated size (`Source.Yields.eq_whole`).
-/

namespace ZipContainer

namespace Zip

variable {p : Packing} {src : ByteArray} {b b' : Nat}

/-! ### Packings -/

namespace Packing

/-- **What has arrived unpacks to a beginning** of what all data unpack to. -/
theorem unpack_arriving (p : Packing) (src rest : ByteArray) (hb : b ≤ b') :
    Precedes b (p.unpack src b) (p.unpack (src ++ rest) b') := by
  cases p with
  | stored => exact .going (.inl rfl) rest rfl
  | deflated =>
      rcases Deflate.inflate_arriving src rest hb with h | ⟨hwhy, t, ht⟩
      · simp only [unpack, h]
        exact .refl Deflate.inflate_reached
      · exact .going hwhy t ht
  | bzip2 => exact Bzip2.decode_arriving b src rest
  | lzma => exact Lzma.decode_arriving b src rest

/-- Only deflated data are unpacked within a budget. -/
theorem unpack_budget (hp : p ≠ .deflated) (src : ByteArray) (b b' : Nat) :
    p.unpack src b = p.unpack src b' := by
  cases p with
  | deflated => exact absurd rfl hp
  | stored | bzip2 | lzma => rfl

/-- An output that is full was deflated, and has reached the budget. -/
theorem unpack_full (h : (p.unpack src b).why = .full) :
    p = .deflated ∧ b ≤ (p.unpack src b).output.size := by
  have reached (budget : Nat) (hp : p.unpack src budget = p.unpack src b) :
      budget ≤ (p.unpack src b).output.size := by
    have precedes := p.unpack_arriving src ByteArray.empty (Nat.le_refl budget)
    rw [hp] at precedes
    exact precedes.full h
  refine ⟨Decidable.byContradiction fun hp => ?_, reached b rfl⟩
  -- The other packings are unpacked alike within any budget, and none output reaches them all.
  have := reached ((p.unpack src b).output.size + 1) (unpack_budget hp src _ _)
  omega

/-- Deflated data are never taken back: what they unpack to only grows. -/
theorem unpack_grows (hp : p = .deflated) (src rest : ByteArray) (hb : b ≤ b') :
    ∃ t, (p.unpack (src ++ rest) b').output = (p.unpack src b).output ++ t := by
  subst hp
  rcases Deflate.inflate_arriving src rest hb with h | ⟨-, ht⟩
  · exact ⟨ByteArray.empty, by simp only [unpack, h, ByteArray.append_empty]⟩
  · exact ht

/-- All that the data unpack to. -/
def whole (p : Packing) (src : ByteArray) : Unpacked := p.unpack src (deflateBound src.size)

theorem whole_not_full (p : Packing) (src : ByteArray) : (p.whole src).why ≠ .full := by
  intro h
  obtain ⟨rfl, -⟩ := unpack_full h
  exact Deflate.inflate_not_full (Nat.le_refl _) h

/-- Unless the output is full, it is all that the data unpack to. -/
theorem unpack_eq_whole (h : (p.unpack src b).why ≠ .full) : p.unpack src b = p.whole src := by
  by_cases hp : p = .deflated
  · subst hp
    rcases Nat.le_total b (deflateBound src.size) with hb | hb
    · exact ((Deflate.inflate_budget src hb).resolve_left h).symm
    · exact (Deflate.inflate_budget src hb).resolve_left (whole_not_full .deflated src)
  · exact unpack_budget hp src _ _

/-- Within a budget that is large enough, all of the output is there. -/
theorem unpack_of_bound (hb : deflateBound src.size ≤ b) : p.unpack src b = p.whole src := by
  refine unpack_eq_whole fun h => ?_
  obtain ⟨rfl, -⟩ := unpack_full h
  exact Deflate.inflate_not_full hb h

/-- **What has arrived unpacks to a beginning of the whole.** -/
theorem unpack_whole (p : Packing) (src rest : ByteArray) (b : Nat) :
    Precedes b (p.unpack src b) (p.whole (src ++ rest)) := by
  rw [← unpack_of_bound (Nat.le_max_right b (deflateBound (src ++ rest).size))]
  exact p.unpack_arriving src rest (Nat.le_max_left _ _)

end Packing

/-! ### Sources -/

namespace Source

variable {s : Source} {content content' : ByteArray} {n n' : Nat}

/-- What is unpacked when `n` bytes of the packed data have arrived. -/
def unpacked (s : Source) (n b : Nat) : Unpacked :=
  s.packing.unpack (s.data.extract s.start (s.start + n)) b

/-- All that the packed data unpack to. -/
def whole (s : Source) : Unpacked :=
  s.packing.whole (s.data.extract s.start (s.start + s.compressedSize))

/-- The packed data lie within the data, and are a valid stream as far as they go. -/
structure Intact (s : Source) : Prop where
  within : s.start + s.compressedSize ≤ s.data.size
  valid : s.whole.why ≠ .corrupt

/-- Bytes that arrive later come behind those that have arrived. -/
theorem arrived_append (s : Source) (hn : n ≤ n') : ∃ rest,
    s.data.extract s.start (s.start + n') = s.data.extract s.start (s.start + n) ++ rest :=
  ⟨_, ByteArray.extract_eq_extract_append_extract (s.start + n) (by omega) (by omega)⟩

theorem unpacked_arriving (s : Source) (hn : n ≤ n') (hb : b ≤ b') :
    Precedes b (s.unpacked n b) (s.unpacked n' b') := by
  obtain ⟨rest, hrest⟩ := s.arrived_append hn
  rw [unpacked, unpacked, hrest]
  exact s.packing.unpack_arriving _ rest hb

theorem unpacked_grows (hp : s.packing = .deflated) (hn : n ≤ n') (hb : b ≤ b') :
    ∃ t, (s.unpacked n' b').output = (s.unpacked n b).output ++ t := by
  obtain ⟨rest, hrest⟩ := s.arrived_append hn
  rw [unpacked, unpacked, hrest]
  exact Packing.unpack_grows hp _ rest hb

/-- Over the same data the output does not shrink: it grows with the budget, or ignores it. -/
theorem size_unpacked_le (s : Source) (n : Nat) (hb : b ≤ b') :
    (s.unpacked n b).output.size ≤ (s.unpacked n b').output.size := by
  by_cases hp : s.packing = .deflated
  · obtain ⟨t, ht⟩ := unpacked_grows hp (Nat.le_refl n) hb
    rw [ht, ByteArray.size_append]
    omega
  · have same : s.unpacked n b = s.unpacked n b' := Packing.unpack_budget hp _ _ _
    exact Nat.le_of_eq (by rw [same])

/-- What was full goes on when the budget grows, if not all of the data were used. -/
theorem unpacked_resumes (hp : s.packing = .deflated) (hb : b < b')
    (hfull : (s.unpacked n b).why = .full)
    (hused : (s.unpacked n b).used < (s.data.extract s.start (s.start + n)).size) :
    b < (s.unpacked n b').output.size ∨ (s.unpacked n b').why = .corrupt := by
  simp only [unpacked, hp, Packing.unpack] at hfull hused ⊢
  exact Deflate.inflate_resumes hb hfull hused

theorem unpacked_whole (s : Source) (hn : n ≤ s.compressedSize) (b : Nat) :
    Precedes b (s.unpacked n b) s.whole := by
  obtain ⟨rest, hrest⟩ := s.arrived_append hn
  rw [unpacked, whole, hrest]
  exact s.packing.unpack_whole _ rest b

/-- What the source unpacks to at the end is settled: the stream is valid, or was never taken
back. -/
def Settled (s : Source) : Prop := s.packing = .deflated ∨ s.whole.why ≠ .corrupt

theorem Settled.begins (h : s.Settled) (hn : n ≤ s.compressedSize) (b : Nat) :
    ∃ t, s.whole.output = (s.unpacked n b).output ++ t := by
  rcases h with hp | hvalid
  · obtain ⟨rest, hrest⟩ := s.arrived_append hn
    rw [unpacked, whole, hrest,
      ← Packing.unpack_of_bound (Nat.le_max_right b (deflateBound _))]
    exact Packing.unpack_grows hp _ rest (Nat.le_max_left _ _)
  · exact (s.unpacked_whole hn b).output hvalid

/-! ### What a source yields -/

/-- The content is what the source unpacks to, cut at the stated size: as soon as there is as much
of it, before more data show whether the stream is valid, or at the end. -/
inductive Yields (s : Source) (content : ByteArray) : Prop where
  | early (n b : Nat) (hn : n ≤ s.compressedSize) (valid : (s.unpacked n b).why ≠ .corrupt)
      (enough : s.size ≤ (s.unpacked n b).output.size)
      (cut : content = (s.unpacked n b).output.extract 0 s.size)
  | atEnd (settled : s.Settled) (cut : content = s.whole.output.extract 0 s.size)

/-- A beginning that is long enough is cut like the whole. -/
theorem cut_eq {out out' t : ByteArray} {size : Nat} (h : out' = out ++ t)
    (enough : size ≤ out.size) : out'.extract 0 size = out.extract 0 size := by
  rw [h, extract_append_of_le out t 0 enough]

namespace Yields

/-- What a source yields is no longer than stated. -/
theorem size_le (h : s.Yields content) : content.size ≤ s.size := by
  cases h with
  | early n b _ _ _ cut => rw [cut, ByteArray.size_extract]; omega
  | atEnd _ cut => rw [cut, ByteArray.size_extract]; omega

/-- **Where the end is settled, a source yields all that it unpacks to**, cut at the stated size. -/
theorem eq_whole (h : s.Yields content) (settled : s.Settled) :
    content = s.whole.output.extract 0 s.size := by
  cases h with
  | early n b hn _ enough cut =>
      obtain ⟨t, ht⟩ := settled.begins hn b
      rw [cut, cut_eq ht enough]
  | atEnd _ cut => exact cut

/-- What a source yields is shorter than stated only if it unpacks to no more. -/
theorem whole_of_short (h : s.Yields content) (hshort : content.size < s.size) :
    s.Settled ∧ content = s.whole.output := by
  cases h with
  | early n b _ _ enough cut =>
      rw [cut, ByteArray.size_extract] at hshort
      omega
  | atEnd settled cut =>
      refine ⟨settled, ?_⟩
      rw [cut, ByteArray.size_extract] at hshort
      rw [cut, extract_zero_of_le _ (by omega)]

/-- Two early readings of one stream agree. -/
theorem early_unique (hn : n ≤ n') (valid' : (s.unpacked n' b').why ≠ .corrupt)
    (enough : s.size ≤ (s.unpacked n b).output.size)
    (enough' : s.size ≤ (s.unpacked n' b').output.size) :
    (s.unpacked n b).output.extract 0 s.size = (s.unpacked n' b').output.extract 0 s.size := by
  by_cases hp : s.packing = .deflated
  · -- Both are beginnings of what there is with the later data and the greater budget.
    obtain ⟨t, ht⟩ := unpacked_grows hp hn (Nat.le_max_left b b')
    obtain ⟨t', ht'⟩ := unpacked_grows hp (Nat.le_refl n') (Nat.le_max_right b b')
    rw [← cut_eq ht enough, ← cut_eq ht' enough']
  · have same : s.unpacked n' b = s.unpacked n' b' := Packing.unpack_budget hp _ _ _
    obtain ⟨t, ht⟩ := (s.unpacked_arriving hn (Nat.le_refl b)).output (by rw [same]; exact valid')
    rw [← cut_eq ht enough, same]

/-- **A source yields one content.** -/
theorem unique (h : s.Yields content) (h' : s.Yields content') : content = content' := by
  cases h with
  | atEnd settled cut => rw [cut, h'.eq_whole settled]
  | early n b hn valid enough cut =>
      cases h' with
      | atEnd settled cut' => rw [cut', (early n b hn valid enough cut).eq_whole settled]
      | early n' b' hn' valid' enough' cut' =>
          rw [cut, cut']
          rcases Nat.le_total n n' with hle | hle
          · exact early_unique hle valid' enough enough'
          · exact (early_unique hle valid enough' enough).symm

end Yields

end Source

end Zip

end ZipContainer
