import ZipContainer.Proofs.Deflate.RoundTrip
import ZipContainer.Proofs.Zip.Requests
import ZipContainer.Zip.Encode

/-!
# The packings that are written

What is stored or deflated, by whichever compressor, unpacks to what was packed
(`WriteMethod.whole_pack`), so a source of it is intact and yields it; `Source.read_pack` says that
reading it succeeds.
-/

namespace ZipContainer.Zip

/-- The packing that a method of writing produces. -/
def WriteMethod.packing : WriteMethod → Packing
  | .stored => .stored
  | .deflated _ => .deflated

/-- **What was packed is all that the packed data unpack to**, and they are a valid stream. -/
theorem WriteMethod.whole_pack (m : WriteMethod) (content : ByteArray) :
    (m.packing.whole (m.pack content)).output = content ∧
      (m.packing.whole (m.pack content)).why ≠ .corrupt := by
  cases m with
  | stored => exact ⟨rfl, by rintro ⟨⟩⟩
  | deflated compressor =>
      obtain ⟨used, h⟩ := compressor.inflate_compress (compressor.expands content)
      have whole : Packing.deflated.whole (compressor.compress content) = ⟨content, used, .ended⟩ := h
      rw [packing, pack, whole]
      exact ⟨rfl, by rintro ⟨⟩⟩

/-- Packing makes a content little larger. -/
theorem WriteMethod.size_pack_le (m : WriteMethod) (content : ByteArray) :
    (m.pack content).size ≤ Deflate.compressBound content.size := by
  cases m with
  | stored =>
      rw [pack, Deflate.compressBound]
      omega
  | deflated compressor => exact compressor.bounded content

namespace Source

variable {s : Source} {m : WriteMethod} {content : ByteArray}

/-- The content was packed by the method, and stands where the source says, with the right
sizes. -/
structure Holds (s : Source) (m : WriteMethod) (content : ByteArray) : Prop where
  stands : StandsAt s.data s.start (m.pack content)
  compressedSize : s.compressedSize = (m.pack content).size
  size : s.size = content.size
  packing : s.packing = m.packing

namespace Holds

theorem whole (h : s.Holds m content) : s.whole = m.packing.whole (m.pack content) := by
  have stands : s.data.extract s.start (s.start + (m.pack content).size) = m.pack content :=
    h.stands
  rw [Source.whole, h.packing, h.compressedSize, stands]

theorem intact (h : s.Holds m content) (hstart : s.start ≤ s.data.size) : s.Intact where
  within := by
    rw [h.compressedSize]
    by_cases hempty : (m.pack content).size = 0
    · omega
    · exact h.stands.within hempty
  valid := by
    rw [h.whole]
    exact (m.whole_pack content).2

/-- Such a source yields the content. -/
theorem yields_eq (h : s.Holds m content) {read : ByteArray} (hread : s.Yields read) :
    read = content := by
  obtain ⟨hout, hvalid⟩ := m.whole_pack content
  rw [hread.eq_whole (.inr (by rw [h.whole]; exact hvalid)), h.whole, hout, h.size,
    ByteArray.extract_zero_size]

end Holds

/-- **Reading yields what was packed**, by whichever method it was. -/
theorem read_pack (h : s.Holds m content) (hstart : s.start ≤ s.data.size)
    (hlimit : ∀ l, s.limit = some l → (content.size : Int) ≤ l ∧ l < maxWord) :
    s.read = .ok (content, true) := by
  have admitted : s.Admitted := fun l hl => by
    rw [h.size]
    exact (hlimit l hl).1
  have outcome := admitted.read_outcome
  cases hread : s.read with
  | ok p =>
      rw [hread] at outcome
      cases outcome with
      | yields read hyields => rw [h.yields_eq hyields]
  | error f =>
      rw [hread] at outcome
      cases outcome with
      | fault f broken => exact absurd (h.intact hstart) broken
      | wordRange =>
          obtain ⟨l, hl, hlarge, -⟩ := read_eq_wordRange_iff.mp hread
          exact absurd (hlimit l hl).2 (Int.not_lt.mpr hlarge)

end Source

end ZipContainer.Zip
