import ZipContainer.Proofs.Bytes.Slices
import ZipContainer.Proofs.Zip.Integrity

/-!
# Where Zstandard members are read

A member that is packed by Zstandard is cut out of the data by two slices, one for its local header
and one for its packed data.  The bytes between a position and another one behind it are all there
in two cases (`size_slice_eq_iff`): they lie where the position says, or the position and the end
are both negative, and they lie where these say when they are counted from the end of the data.

So a member whose offset is not negative is read where its record says.  One with a negative offset
is read as well, if a whole local header happens to stand there as counted from the end; its packed
data are then counted from the end too, unless its header moves them behind the start of the data
(`readZstandard_eq_ok_iff`, `zstandard_members_placed`).
-/

namespace ZipContainer

variable {data b : ByteArray} {n p i w : Nat} {pos : Int}

/-! ### Slices -/

theorem fieldAt_extract (data : ByteArray) (p : Nat) (h : i + w ≤ n) :
    fieldAt (data.extract p (p + n)) i w = fieldAt data (p + i) w := by
  rw [fieldAt, fieldAt, ByteArray.extract_extract, Nat.min_eq_left (by omega), Nat.add_assoc]

theorem startsAt_extract {sig : List UInt8} (data : ByteArray) (p : Nat)
    (h : i + sig.length ≤ n) :
    startsAt (data.extract p (p + n)) i sig = startsAt data (p + i) sig := by
  rw [startsAt, startsAt, ByteArray.extract_extract, Nat.min_eq_left (by omega), Nat.add_assoc]

namespace Zip

/-- Of data of the given size, the `n` bytes from a position on are those from `p` on. -/
def Lies (size : Nat) (pos : Int) (n p : Nat) : Prop :=
  p + n ≤ size ∧ (pos = p ∨ pos + n < 0 ∧ (p : Int) = size + pos)

theorem slice_of_lies (h : Lies data.size pos n p) :
    slice data pos (pos + n) = data.extract p (p + n) := by
  obtain ⟨within, rfl | ⟨negative, hp⟩⟩ := h
  · have first : place data.size p = p := by rw [place, if_neg (by omega)]; omega
    have last : place data.size (p + n) = p + n := by rw [place, if_neg (by omega)]; omega
    rw [slice, first, last]
  · have first : place data.size pos = p := by rw [place, if_pos (by omega)]; omega
    have last : place data.size (pos + n) = p + n := by rw [place, if_pos (by omega)]; omega
    rw [slice, first, last]

/-- **When a slice is complete.** -/
theorem size_slice_eq_iff (hn : 0 < n) :
    (slice data pos (pos + n)).size = n ↔ ∃ p, Lies data.size pos n p := by
  constructor
  · intro h
    rw [slice, ByteArray.size_extract, place, place] at h
    by_cases negative : pos + n < 0
    · rw [if_pos negative, if_pos (by omega)] at h
      exact ⟨(data.size + pos).toNat, by omega, .inr ⟨negative, by omega⟩⟩
    · -- Where the bytes begin before the start and do not end before it, the slice is too short.
      rw [if_neg negative] at h
      refine ⟨pos.toNat, ?_, .inl ?_⟩ <;> split at h <;> omega
  · rintro ⟨p, h⟩
    rw [slice_of_lies h, ByteArray.size_extract]
    have := h.1
    omega

/-! ### Members -/

variable {r : Record} {head body : Nat} {content : ByteArray}

/-- A member packed by Zstandard is found in the data: its local header at one place, and its packed
data at another. -/
structure FoundAt (data : ByteArray) (r : Record) (head body : Nat) : Prop where
  clear : r.hasFlag .encrypted = false
  header : Lies data.size r.offset localSize head
  signature : startsAt data head localSignature = true
  packed : Lies data.size (r.offset + headerSpan data head) r.compressedSize body

/-- The header that was cut out says how far the packed data are behind it. -/
theorem packed_position (h : Lies data.size r.offset localSize head) :
    r.offset + localSize + fieldAt (slice data r.offset (r.offset + localSize)) 26 2 +
        fieldAt (slice data r.offset (r.offset + localSize)) 28 2 =
      r.offset + headerSpan data head := by
  rw [slice_of_lies h, fieldAt_extract data head (by decide),
    fieldAt_extract data head (by decide), headerSpan]
  omega

theorem header_signature (h : Lies data.size r.offset localSize head) :
    startsAt (slice data r.offset (r.offset + localSize)) 0 localSignature =
      startsAt data head localSignature := by
  rw [slice_of_lies h, startsAt_extract data head (by decide), Nat.add_zero]

theorem zstandardFound_iff (some : 0 < r.compressedSize) :
    ZstandardFound data r ↔ ∃ head body, FoundAt data r head body := by
  have wide : 0 < localSize := by decide
  constructor
  · rintro ⟨clear, complete, signature, packed⟩
    obtain ⟨head, header⟩ := (size_slice_eq_iff wide).mp complete
    rw [Record.packedSlice, packed_position header] at packed
    obtain ⟨body, packed⟩ := (size_slice_eq_iff some).mp packed
    exact ⟨head, body, clear, header, header_signature header ▸ signature, packed⟩
  · rintro ⟨head, body, found⟩
    refine ⟨found.clear, (size_slice_eq_iff wide).mpr ⟨head, found.header⟩, ?_, ?_⟩
    · rw [header_signature found.header, found.signature]
    · rw [Record.packedSlice, packed_position found.header]
      exact (size_slice_eq_iff some).mpr ⟨body, found.packed⟩

section

variable [Zstandard.Decoder]

/-- What unpacks to a content is not empty. -/
theorem size_pos_of_decompress {src : ByteArray} {buffer : Nat}
    (h : Zstandard.Decoder.decompress src buffer = .ok content) : 0 < src.size := by
  by_contra empty
  obtain rfl : src = ByteArray.empty := ByteArray.size_eq_zero_iff.mp (by omega)
  exact Zstandard.Decoder.refuses_empty buffer content h

/-- **When a Zstandard member is read**, and as what: its header and its packed data are found, and
these unpack to its content. -/
theorem readZstandard_eq_ok_iff :
    readZstandard data r = .ok content ↔ ∃ head body, FoundAt data r head body ∧
      Unpacks r (data.extract body (body + r.compressedSize)) content := by
  rw [readZstandard_eq_ok_iff_found]
  have same {head body : Nat} (h : FoundAt data r head body) :
      r.packedSlice data = data.extract body (body + r.compressedSize) := by
    rw [Record.packedSlice, packed_position h.header, slice_of_lies h.packed]
  constructor
  · rintro ⟨found, unpacks⟩
    have some : 0 < r.compressedSize :=
      found.packed ▸ size_pos_of_decompress unpacks.output
    obtain ⟨head, body, at_⟩ := (zstandardFound_iff some).mp found
    exact ⟨head, body, at_, same at_ ▸ unpacks⟩
  · rintro ⟨head, body, at_, unpacks⟩
    have some : 0 < r.compressedSize := by
      have := size_pos_of_decompress unpacks.output
      have := size_extract_le data body r.compressedSize
      omega
    exact ⟨(zstandardFound_iff some).mpr ⟨head, body, at_⟩, same at_ ▸ unpacks⟩

end

/-! ### Places -/

/-- The places of a member that is found: within the data, and where its record says, if that is not
before the data; else counted from the end, but for packed data that its header moves behind the
start. -/
structure Placement (data : ByteArray) (r : Record) (head body : Nat) : Prop where
  header_within : head + localSize ≤ data.size
  packed_within : body + r.compressedSize ≤ data.size
  stated : 0 ≤ r.offset → r.offset = head ∧ body = head + headerSpan data head
  fromEnd : r.offset < 0 → (head : Int) = data.size + r.offset ∧
    (body = head + headerSpan data head ∨ (body : Int) = r.offset + headerSpan data head)

theorem FoundAt.placement (h : FoundAt data r head body) : Placement data r head body := by
  obtain ⟨header_within, header⟩ := h.header
  obtain ⟨packed_within, packed⟩ := h.packed
  have span : localSize ≤ headerSpan data head := by rw [headerSpan]; omega
  refine ⟨header_within, packed_within, fun hpos => ?_, fun hneg => ?_⟩
  · have stated : r.offset = head := header.resolve_right (by omega)
    exact ⟨stated, by omega⟩
  · obtain ⟨-, fromEnd⟩ := header.resolve_left (by omega)
    refine ⟨fromEnd, ?_⟩
    rcases packed with behind | ⟨-, fromEnd'⟩
    · exact .inr behind.symm
    · exact .inl (by omega)

section

variable [Zstandard.Decoder]

/-- The entry of a Zstandard member is what is unpacked from the place of its packed data. -/
def Placed (data : ByteArray) (m : Record × Int) (e : Entry) : Prop :=
  e.path = m.1.name ∧ (m.1.method = Method.zstandard.code →
    ∃ head body, FoundAt data m.1 head body ∧
      Unpacks m.1 (data.extract body (body + m.1.compressedSize)) e.content)

/-- **Where Zstandard members are read**, exactly.  Every such member of an archive that decodes is
found, and its entry is what is unpacked there.  A member that is found lies within the data, where
its record says, unless it is said to begin before the data: then it is counted from the end of the
data, in whole or up to its packed data.  And it is read wherever it is found, also there. -/
theorem zstandard_members_placed (data : ByteArray) (limit : Option Int) :
    (∀ es, decode data limit = .ok es → ∃ d, readDirectory data = .ok d ∧
      List.Forall₂ (Placed data) d.files es) ∧
    (∀ r head body, FoundAt data r head body → Placement data r head body) ∧
    ∀ r content, readZstandard data r = .ok content ↔ ∃ head body, FoundAt data r head body ∧
      Unpacks r (data.extract body (body + r.compressedSize)) content := by
  refine ⟨fun es h => ?_, fun r head body => FoundAt.placement,
    fun r content => readZstandard_eq_ok_iff⟩
  obtain ⟨-, d, hd, -, all⟩ := decode_eq_ok_iff.mp h
  refine ⟨d, hd, all.imp ?_⟩
  rintro m e ⟨path, read⟩
  refine ⟨path, fun zstandard => ?_⟩
  obtain ⟨-, -, ⟨-, unpacked, -⟩ | ⟨plain, -⟩⟩ := readMember_ok read
  · exact readZstandard_eq_ok_iff.mp unpacked
  · exact absurd zstandard plain

end

open scoped Zstandard in
/-- A member behind the end record, in what would be the comment of the archive, is read although it
is said to begin 43 bytes before the data. -/
theorem comment_member_read :
    let now : Moment := ⟨2020, 2, 3, 4, 5, 6⟩
    let frame := bytesOf [0x28, 0xB5, 0x2F, 0xFD, 0x20, 2, 0x11, 0, 0, 104, 105]
    let p : Packed := ⟨"z".toUTF8, 0, Method.zstandard.code, crc32 (bytesOf [104, 105]), 2, frame⟩
    let data := bytesOf localSignature ++ p.directoryRecord now 0 ++ endRecord 1 47 47 ++
      p.localRecord now ++ bytesOf [33]
    let es : List Entry := [⟨"z", bytesOf [104, 105]⟩]
    decode data none = .ok es ∧ ∃ d, readDirectory data = .ok d ∧
      d.files.map (fun m => (m.1.method, m.1.offset)) = [(Method.zstandard.code, -43)] ∧
      List.Forall₂ (Placed data) d.files es := by
  intro now frame p data es
  have decoded : decode data none = .ok es := by decide +kernel
  obtain ⟨d, hd, placed⟩ := (zstandard_members_placed data none).1 es decoded
  have offsets : (readDirectory data).map (fun d => d.files.map fun m => (m.1.method, m.1.offset)) =
      .ok [(Method.zstandard.code, -43)] := by decide +kernel
  rw [hd] at offsets
  exact ⟨decoded, d, hd, Except.ok.inj offsets, placed⟩

end Zip

end ZipContainer
