import ZipContainer.Proofs.Crc32.Bursts
import ZipContainer.Proofs.Zip.Frames

/-!
# Corrupted contents

A content that was stored stands in the archive as it is.  Changed bytes of it move nothing, so the
archive is read as before up to the checksum of that entry, and if there are no more of them in a row
than a checksum has, the checksum has changed as well (`Crc32.crc32_burst`).  So decoding fails at
that entry and for its checksum, whatever stands before and behind it (`burst_detected`).
-/

namespace ZipContainer.Zip

namespace Laid

variable {l : Laid} {p : Packing} {content : ByteArray}

/-- What is stored is read as it stands, if it is no longer than stated. -/
theorem cut_stored (h : l.content.size ≤ l.size) : l.cut .stored = l.content := by
  have whole := (WriteMethod.stored.whole_pack l.content).1
  have output : (Packing.stored.whole l.content).output = l.content := whole
  rw [cut, output, extract_zero_of_le _ h]

/-- A stored member can be read with any other content of the same size. -/
theorem Readable.corrupted (readable : l.Readable .stored) (size : content.size = l.content.size) :
    (l.altered l.flags l.method content).Readable .stored where
  fits := {
    packed := { readable.fits.packed with content := size.trans_lt readable.fits.packed.content }
    needs := readable.fits.needs }
  clear := readable.clear
  packing := readable.packing
  valid := (WriteMethod.stored.whole_pack content).2

variable [Zstandard.Decoder] {limit : Option Int}

/-- **A member with a wrong checksum fails for that**, if it can be read otherwise. -/
theorem Readable.fails (readable : l.Readable p) (comes : ∀ offset, Comes limit (l.record offset))
    (askable : Askable limit p) (wrong : crc32 (l.cut p) ≠ l.crc) :
    l.Fails limit (· = .member (cutName l.text) (.checksum (cutName l.text))) := by
  intro data offset h hoffset
  refine ⟨_, rfl, (entryOf_error_iff (comes offset)).mpr ?_⟩
  rw [readable.readMember h hoffset (comes offset).admitted askable, if_pos wrong]

/-- **A burst of errors in the content of a stored member is detected** where the archive could be
decoded before. -/
theorem decode_burst {pre post : List Laid} {out : List Entry} {b' : ByteArray} {first n : Nat}
    (plain : Plain (pre ++ l :: post)) (before : ∀ x ∈ pre, ∃ p, x.Readable p)
    (stored : l.Readable .stored) (size : l.content.size = l.size) (crc : crc32 l.content = l.crc)
    (decoded : decode (archive (pre ++ l :: post)) limit = .ok out)
    (file : isDirectoryName (cutName l.text) = false) (short : n ≤ 4)
    (begins : (locals pre).size + localSize + l.name.size ≤ first)
    (ends : first + n ≤ (locals pre).size + localSize + l.name.size + l.content.size)
    (burst : AgreeOutside first n (archive (pre ++ l :: post)) b')
    (differ : b' ≠ archive (pre ++ l :: post)) :
    decode b' limit = .error (.member (cutName l.text) (.checksum (cutName l.text))) := by
  -- Around the content nothing is changed.
  rw [archive_eq_fill, Frame.fill_eq] at burst differ
  rw [← size_frame_content pre l post l.flags l.method] at begins ends
  obtain ⟨s, u, u', t, content, rfl, size_u, size_u'⟩ := burst.exists_burst begins ends
  have changed : u ≠ u' := by
    rintro rfl
    exact differ (by rw [content])
  have same : (s ++ u' ++ t).size = l.content.size := by
    rw [content]
    simp only [ByteArray.size_append, size_u, size_u']
  -- The altered member is read as far as its checksum.
  have comes (offset : Nat) : Comes limit ((l.altered l.flags l.method (s ++ u' ++ t)).record offset) :=
    comes_altered plain decoded file (text_altered l l.method _) offset
  have altered := stored.corrupted same
  have wrong : crc32 ((l.altered l.flags l.method (s ++ u' ++ t)).cut .stored) ≠ l.crc := by
    rw [cut_stored (same.trans size).le, ← crc, content]
    exact (Crc32.crc32_burst s t (size_u.trans size_u'.symm) (size_u.trans_le short) changed).symm
  obtain ⟨f, rfl, failed⟩ := decode_altered plain before decoded same altered.fits
    (altered.fails comes (fun h => nomatch h) wrong)
  rw [← Frame.fill_eq]
  exact failed

end Laid

/-! ### Entries -/

/-- Where the content of an entry begins in an archive in which other entries stand before it. -/
def contentOffset (m : WriteMethod) (pre : List Entry) (e : Entry) : Nat :=
  localsSpan m pre + localSize + (cutName e.path).toUTF8.size

/-- **A burst of errors in a stored content is detected.**  Let entries be stored in an archive that
can be decoded under a limit.  If another archive differs from it, but only in four consecutive bytes
at most, and these belong to the content of one of the entries, no directory, then decoding the other
archive under the limit fails with the checksum of that entry. -/
theorem burst_detected [Zstandard.Decoder] {limit : Option Int} {now : Moment}
    {pre post out : List Entry} {e : Entry} {b b' : ByteArray} {first n : Nat}
    (encoded : encode .stored now (pre ++ e :: post) = .ok b)
    (contentSize : ∀ x ∈ pre ++ e :: post, x.content.size < 2 * 10 ^ 9)
    (small : b.size < 2 ^ 31 - 1) (decoded : decode b limit = .ok out)
    (file : isDirectoryName (cutName e.path) = false) (short : n ≤ 4)
    (begins : contentOffset .stored pre e ≤ first)
    (ends : first + n ≤ contentOffset .stored pre e + e.content.size)
    (burst : AgreeOutside first n b b') (differ : b' ≠ b) :
    StandsAt b (contentOffset .stored pre e) e.content ∧
      decode b' limit = .error (.member (cutName e.path) (.checksum (cutName e.path))) := by
  obtain ⟨rfl, plain, before, stored⟩ := split_of_decode encoded contentSize small decoded
  have place : (Laid.locals (pre.map (written .stored now))).size + localSize +
      (written .stored now e).name.size = contentOffset .stored pre e := by
    rw [size_locals_written]
    rfl
  constructor
  · have stands := (Laid.localAt_archive plain).content
    rwa [place] at stands
  · rw [← place] at begins ends
    rw [← cutName_text_written .stored now (unicode_of_encode encoded e (by simp))] at file ⊢
    exact Laid.decode_burst plain before stored rfl rfl decoded file short begins ends burst differ

open scoped Zstandard in
/-- Four bytes of the content behind a directory are set to zero. -/
theorem zeros_detected :
    ∃ b, encode .stored ⟨2020, 2, 3, 4, 5, 6⟩
        [⟨"d/", bytesOf [1]⟩, ⟨"f", bytesOf [2, 3, 4, 5, 6]⟩] = .ok b ∧
      decode (overwrite b 65 (bytesOf [0, 0, 0, 0])) (some 5) =
        .error (.member "f" (.checksum "f")) := by
  let now : Moment := ⟨2020, 2, 3, 4, 5, 6⟩
  let pre : List Entry := [⟨"d/", bytesOf [1]⟩]
  let e : Entry := ⟨"f", bytesOf [2, 3, 4, 5, 6]⟩
  have archivable : Archivable now (pre ++ [e]) := ⟨by decide, by decide, by decide +kernel,
    by decide +kernel, by decide +kernel, by decide +kernel⟩
  have admits : Admits (some 5) (pre ++ [e]) := by
    rintro l ⟨⟩
    exact ⟨by decide, by decide +kernel⟩
  have encoded : encode .stored now (pre ++ [e]) = _ := encode_eq_ok archivable
  obtain ⟨b, hb⟩ : ∃ b, b = layout now ((pre ++ [e]).map (packed .stored)) := ⟨_, rfl⟩
  have small : b.size < 2 ^ 31 - 1 := by rw [hb]; decide +kernel
  have decoded : decode b (some 5) = _ := hb ▸ decode_layout archivable admits (hb ▸ small)
    fun _ => by decide +kernel
  have within : 65 + (bytesOf [0, 0, 0, 0]).size ≤ b.size := by rw [hb]; decide +kernel
  have differ : overwrite b 65 (bytesOf [0, 0, 0, 0]) ≠ b := by
    intro same
    have zeros : startsAt b 65 [0, 0, 0, 0] = true := by
      rw [← same]
      exact startsAt_iff.mpr (standsAt_overwrite within)
    have other : startsAt b 65 [0, 0, 0, 0] = false := by rw [hb]; decide +kernel
    exact Bool.noConfusion (zeros.symm.trans other)
  rw [← hb] at encoded
  have detected := (burst_detected encoded archivable.contentSize small decoded (by decide)
    (by decide) (by decide +kernel) (by decide +kernel) (agreeOutside_overwrite within) differ).2
  have name : cutName e.path = "f" := by decide
  rw [name] at detected
  exact ⟨b, encoded, detected⟩

end ZipContainer.Zip
