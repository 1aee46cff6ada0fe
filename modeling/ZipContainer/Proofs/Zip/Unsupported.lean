import ZipContainer.Proofs.Zip.Frames

/-!
# Members that are not supported

Both records of a member state its flags and its method.  If they say that it is encrypted, or name
a method that no reader knows, it is refused as unsupported, under its own name and for nothing
else.  There are three places at which that is noticed: encryption by whoever unpacks Zstandard
members, or at the end of opening any other; the method only behind that, where the member is opened
(`fails_of_encrypted`, `fails_of_unknown`).

So if both records of an entry in an archive that could be decoded are made to say so, decoding fails
for that, whatever the entry is and whatever stands before and behind it (`restated_unsupported`).
-/

namespace ZipContainer.Zip

variable {limit : Option Int}

/-- The failure says that a member of the name is not supported. -/
def IsUnsupported (name : Text) (f : Failure) : Prop := ∃ why, f = .unsupported name why

/-! ### Flags and methods -/

/-- The flags with that of an encrypted member. -/
def encryptedFlags (flags : Nat) : Nat := flags ||| 2 ^ Flag.encrypted.bit

theorem isSet_encryptedFlags (f : Flag) (flags : Nat) :
    f.isSet (encryptedFlags flags) = (f.isSet flags || f = .encrypted) := by
  rw [Flag.isSet, encryptedFlags, Nat.testBit_or, Nat.testBit_two_pow]
  cases f <;> rfl

theorem encryptedFlags_le {flags : Nat} (h : flags ≤ maxField) :
    encryptedFlags flags ≤ maxField := by
  have bit : 2 ^ Flag.encrypted.bit < 2 ^ 16 := by decide
  exact Nat.le_of_lt_succ (Nat.or_lt_two_pow (Nat.lt_succ_of_le h) bit)

/-- A number that no method has stands for no packing. -/
theorem packing_of_unknown {code : Nat} (unknown : ∀ m : Method, code ≠ m.code) :
    Packing.ofCode? code = none := by
  have none : Method.ofCode? code = none := by
    unfold Method.ofCode?
    split
    · exact absurd rfl (unknown .stored)
    · exact absurd rfl (unknown .deflated)
    · exact absurd rfl (unknown .bzip2)
    · exact absurd rfl (unknown .lzma)
    · exact absurd rfl (unknown .zstandard)
    · rfl
  rw [Packing.ofCode?, none]

/-! ### Members -/

namespace Laid

variable {l : Laid}

/-- **An encrypted member is not supported**, whatever its method. -/
theorem fails_of_encrypted [Zstandard.Decoder] (fits : l.Fits)
    (comes : ∀ offset, Comes limit (l.record offset))
    (whole : Flag.compressedPatch.isSet l.flags = false)
    (weak : Flag.strongEncryption.isSet l.flags = false)
    (encrypted : Flag.encrypted.isSet l.flags = true) :
    l.Fails limit (IsUnsupported (cutName l.text)) := by
  intro data offset h hoffset
  have flag : (l.record offset).hasFlag .encrypted = true := encrypted
  by_cases zstandard : (l.record offset).method = Method.zstandard.code
  · refine ⟨_, ⟨.encryptedMember, rfl⟩, (entryOf_error_iff (comes offset)).mpr ?_⟩
    rw [readMember_of_comes (comes offset), if_pos zstandard, readZstandard, flag]
    rfl
  · refine ⟨_, ⟨.encrypted (l.record offset), rfl⟩, (entryOf_error_iff (comes offset)).mpr ?_⟩
    have room := (last_of_localAt h).le
    rw [readMember_of_comes (comes offset), if_neg zstandard, readPacked,
      locate_of_agrees (agrees_of_localAt h fits whole weak hoffset) (Int.ofNat_le.mpr room), flag]
    rfl

/-- **A member that is packed in no known way is not supported.** -/
theorem fails_of_unknown [Zstandard.Decoder] (fits : l.Fits)
    (comes : ∀ offset, Comes limit (l.record offset))
    (clear : ∀ f : Flag, f ≠ .utf8Name → f.isSet l.flags = false)
    (unknown : ∀ m : Method, l.method ≠ m.code) :
    l.Fails limit (IsUnsupported (cutName l.text)) := by
  intro data offset h hoffset
  refine ⟨_, ⟨.method, rfl⟩, (entryOf_error_iff (comes offset)).mpr ?_⟩
  have other : (l.record offset).method ≠ Method.zstandard.code := unknown .zstandard
  have none : Packing.ofCode? (l.record offset).method = none := packing_of_unknown unknown
  rw [readMember_of_comes (comes offset), if_neg other, readPacked,
    locate_of_localAt h fits clear hoffset (Int.le_refl _), none]
  rfl

/-- How a member with the given flags can be restated so that it is not supported. -/
inductive Restated (flags : Nat) : Nat → Nat → Prop where
  /-- It is packed in no known way. -/
  | unknown {method : Nat} (h : ∀ m : Method, method ≠ m.code) : Restated flags flags method
  /-- It is encrypted, whatever the method. -/
  | encrypted (method : Nat) : Restated flags (encryptedFlags flags) method

variable {flags method : Nat}

theorem Restated.flags_le (restated : Restated l.flags flags method) (h : l.flags ≤ maxField) :
    flags ≤ maxField := by
  cases restated with
  | unknown => exact h
  | encrypted => exact encryptedFlags_le h

/-- Only one flag matters to how a name is understood, and it stays as it is. -/
theorem Restated.nameText (restated : Restated l.flags flags method) (stored : ByteArray) :
    nameText flags stored = nameText l.flags stored := by
  cases restated with
  | unknown => rfl
  | encrypted =>
      rw [Zip.nameText, Zip.nameText, isSet_encryptedFlags, decide_eq_false nofun, Bool.or_false]

theorem Restated.text (restated : Restated l.flags flags method) :
    (l.altered flags method l.content).text = l.text :=
  congrArg (fun text => text.toOption.getD "") (restated.nameText l.name)

theorem Restated.fits (restated : Restated l.flags flags method) (fits : l.Fits)
    (word : method ≤ maxField) : (l.altered flags method l.content).Fits where
  packed := {
    text := by
      rw [restated.text]
      exact (restated.nameText l.name).trans fits.packed.text
    name := fits.packed.name
    flags := restated.flags_le fits.packed.flags
    method := word
    content := fits.packed.content
    size := fits.packed.size }
  needs := fits.needs

/-- A member that is restated is not supported. -/
theorem Restated.fails [Zstandard.Decoder] {p : Packing} (restated : Restated l.flags flags method)
    (readable : l.Readable p) (word : method ≤ maxField)
    (comes : ∀ offset, Comes limit ((l.altered flags method l.content).record offset)) :
    (l.altered flags method l.content).Fails limit (IsUnsupported (cutName l.text)) := by
  have fits := restated.fits readable.fits word
  rw [← restated.text]
  cases restated with
  | unknown h => exact fails_of_unknown fits comes readable.clear h
  | encrypted =>
      have kept (f : Flag) (other : f ≠ .encrypted) (clear : f.isSet l.flags = false) :
          f.isSet (encryptedFlags l.flags) = false := by
        rw [isSet_encryptedFlags, clear, decide_eq_false other]
        rfl
      have set : Flag.encrypted.isSet (encryptedFlags l.flags) = true := by
        rw [isSet_encryptedFlags, decide_eq_true rfl, Bool.or_true]
      exact fails_of_encrypted fits comes
        (kept .compressedPatch nofun (readable.clear .compressedPatch nofun))
        (kept .strongEncryption nofun (readable.clear .strongEncryption nofun)) set

/-- The data with other flags and another method in the local record at a place and the directory
record at another. -/
def restate (b : ByteArray) (head entry flags method : Nat) : ByteArray :=
  overwrite (overwrite b (head + 6) (stating flags method)) (entry + 8) (stating flags method)

theorem restate_archive (pre : List Laid) (l : Laid) (post : List Laid) (flags method : Nat) :
    restate (archive (pre ++ l :: post)) (locals pre).size
        ((locals (pre ++ l :: post)).size + (directoryFrom pre 0).size) flags method =
      (frame pre l post).fill (stating flags method) l.content := by
  rw [restate, ← size_frame_front pre l post, ← size_frame_middle pre l post l.flags l.method,
    archive_eq_fill]
  exact Frame.overwrite_fill _ rfl

/-- **Where a member is restated, decoding fails for it**, if the archive could be decoded before. -/
theorem decode_restated [Zstandard.Decoder] {pre post : List Laid} {p : Packing} {out : List Entry}
    (plain : Plain (pre ++ l :: post)) (before : ∀ x ∈ pre, ∃ p, x.Readable p)
    (readable : l.Readable p) (decoded : decode (archive (pre ++ l :: post)) limit = .ok out)
    (file : isDirectoryName (cutName l.text) = false) (word : method ≤ maxField)
    (restated : Restated (fieldAt (archive (pre ++ l :: post)) ((locals pre).size + 6) 2) flags method) :
    ∃ f, IsUnsupported (cutName l.text) f ∧
      decode (restate (archive (pre ++ l :: post)) (locals pre).size
        ((locals (pre ++ l :: post)).size + (directoryFrom pre 0).size) flags method) limit =
          .error f := by
  have stated : fieldAt (archive (pre ++ l :: post)) ((locals pre).size + 6) 2 = l.flags :=
    (localAt_archive plain).shared.flags
  rw [stated] at restated
  rw [restate_archive]
  exact decode_altered plain before decoded rfl (restated.fits readable.fits word)
    (restated.fails readable word (comes_altered plain decoded file restated.text))

end Laid

/-! ### Entries -/

/-- **An entry whose records are restated is not supported.**  Let entries be encoded in an archive
that can be decoded under a limit.  In both records of one of them, no directory, let the method be
replaced by a number that no method has, or the flag of an encrypted member be set and the method be
any number.  Then decoding under the limit fails for a member that is not supported, and has the
name of that entry. -/
theorem restated_unsupported [Zstandard.Decoder] {m : WriteMethod} {now : Moment}
    {pre post out : List Entry} {e : Entry} {b : ByteArray} {flags method : Nat}
    (encoded : encode m now (pre ++ e :: post) = .ok b)
    (contentSize : ∀ x ∈ pre ++ e :: post, x.content.size < 2 * 10 ^ 9)
    (small : b.size < 2 ^ 31 - 1) (decoded : decode b limit = .ok out)
    (file : isDirectoryName (cutName e.path) = false) (word : method ≤ maxField)
    (restated : Laid.Restated (fieldAt b (localsSpan m pre + 6) 2) flags method) :
    StandsAt b (localsSpan m pre) ((packed m e).localRecord now) ∧
      StandsAt b (localsSpan m (pre ++ e :: post) + directorySpan pre)
        ((packed m e).directoryRecord now (localsSpan m pre)) ∧
      ∃ why, decode (Laid.restate b (localsSpan m pre)
        (localsSpan m (pre ++ e :: post) + directorySpan pre) flags method) limit =
          .error (.unsupported (cutName e.path) why) := by
  have named := unicode_of_encode encoded e (by simp)
  obtain ⟨rfl, plain, before, readable⟩ := split_of_decode encoded contentSize small decoded
  have short := short_packed m (contentSize e (by simp))
  have offset : (Laid.locals (pre.map (written m now))).size ≤ shortLimit := by
    rw [Laid.size_archive, Laid.endOffset, Laid.locals_append, ByteArray.size_append] at small
    rw [shortLimit]
    omega
  rw [← size_locals_written m now pre] at restated
  rw [← size_locals_written m now pre, ← size_locals_written m now (pre ++ e :: post),
    ← size_directoryFrom_written m now pre 0, ← cutName_text_written m now named, List.map_append,
    List.map_cons, short.localRecord_laid now, short.directoryRecord_laid now offset]
  rw [← cutName_text_written m now named] at file
  refine ⟨Laid.local_standsAt _ (written m now e) _,
    Laid.directoryRecord_standsAt _ (written m now e) _, ?_⟩
  obtain ⟨_, ⟨why, rfl⟩, failed⟩ :=
    Laid.decode_restated plain before readable decoded file word restated
  exact ⟨why, failed⟩

open scoped Zstandard in
/-- The file behind a directory is said to be encrypted, and to be packed by Zstandard. -/
theorem encrypted_zstandard_unsupported :
    ∃ b why, encode .stored ⟨2020, 2, 3, 4, 5, 6⟩
        [⟨"d/", bytesOf [1]⟩, ⟨"f", bytesOf [2, 3, 4, 5, 6]⟩] = .ok b ∧
      decode (Laid.restate b 33 117 1 93) (some 5) = .error (.unsupported "f" why) := by
  let now : Moment := ⟨2020, 2, 3, 4, 5, 6⟩
  let pre : List Entry := [⟨"d/", bytesOf [1]⟩]
  let e : Entry := ⟨"f", bytesOf [2, 3, 4, 5, 6]⟩
  have archivable : Archivable now (pre ++ [e]) := ⟨by decide, by decide, by decide +kernel,
    by decide +kernel, by decide +kernel, by decide +kernel⟩
  have admits : Admits (some 5) (pre ++ [e]) := by
    rintro l ⟨⟩
    exact ⟨by decide, by decide +kernel⟩
  have encoded : encode .stored now (pre ++ [e]) = _ := encode_eq_ok archivable
  obtain ⟨b, hb⟩ : ∃ b, b = layout now ((pre ++ [e]).map (packed .stored)) := ⟨_, rfl⟩
  have small : b.size < 2 ^ 31 - 1 := by rw [hb]; decide +kernel
  have decoded : decode b (some 5) = _ := hb ▸ decode_layout archivable admits (hb ▸ small)
    fun _ => by decide +kernel
  rw [← hb] at encoded
  have places : localsSpan .stored pre = 33 ∧
      localsSpan .stored (pre ++ [e]) + directorySpan pre = 117 := by decide +kernel
  have flags : fieldAt b (localsSpan .stored pre + 6) 2 = 0 := by rw [hb]; decide +kernel
  have restated : Laid.Restated (fieldAt b (localsSpan .stored pre + 6) 2) 1 93 := by
    rw [flags]
    exact .encrypted 93
  obtain ⟨-, -, why, failed⟩ := restated_unsupported encoded archivable.contentSize small decoded
    (by decide) (by decide) restated
  have name : cutName e.path = "f" := by decide
  rw [places.1, places.2, name] at failed
  exact ⟨b, why, encoded, failed⟩

end ZipContainer.Zip
