import ZipContainer.Proofs.Zip.Integrity
import ZipContainer.Proofs.Zip.Locator

/-!
# Encoding again what was decoded

Whatever an archive holds, and however it was made, the entries that decoding delivers are such as
readers know: their names are there, are cut, and do not end in a slash (`deliverable_of_decode`).
So they come back as they are when they are encoded and decoded once more (`recoded_reads_back`).

Two kinds of names come in the way.  A name in code page 437 may be three times as long in UTF-8 as
it was stored, and then does not fit its field any more; one that is stored as UTF-8 fits again
(`spelled_of_lists`).  And a name that is not the last of its directory, or is not followed by the
end record, may become the last bytes before that record, and look like a locator there.
-/

namespace ZipContainer.Zip

variable {m : WriteMethod} {now : Moment} {data dir b : ByteArray} {limit : Option Int}
  {es : List Entry} {r : Record} {t : Text}

/-! ### What decoding delivers -/

/-- The entry is one that decoding can deliver under a limit. -/
structure Deliverable (limit : Option Int) (e : Entry) : Prop where
  named : e.path ≠ ""
  noNul : Point.nul ∉ e.path.toList
  unicode : e.path.IsUnicode
  file : isDirectoryName e.path = false
  admitted : ∀ l, limit = some l → (e.content.size : Int) ≤ l

/-- A name that is understood has UTF-8, as it is spelled in one of two encodings. -/
theorem isUnicode_of_nameText {flags : Nat} (h : nameText flags b = .ok t) : t.IsUnicode := by
  rw [nameText] at h
  split at h
  · cases decoded : Text.Utf8.decode b with
    | error f => rw [decoded] at h; cases h
    | ok text =>
        rw [decoded] at h
        cases h
        exact Text.isUnicode_ofString text
  · cases h
    exact Text.isUnicode_ofString _

/-- If the name of the record is marked as UTF-8, it fits its field. -/
def FitsIfMarked (r : Record) : Prop :=
  r.hasFlag .utf8Name = true → r.name.toUTF8.size ≤ maxField

theorem fitsIfMarked_of_nameText {flags : Nat} (named : nameText flags b = .ok t)
    (size : b.size ≤ maxField) (marked : Flag.utf8Name.isSet flags = true) :
    (cutName t).toUTF8.size ≤ maxField := by
  rw [nameText, if_pos marked] at named
  cases decoded : Text.Utf8.decode b with
  | error f => rw [decoded] at named; cases named
  | ok text =>
      rw [decoded] at named
      cases named
      calc (cutName text).toUTF8.size
        _ ≤ (text : Text).toUTF8.size := size_cutName_le text
        _ = b.size := by
          rw [Text.toUTF8, Text.string_ofString, Text.Utf8.toUTF8_of_decode decoded]
        _ ≤ maxField := size

theorem eq_ok_of_mapError {α ε ε' : Type} {x : Except ε α} {g : ε → ε'} {a : α}
    (h : x.mapError g = .ok a) : x = .ok a := by
  cases x with
  | error f => cases h
  | ok a' => cases h; rfl

/-- What every record that is read says about its name. -/
structure Spelled (r : Record) : Prop where
  unicode : r.name.IsUnicode
  fits : FitsIfMarked r

theorem readRecord_spelled (dir : ByteArray) (pos : Nat) (shift : Int) :
    Ensures (fun x => Spelled x.1) (readRecord dir pos shift) := by
  unfold readRecord
  refine .check fun _ => ?_
  refine .check fun _ => ?_
  refine .bind fun fullName spelled => ?_
  refine .check fun _ => ?_
  have size : fieldAt dir (pos + 28) 2 ≤ maxField := Nat.le_of_lt_succ (fieldAt_lt dir (pos + 28) 2)
  have named := eq_ok_of_mapError spelled
  exact .bind fun extent _ => .ok ⟨isUnicode_cutName (isUnicode_of_nameText named),
    fitsIfMarked_of_nameText named ((size_extract_le ..).trans size)⟩

theorem readRecords_spelled {dir : ByteArray} {size : Nat} {shift : Int} {fuel pos : Nat}
    {acc : List Record} (before : ∀ r ∈ acc, Spelled r) :
    Ensures (fun records => ∀ r ∈ records, Spelled r)
      (readRecords dir size shift fuel pos acc) := by
  have done : ∀ r ∈ acc.reverse, Spelled r := fun r hr => before r (List.mem_reverse.mp hr)
  induction fuel generalizing pos acc with
  | zero => exact .ok done
  | succ fuel ih =>
      rw [readRecords]
      split
      · exact .ok done
      cases hr : readRecord dir pos shift with
      | error f => exact .error
      | ok read =>
          have first : Spelled read.1 := readRecord_spelled dir pos shift read hr
          have more : ∀ r ∈ read.1 :: acc, Spelled r := List.forall_mem_cons.mpr ⟨first, before⟩
          exact ih more fun r hr => more r (List.mem_reverse.mp hr)

/-- **The names of a directory have UTF-8**, and one that is marked as such fits its field, also
once it is cut. -/
theorem spelled_of_lists {records : List Record} (h : Lists data records) :
    ∀ r ∈ records, Spelled r := by
  obtain ⟨e, start, -, -, read⟩ := h
  exact readRecords_spelled (fun _ hr => absurd hr List.not_mem_nil) records read

section

variable [Zstandard.Decoder]

theorem deliverable_of_delivers {f : Record × Int} {e : Entry} (named : f.1.name ≠ "")
    (unicode : f.1.name.IsUnicode) (file : f.1.isDirectory = false) (h : Delivers data limit f e) :
    Deliverable limit e := by
  obtain ⟨path, -, -, admitted⟩ := verified_of_delivers h
  exact {
    named := path ▸ named
    noNul := path ▸ noNul_cutName f.1.fullName
    unicode := path ▸ unicode
    file := path ▸ file
    admitted := admitted }

/-- **Everything that decoding returns is deliverable**, whatever archive it comes from. -/
theorem deliverable_of_decode (h : decode data limit = .ok es) :
    ∀ e ∈ es, Deliverable limit e := by
  obtain ⟨-, d, read, names, all⟩ := decode_eq_ok_iff.mp h
  have spelled := spelled_of_lists (lists_of_readDirectory read)
  have kinds : ∀ f ∈ d.files, f.1.name ≠ "" ∧ f.1.name.IsUnicode ∧ f.1.isDirectory = false := by
    intro f hf
    obtain ⟨listed, file⟩ := List.mem_filter.mp hf
    exact ⟨names f listed, (spelled f.1 (List.mem_map_of_mem listed)).unicode, by simpa using file⟩
  have each : List.Forall₂ (fun e f => Deliverable limit e ∧ Delivers data limit f e) es d.files :=
    (((List.forall₂_and_left _ _).mpr ⟨kinds, all⟩).imp fun f e ⟨⟨named, unicode, file⟩, h⟩ =>
      ⟨deliverable_of_delivers named unicode file h, h⟩).flip
  exact ((List.forall₂_and_left _ _).mp each).1

end

/-! ### Encoding again -/

theorem archivable_of_deliverable (h : ∀ e ∈ es, Deliverable limit e)
    (year : Moment.firstYear ≤ now.year ∧ now.year ≤ Moment.lastYear) (count : es.length ≤ maxField)
    (contentSize : ∀ e ∈ es, e.content.size < 2 * 10 ^ 9)
    (fits : ∀ e ∈ es, e.path.toUTF8.size ≤ maxField) : Archivable now es where
  year := year
  count := count
  named e he := by
    rw [cutName_of_noNul (h e he).noNul]
    exact (h e he).named
  unicode e he := isUnicode_cutName (h e he).unicode
  nameSize e he := by
    rw [cutName_of_noNul (h e he).noNul]
    exact fits e he
  contentSize := contentSize

/-- **What was decoded comes back**, but for two kinds of names.  Everything that decoding an
archive delivers is deliverable, and only names that are not marked as UTF-8 can be too long to be
written again.

If all names fit their field, the entries are encoded, at any time that can be stored and by either
method.  The new archive decodes to the same entries, unless the twenty bytes before its end record
begin with the signature of a locator: then it does not decode.

If some name does not fit its field, the entries are not encoded. -/
theorem recoded_reads_back [Zstandard.Decoder] (m : WriteMethod)
    (decoded : decode data limit = .ok es)
    (word : ∀ l, limit = some l → l < maxWord)
    (year : Moment.firstYear ≤ now.year ∧ now.year ≤ Moment.lastYear) (count : es.length ≤ maxField)
    (contentSize : ∀ e ∈ es, e.content.size < 2 * 10 ^ 9)
    (size : ∀ b, encode m now es = .ok b → b.size < 2 ^ 31 - 1) :
    (∀ e ∈ es, Deliverable limit e) ∧
    (∃ records, Lists data records ∧ List.Forall₂ (fun r e => e.path = r.name ∧ FitsIfMarked r)
      (records.filter fun r => !r.isDirectory) es) ∧
    ((∀ e ∈ es, e.path.toUTF8.size ≤ maxField) → ∃ b, encode m now es = .ok b ∧
      (startsAt b (b.size - endSize - locatorSize) locatorSignature = false →
        decode b limit = .ok es) ∧
      (startsAt b (b.size - endSize - locatorSize) locatorSignature = true →
        decode b limit = .error (.container (.directory .spansDisks)))) ∧
    ((∃ e ∈ es, maxField < e.path.toUTF8.size) → encode m now es = .error .fieldRange) := by
  have deliverable := deliverable_of_decode decoded
  have uncut (e : Entry) (he : e ∈ es) : cutName e.path = e.path :=
    cutName_of_noNul (deliverable e he).noNul
  refine ⟨deliverable, ?_, fun fits => ?_, ?_⟩
  · obtain ⟨records, lists, verified⟩ := decode_verified decoded
    have marked : ∀ r ∈ records.filter (fun r => !r.isDirectory), FitsIfMarked r := fun r hr =>
      (spelled_of_lists lists r (List.mem_of_mem_filter hr)).fits
    exact ⟨records, lists, ((List.forall₂_and_left _ _).mpr ⟨marked, verified⟩).imp
      fun r e h => ⟨h.2.path, h.1⟩⟩
  · have archivable := archivable_of_deliverable deliverable year count contentSize fits
    have layout := encode_eq_ok (m := m) archivable
    have known : knownEntries es = es := knownEntries_eq_self fun e he =>
      ⟨(deliverable e he).noNul, (deliverable e he).file⟩
    refine ⟨_, layout, fun noLocator => ?_, decode_locator archivable (size _ layout)⟩
    have admits : Admits limit es := fun l hl =>
      ⟨word l hl, fun e he _ => (deliverable e he).admitted l hl⟩
    rw [decode_layout archivable admits (size _ layout) fun _ => noLocator, known]
  · rintro ⟨e, he, long⟩
    exact encode_long year.1 (fun e he => isUnicode_cutName (deliverable e he).unicode)
      ⟨e, he, by rwa [uncut e he]⟩

open scoped Zstandard in
/-- Of two archives with the name `PK\x06\x07abcdefghijklmnop`, one comes back.  In the other a
directory is listed behind that name and is passed over, so that the name becomes the last: what was
decoded is encoded, but does not decode again. -/
theorem locator_name_not_recoded :
    let now : Moment := ⟨2020, 2, 3, 4, 5, 6⟩
    let pk : Entry := ⟨"PK\x06\x07abcdefghijklmnop", bytesOf [1]⟩
    let a : Entry := ⟨"a", bytesOf [2]⟩
    (∃ data b, decode data (some 1) = .ok [pk, a] ∧ encode .stored now [pk, a] = .ok b ∧
      decode b (some 1) = .ok [pk, a]) ∧
    ∃ data b, decode data (some 1) = .ok [pk] ∧ encode .stored now [pk] = .ok b ∧
      decode b (some 1) = .error (.container (.directory .spansDisks)) := by
  intro now pk a
  let folder : Entry := ⟨"d/", ByteArray.empty⟩
  have word : ∀ l, some (1 : Int) = some l → l < maxWord := by
    rintro l ⟨⟩
    decide
  have recoded {data : ByteArray} {es : List Entry} (decoded : decode data (some 1) = .ok es)
      (archivable : Archivable now es)
      (size : (layout now (es.map (packed .stored))).size < 2 ^ 31 - 1) :=
    recoded_reads_back .stored decoded word archivable.year archivable.count archivable.contentSize
      fun b hb => by
        rw [encode_eq_ok archivable] at hb
        exact Except.ok.inj hb ▸ size
  have decoding {es : List Entry} (archivable : Archivable now es) (admits : Admits (some 1) es)
      (size : (layout now (es.map (packed (.deflated Deflate.compressor)))).size < 2 ^ 31 - 1)
      (noLocator : startsAt (layout now (es.map (packed (.deflated Deflate.compressor))))
        ((layout now (es.map (packed (.deflated Deflate.compressor)))).size - endSize - locatorSize)
        locatorSignature = false) :=
    decode_layout archivable admits size fun _ => noLocator
  constructor
  · have archivable : Archivable now [pk, a] := ⟨by decide, by decide, by decide +kernel,
      by decide +kernel, by decide +kernel, by decide +kernel⟩
    have admits : Admits (some 1) [pk, a] := by
      rintro l ⟨⟩
      exact ⟨by decide, by decide +kernel⟩
    have known : knownEntries [pk, a] = [pk, a] := by decide +kernel
    have decoded := decoding archivable admits (by decide +kernel) (by decide +kernel)
    rw [known] at decoded
    obtain ⟨-, -, comes, -⟩ := recoded decoded archivable (by decide +kernel)
    obtain ⟨b, encoded, back, -⟩ := comes (by decide +kernel)
    refine ⟨_, b, decoded, encoded, back ?_⟩
    rw [encode_eq_ok archivable] at encoded
    cases encoded
    decide +kernel
  · have listed : Archivable now [pk, folder] := ⟨by decide, by decide, by decide +kernel,
      by decide +kernel, by decide +kernel, by decide +kernel⟩
    have archivable : Archivable now [pk] := ⟨by decide, by decide, by decide +kernel,
      by decide +kernel, by decide +kernel, by decide +kernel⟩
    have admits : Admits (some 1) [pk, folder] := by
      rintro l ⟨⟩
      exact ⟨by decide, by decide +kernel⟩
    have known : knownEntries [pk, folder] = [pk] := by decide +kernel
    have decoded := decoding listed admits (by decide +kernel) (by decide +kernel)
    rw [known] at decoded
    obtain ⟨-, -, comes, -⟩ := recoded decoded archivable (by decide +kernel)
    obtain ⟨b, encoded, -, lost⟩ := comes (by decide +kernel)
    refine ⟨_, b, decoded, encoded, lost ?_⟩
    rw [encode_eq_ok archivable] at encoded
    cases encoded
    decide +kernel

end ZipContainer.Zip
