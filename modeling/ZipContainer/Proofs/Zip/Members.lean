import ZipContainer.Proofs.Zip.Fields
import ZipContainer.Proofs.Zip.Headers
import ZipContainer.Proofs.Zip.Layout
import ZipContainer.Proofs.Zip.Names

/-!
# Members as they are laid out

A member whose local record stands where the directory says is opened (`Laid.locate_of_localAt`).
What reading it yields does not depend on where that is, nor on what else the archive holds
(`Laid.Reads`).  A member that was packed by a method of writing is read as the entry that was
packed, whatever its stamp (`reads_packed`).
-/

namespace ZipContainer.Zip

variable {data : ByteArray} {offset : Nat}

namespace Laid

variable {l : Laid}

/-- Where the packed data begin behind a local record as it is laid out. -/
theorem first_of_localAt (h : l.LocalAt data offset) :
    (l.record offset).first data = offset + localSize + l.name.size := by
  have nameSize : fieldAt data (offset + 26) 2 = l.name.size := h.shared.nameSize
  have extraSize : fieldAt data (offset + 28) 2 = 0 := h.shared.extraSize
  have within := h.within
  have place : (l.record offset).offset.toNat = offset := Int.toNat_natCast offset
  rw [Record.first, place, headerSpan, nameSize, extraSize]
  omega

/-- **A local record as it is laid out agrees** with the directory record, if no flag says that the
data are packed in another way. -/
theorem agrees_of_localAt (h : l.LocalAt data offset) (fits : l.Fits)
    (whole : Flag.compressedPatch.isSet l.flags = false)
    (weak : Flag.strongEncryption.isSet l.flags = false) (hoffset : offset < absent32) :
    Agrees data (l.record offset) := by
  have flags : fieldAt data (offset + 6) 2 = l.flags := h.shared.flags
  have nameSize : fieldAt data (offset + 26) 2 = l.name.size := h.shared.nameSize
  have stored : data.extract (offset + localSize) (offset + localSize + l.name.size) = l.name :=
    h.name
  have within := h.within
  have word : absent32 ≤ maxWord := by decide
  have start : (l.record offset).offset = offset := rfl
  have place : (l.record offset).offset.toNat = offset := Int.toNat_natCast offset
  exact {
    within := by omega
    word := by omega
    header := by omega
    signature := place ▸ h.signature
    whole := whole
    weak := weak
    name := by
      rw [place, flags, nameSize, stored]
      exact fits.packed.text }

/-- A member ends where its local record does. -/
theorem last_of_localAt (h : l.LocalAt data offset) :
    (l.record offset).last data = offset + l.localRecord.size := by
  have packed : (l.record offset).compressedSize = l.content.size := rfl
  rw [Record.last, first_of_localAt h, packed, size_localRecord]
  omega

/-- **The packed data of a member are found** behind its local record, if no flag stands in the
way and the member ends before its bound. -/
theorem locate_of_localAt {bound : Int} (h : l.LocalAt data offset) (fits : l.Fits)
    (hflags : ∀ f : Flag, f ≠ .utf8Name → f.isSet l.flags = false) (hoffset : offset < absent32)
    (hbound : (offset + l.localRecord.size : Nat) ≤ bound) :
    locate data (l.record offset) bound = .ok (offset + localSize + l.name.size) := by
  have agrees := agrees_of_localAt h fits (hflags .compressedPatch nofun)
    (hflags .strongEncryption nofun) hoffset
  have clear : (l.record offset).hasFlag .encrypted = false := hflags .encrypted nofun
  rw [locate_of_agrees agrees (last_of_localAt h ▸ hbound), clear, first_of_localAt h]
  rfl

/-- Reading the member yields an entry, or passes it over as a directory, wherever its local record
stands. -/
def Reads [Zstandard.Decoder] (l : Laid) (limit : Option Int) (e? : Option Entry) : Prop :=
  ∀ data offset, l.LocalAt data offset → offset < absent32 →
    entryOf data limit (l.record offset, (offset + l.localRecord.size : Nat)) = .ok e?

end Laid

/-! ### Packed entries -/

/-- What is written about an entry, if it can be. -/
def packed (m : WriteMethod) (e : Entry) : Packed where
  name := (cutName e.path).toUTF8
  flags := nameFlags (cutName e.path)
  method := m.toMethod.code
  crc := crc32 e.content
  size := e.content.size
  content := m.pack e.content

/-- An entry under the name by which readers know it. -/
def known (e : Entry) : Entry := ⟨cutName e.path, e.content⟩

/-- The name stands for a directory. -/
def isDirectoryName (name : Text) : Bool := name.toList.getLast? = some .slash

/-- Readers know a member by its text, cut. -/
theorem Laid.name_record (l : Laid) (offset : Nat) : (l.record offset).name = cutName l.text := rfl

@[inherit_doc Laid.name_record]
theorem Laid.isDirectory_record (l : Laid) (offset : Nat) :
    (l.record offset).isDirectory = isDirectoryName (cutName l.text) := rfl

variable {m : WriteMethod} {now : Moment} {e : Entry} {limit : Option Int} {f : Failure}

theorem nameFlags_le (name : Text) : nameFlags name ≤ maxField := by
  unfold nameFlags
  split <;> decide

/-- Names are marked as UTF-8 or not; no other flag is set. -/
theorem isSet_nameFlags (name : Text) (f : Flag) (hf : f ≠ .utf8Name) :
    f.isSet (nameFlags name) = false := by
  unfold nameFlags
  split <;> cases f <;> first | rfl | exact absurd rfl hf

theorem flags_packed (m : WriteMethod) (e : Entry) :
    (packed m e).flags = nameFlags (cutName e.path) := by
  rw [packed]

theorem text_packed (unicode : (cutName e.path).IsUnicode) : (packed m e).text = cutName e.path := by
  rw [Packed.text, packed, nameText_toUTF8 unicode]
  rfl

theorem code_toMethod (m : WriteMethod) :
    m.toMethod.code ≤ maxField ∧ m.toMethod.code ≠ Method.zstandard.code := by
  cases m <;> simp only [WriteMethod.toMethod] <;> decide

/-! ### Packing -/

/-- An entry can be packed at a moment: the year can be stored, its cut name has UTF-8 that fits its
field, and its sizes fit eight bytes. -/
structure Packs (m : WriteMethod) (now : Moment) (e : Entry) : Prop where
  early : Moment.firstYear ≤ now.year
  late : now.year ≤ Moment.lastYear
  unicode : (cutName e.path).IsUnicode
  name : (cutName e.path).toUTF8.size ≤ maxField
  size : e.content.size ≤ maxLong
  packedSize : (m.pack e.content).size ≤ maxLong

/-- How packing an entry is refused. -/
inductive PackRefusal (m : WriteMethod) (now : Moment) (e : Entry) : Failure → Prop where
  /-- The year is before the first that can be stored. -/
  | early (year : now.year < Moment.firstYear) : PackRefusal m now e (.encode .beforeFirstYear)
  /-- The name has no UTF-8. -/
  | loose (year : Moment.firstYear ≤ now.year) {l : Text.Loose}
      (surrogates : (cutName e.path).loose? = some l) : PackRefusal m now e (.encode (.loose l))
  /-- The year is after the last that can be stored. -/
  | late (year : Moment.lastYear < now.year) (unicode : (cutName e.path).IsUnicode) :
      PackRefusal m now e .fieldRange
  /-- The name is longer than its field can say. -/
  | long (year : Moment.firstYear ≤ now.year) (unicode : (cutName e.path).IsUnicode)
      (size : maxField < (cutName e.path).toUTF8.size) : PackRefusal m now e .fieldRange
  /-- A size is larger than eight bytes can say. -/
  | large (year : Moment.firstYear ≤ now.year) (unicode : (cutName e.path).IsUnicode)
      (size : maxLong < e.content.size ∨ maxLong < (m.pack e.content).size) :
      PackRefusal m now e .fieldRange

theorem coded_packed (m : WriteMethod) (e : Entry) : (packed m e).Coded :=
  ⟨nameFlags_le _, (code_toMethod m).1⟩

/-- Contents that are packed leave nothing to be found out about their sizes: where no room is left
for fields of eight bytes, none are needed. -/
theorem steady_packed (m : WriteMethod) (e : Entry) : (packed m e).Steady := by
  intro narrow
  have bound := m.size_pack_le e.content
  have size : (packed m e).size = e.content.size := rfl
  have content : (packed m e).content.size = (m.pack e.content).size := rfl
  have small := of_decide_eq_false narrow
  rw [Deflate.compressBound] at bound
  rw [shortLimit] at small ⊢
  omega

theorem writable_packed (m : WriteMethod) (now : Moment) (e : Entry) :
    (packed m e).Writable now ↔ now.year ≤ Moment.lastYear ∧
      (cutName e.path).toUTF8.size ≤ maxField ∧ e.content.size ≤ maxLong ∧
      (m.pack e.content).size ≤ maxLong :=
  ⟨fun h => ⟨h.year, h.name, h.size, h.content⟩, fun ⟨year, name, size, content⟩ =>
    ⟨year, name, size, content⟩⟩

/-- Once the name is known to have UTF-8, the numbers decide. -/
theorem pack_of_unicode (year : Moment.firstYear ≤ now.year) (unicode : (cutName e.path).IsUnicode) :
    pack m now e = (packed m e).check now := by
  simp only [pack, if_neg (Nat.not_lt.mpr year), Text.encode_of_isUnicode unicode]
  rfl

/-- **An entry that can be packed is.** -/
theorem Packs.pack_eq (h : Packs m now e) : pack m now e = .ok (packed m e) := by
  rw [pack_of_unicode h.early h.unicode]
  exact Packed.check_eq_ok h.early (coded_packed m e) (steady_packed m e)
    ((writable_packed m now e).mpr ⟨h.late, h.name, h.size, h.packedSize⟩)

/-- **What is refused is not packed.** -/
theorem PackRefusal.pack_eq (h : PackRefusal m now e f) : pack m now e = .error f := by
  have unfit (year : Moment.firstYear ≤ now.year) (unicode : (cutName e.path).IsUnicode)
      (h : ¬ (packed m e).Writable now) : pack m now e = .error .fieldRange := by
    rw [pack_of_unicode year unicode]
    exact Packed.check_eq_error year (coded_packed m e) (steady_packed m e) h
  cases h with
  | early year => exact if_pos year
  | loose year surrogates =>
      simp only [pack, if_neg (Nat.not_lt.mpr year), Text.encode, surrogates]
  | late year unicode =>
      have order : Moment.firstYear ≤ Moment.lastYear := by decide
      exact unfit (by omega) unicode fun fits => Nat.not_lt.mpr fits.year year
  | long year unicode size => exact unfit year unicode fun fits => Nat.not_lt.mpr fits.name size
  | large year unicode size =>
      refine unfit year unicode fun fits => ?_
      have bounds := (writable_packed m now e).mp fits
      omega

/-- An entry can be packed or is refused. -/
theorem packs_or_refused (m : WriteMethod) (now : Moment) (e : Entry) :
    Packs m now e ∨ ∃ f, PackRefusal m now e f := by
  by_cases early : now.year < Moment.firstYear
  · exact .inr ⟨_, .early early⟩
  have year := Nat.le_of_not_lt early
  cases surrogates : (cutName e.path).loose? with
  | some l => exact .inr ⟨_, .loose year surrogates⟩
  | none =>
      have unicode := Text.loose?_eq_none_iff.mp surrogates
      by_cases late : Moment.lastYear < now.year
      · exact .inr ⟨_, .late late unicode⟩
      by_cases long : maxField < (cutName e.path).toUTF8.size
      · exact .inr ⟨_, .long year unicode long⟩
      by_cases large : maxLong < e.content.size ∨ maxLong < (m.pack e.content).size
      · exact .inr ⟨_, .large year unicode large⟩
      · exact .inl ⟨year, by omega, unicode, by omega, by omega, by omega⟩

/-! ### Reading what was packed -/

theorem fits_packed (unicode : (cutName e.path).IsUnicode)
    (hname : (cutName e.path).toUTF8.size ≤ maxField)
    (hsize : e.content.size ≤ absent32) (hpacked : (m.pack e.content).size < absent32) :
    (packed m e).Fits where
  text := by rw [text_packed unicode, flags_packed]; exact nameText_toUTF8 unicode
  name := hname
  flags := by rw [flags_packed]; exact nameFlags_le _
  method := (code_toMethod m).1
  content := hpacked
  size := hsize

/-- A packed entry is known by the same name, whatever its stamp. -/
theorem name_record (unicode : (cutName e.path).IsUnicode) (m : WriteMethod) (s : Stamp)
    (offset : Nat) : (((packed m e).stamped s).record offset).name = cutName e.path := by
  have text : ((packed m e).stamped s).text = cutName e.path := text_packed unicode
  rw [Laid.name_record, text, cutName_cutName]

theorem withinLimit_eq_true (h : ∀ l, limit = some l → (e.content.size : Int) ≤ l) :
    withinLimit limit e.content.size = true := by
  unfold withinLimit
  cases hl : limit with
  | none => rfl
  | some l => exact decide_eq_true (h l hl)

/-- **A member is read back** where its local record stands. -/
theorem readPacked_packed {s : Stamp} (h : ((packed m e).stamped s).LocalAt data offset)
    (fits : ((packed m e).stamped s).Fits) (hoffset : offset < absent32)
    (hlimit : ∀ l, limit = some l → (e.content.size : Int) ≤ l ∧ l < maxWord) :
    readPacked data limit (((packed m e).stamped s).record offset)
      (offset + ((packed m e).stamped s).localRecord.size : Nat) = .ok e.content := by
  have flags : ∀ f : Flag, f ≠ .utf8Name → f.isSet (packed m e).flags = false := by
    rw [flags_packed]
    exact isSet_nameFlags _
  have located := Laid.locate_of_localAt h fits flags hoffset (Int.le_refl _)
  have within := h.within
  have method : Packing.ofCode? (((packed m e).stamped s).record offset).method =
      some m.packing := by
    cases m <;> rfl
  let source : Source := ⟨data, offset + localSize + (packed m e).name.size, m.packing,
    (packed m e).content.size, e.content.size, limit⟩
  have holds : source.Holds m e.content := ⟨h.content, rfl, rfl, rfl⟩
  have start : offset + localSize + ((packed m e).stamped s).name.size ≤ data.size := by omega
  have read : source.read = .ok (e.content, true) := Source.read_pack holds start hlimit
  rw [readPacked_of_ended located method read (withinLimit_eq_true fun l hl => (hlimit l hl).1)]
  exact if_neg fun hne => hne rfl

/-- The entry that readers know, unless it stands for a directory. -/
def knownFile? (e : Entry) : Option Entry :=
  if isDirectoryName (cutName e.path) then none else some (known e)

/-- **A packed entry is read as readers know it**, whatever its stamp. -/
theorem reads_packed [Zstandard.Decoder] {s : Stamp} (fits : ((packed m e).stamped s).Fits)
    (unicode : (cutName e.path).IsUnicode) (hname : cutName e.path ≠ "")
    (hlimit : ∀ l, limit = some l → l < maxWord ∧
      (isDirectoryName (cutName e.path) = false → (e.content.size : Int) ≤ l)) :
    ((packed m e).stamped s).Reads limit (knownFile? e) := by
  intro data offset h hoffset
  have directory : (((packed m e).stamped s).record offset).isDirectory =
      isDirectoryName (cutName e.path) := by
    rw [Laid.isDirectory_record, ← Laid.name_record _ offset, name_record unicode]
  simp only [entryOf, name_record unicode, if_neg hname, directory, knownFile?]
  cases hdirectory : isDirectoryName (cutName e.path) with
  | true => rfl
  | false =>
      have allowed (l : Int) (hl : limit = some l) : (e.content.size : Int) ≤ l ∧ l < maxWord :=
        ⟨(hlimit l hl).2 hdirectory, (hlimit l hl).1⟩
      have size : withinLimit limit (((packed m e).stamped s).record offset).size = true :=
        withinLimit_eq_true fun l hl => (allowed l hl).1
      have method : (((packed m e).stamped s).record offset).method ≠ Method.zstandard.code :=
        (code_toMethod m).2
      rw [readMember, size, if_neg method, readPacked_packed h fits hoffset allowed]
      rfl

end ZipContainer.Zip
