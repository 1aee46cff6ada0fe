import ZipContainer.Proofs.Zip.Places
import ZipContainer.Proofs.Zip.Recoding
import ZipContainer.Proofs.Zip.Refusals

/-!
# Mixtures of stored and Zstandard members

Members that are packed by Zstandard are not read as others are: their local header is taken apart a
second time, straight from the data.  Where an archive is laid out as archives are, both ways of
reading find the same bytes, so that it makes no difference which members are stored and which are
packed by Zstandard.

Each member of such a mixture is read as its entry, wherever it stands and whatever stands beside it
(`Mixed.reads`).  So the archive decodes to the entries in order, and any two mixtures of the same
entries decode alike (`mixtures_agree`); what encoding writes by storing is one of them.
-/

namespace ZipContainer.Zip

variable {limit : Option Int}

namespace Laid

variable {l : Laid} {data content : ByteArray} {offset : Nat}

/-- A Zstandard member is found where its local record stands, if it is not encrypted. -/
theorem foundAt_of_localAt (h : l.LocalAt data offset)
    (clear : Flag.encrypted.isSet l.flags = false) :
    FoundAt data (l.record offset) offset (offset + localSize + l.name.size) := by
  have nameSize : fieldAt data (offset + 26) 2 = l.name.size := h.shared.nameSize
  have extraSize : fieldAt data (offset + 28) 2 = 0 := h.shared.extraSize
  have within := h.within
  have behind : (offset : Int) + headerSpan data offset =
      (offset + localSize + l.name.size : Nat) := by
    rw [headerSpan, nameSize, extraSize]
    omega
  exact {
    clear := clear
    header := ⟨by omega, .inl rfl⟩
    signature := h.signature
    packed := ⟨within, .inl behind⟩ }

/-- **A Zstandard member is read** where its local record stands, if its packed data unpack to what
the record states. -/
theorem readZstandard_of_localAt [Zstandard.Decoder] (h : l.LocalAt data offset) (fits : l.Fits)
    (clear : Flag.encrypted.isSet l.flags = false)
    (output : Zstandard.Decoder.decompress l.content l.size = .ok content)
    (size : content.size = l.size) (checksum : crc32 content = l.crc) :
    readZstandard data (l.record offset) = .ok content := by
  refine readZstandard_eq_ok_iff.mpr ⟨_, _, foundAt_of_localAt h clear, ?_⟩
  have packed : data.extract (offset + localSize + l.name.size)
      (offset + localSize + l.name.size + l.content.size) = l.content := h.content
  have word : absent32 ≤ maxWord := by decide
  exact {
    word := fits.packed.size.trans word
    output := (congrArg (Zstandard.Decoder.decompress · l.size) packed).trans output
    size := size
    checksum := checksum }

end Laid

/-! ### Members -/

/-- How a member of a mixture is packed: stored, or as a Zstandard frame. -/
inductive Choice where
  | stored
  | zstandard (frame : ByteArray)

namespace Choice

/-- The method of the member. -/
def method : Choice → Method
  | .stored => .stored
  | .zstandard _ => .zstandard

/-- The packed data of the member. -/
def pack (c : Choice) (content : ByteArray) : ByteArray :=
  match c with
  | .stored => content
  | .zstandard frame => frame

/-- The packed data stand for the content: a frame unpacks to it, given a buffer of its size. -/
def StandsFor [Zstandard.Decoder] (c : Choice) (content : ByteArray) : Prop :=
  match c with
  | .stored => True
  | .zstandard frame => Zstandard.Decoder.decompress frame content.size = .ok content

end Choice

/-- A member of a mixture: its entry, how it is packed, and what its records say besides. -/
structure Mixed where
  entry : Entry
  choice : Choice
  stamp : Stamp

namespace Mixed

variable {m : Mixed}

/-- The member as it is laid out, with the flags, the checksum and the sizes of its entry. -/
def laid (m : Mixed) : Laid where
  name := m.entry.path.toUTF8
  flags := nameFlags m.entry.path
  method := m.choice.method.code
  crc := crc32 m.entry.content
  size := m.entry.content.size
  content := m.choice.pack m.entry.content
  stamp := m.stamp

/-- The member of the same entry that encoding writes by storing. -/
def written (m : Mixed) (now : Moment) : Mixed := ⟨m.entry, .stored, .written now⟩

theorem text_laid (unicode : m.entry.path.IsUnicode) : m.laid.text = m.entry.path := by
  have text : nameText m.laid.flags m.laid.name = .ok m.entry.path := nameText_toUTF8 unicode
  rw [Packed.text, text]
  rfl

/-- A stored member is laid out as its packed entry. -/
theorem laid_stored (choice : m.choice = .stored) (noNul : Point.nul ∉ m.entry.path.toList) :
    m.laid = (packed .stored m.entry).stamped m.stamp := by
  rw [laid, choice, packed, cutName_of_noNul noNul]
  rfl

theorem code_le (method : Method) : method.code ≤ maxField := by
  cases method <;> decide

variable [Zstandard.Decoder]

/-- The member can be read under a limit: its entry is one that decoding can deliver, the name and
the size of the content fit their fields, readers know the version, and the packed data stand for
the content. -/
structure Sound (limit : Option Int) (m : Mixed) : Prop extends Deliverable limit m.entry where
  nameSize : m.entry.path.toUTF8.size ≤ maxField
  contentSize : m.entry.content.size ≤ absent32
  version : m.stamp.needs ≤ maxVersion
  content : m.choice.StandsFor m.entry.content

theorem fits (sound : m.Sound limit) (small : (m.choice.pack m.entry.content).size < absent32) :
    m.laid.Fits where
  packed := {
    text := by
      rw [text_laid sound.unicode]
      exact nameText_toUTF8 sound.unicode
    name := sound.nameSize
    flags := nameFlags_le _
    method := code_le m.choice.method
    content := small
    size := sound.contentSize }
  needs := sound.version

theorem name_record (sound : m.Sound limit) (offset : Nat) :
    (m.laid.record offset).name = m.entry.path := by
  rw [Laid.name_record, text_laid sound.unicode, cutName_of_noNul sound.noNul]

theorem reads_stored (choice : m.choice = .stored) (sound : m.Sound limit) (fits : m.laid.Fits)
    (word : ∀ l, limit = some l → l < maxWord) : m.laid.Reads limit (some m.entry) := by
  rw [laid_stored choice sound.noNul] at fits ⊢
  rw [← knownFile?_eq_self sound.noNul sound.file]
  refine reads_packed fits (isUnicode_cutName sound.unicode) ?_ fun l hl =>
    ⟨word l hl, fun _ => sound.admitted l hl⟩
  rw [cutName_of_noNul sound.noNul]
  exact sound.named

theorem reads_zstandard {frame : ByteArray} (choice : m.choice = .zstandard frame)
    (sound : m.Sound limit) (fits : m.laid.Fits) : m.laid.Reads limit (some m.entry) := by
  intro data offset h _
  have name := name_record sound offset
  have output := sound.content
  rw [choice] at output
  have packed : m.laid.content = frame := by rw [laid, choice]; rfl
  have method : (m.laid.record offset).method = Method.zstandard.code := by
    change m.choice.method.code = _
    rw [choice]
    rfl
  have admitted : withinLimit limit (m.laid.record offset).size = true :=
    withinLimit_eq_true sound.admitted
  -- The end bound of the member plays no part in what follows: only plain members look at it.
  have read : readMember data limit (m.laid.record offset)
      (offset + m.laid.localRecord.size : Nat) = .ok m.entry.content := by
    rw [readMember, admitted, if_pos method]
    exact Laid.readZstandard_of_localAt h fits (isSet_nameFlags _ .encrypted (by decide))
      (packed ▸ output) rfl rfl
  refine entryOf_eq_ok_iff.mpr ⟨name ▸ sound.named, .inr ⟨?_, m.entry, rfl, name.symm, read⟩⟩
  rw [Laid.isDirectory_record, ← Laid.name_record m.laid offset, name]
  exact sound.file

/-- **A member is read as its entry**, stored or not, wherever its local record stands. -/
theorem reads (sound : m.Sound limit) (fits : m.laid.Fits)
    (word : ∀ l, limit = some l → l < maxWord) : m.laid.Reads limit (some m.entry) := by
  cases choice : m.choice with
  | stored => exact reads_stored choice sound fits word
  | zstandard frame => exact reads_zstandard choice sound fits

end Mixed

/-! ### Archives -/

section

variable [Zstandard.Decoder]

/-- Members of which an archive can be made that a reader with the limit decodes: there are no more
than can be counted, each can be read, the limit is less than the greatest number, and the archive is
small and has no bytes before its end record that look like a locator. -/
structure Mixture (limit : Option Int) (ms : List Mixed) : Prop where
  count : ms.length ≤ maxField
  sound : ∀ m ∈ ms, m.Sound limit
  word : ∀ l, limit = some l → l < maxWord
  size : (Laid.archive (ms.map Mixed.laid)).size < 2 ^ 31 - 1
  noLocator : startsAt (Laid.archive (ms.map Mixed.laid))
    ((Laid.archive (ms.map Mixed.laid)).size - endSize - locatorSize) locatorSignature = false

theorem Mixture.plain {ms : List Mixed} (h : Mixture limit ms) :
    Laid.Plain (ms.map Mixed.laid) where
  fits l hl := by
    have within := Laid.size_content_le hl
    have small := h.size
    obtain ⟨m, hm, rfl⟩ := List.mem_map.mp hl
    refine Mixed.fits (h.sound m hm) ?_
    change m.laid.content.size < absent32
    rw [absent32]
    omega
  size := Nat.lt_trans h.size (by decide)
  locator _ _ := by
    have none := h.noLocator
    rwa [Laid.size_archive, Nat.add_sub_cancel] at none

/-- **Stored and Zstandard members agree.**  An archive of members that are stored or packed by
Zstandard, in any mixture, decodes to their entries in order.  So any two such archives of the same
entries decode alike; and if the entries are encoded by storing them, and are so small that no 64-bit
fields are needed, the archive is the one of which all members are stored, with the stamp of the
moment. -/
theorem mixtures_agree {ms : List Mixed} (h : Mixture limit ms) :
    decode (Laid.archive (ms.map Mixed.laid)) limit = .ok (ms.map Mixed.entry) ∧
    (∀ ms', Mixture limit ms' → ms'.map Mixed.entry = ms.map Mixed.entry →
      decode (Laid.archive (ms'.map Mixed.laid)) limit =
        decode (Laid.archive (ms.map Mixed.laid)) limit) ∧
    ∀ now b, encode .stored now (ms.map Mixed.entry) = .ok b →
      (∀ m ∈ ms, m.entry.content.size < 2 * 10 ^ 9) → b.size < 2 ^ 31 - 1 →
      b = Laid.archive ((ms.map (·.written now)).map Mixed.laid) := by
  have decoded {ms : List Mixed} (h : Mixture limit ms) :
      decode (Laid.archive (ms.map Mixed.laid)) limit = .ok (ms.map Mixed.entry) := by
    have all : ms.filterMap (fun m => some m.entry) = ms.map Mixed.entry :=
      congrFun List.filterMap_eq_map' ms
    rw [← all]
    exact Laid.decode_archive h.plain fun m hm =>
      Mixed.reads (h.sound m hm) (h.plain.fits _ (List.mem_map_of_mem hm)) h.word
  refine ⟨decoded h, fun ms' h' same => ?_, fun now b encoded contentSize small => ?_⟩
  · rw [decoded h, decoded h', same]
  · obtain ⟨⟨packs, -⟩, rfl⟩ := encode_eq_ok_iff.mp encoded
    have compact : Compact (ms.map Mixed.entry) := ⟨fun e he => (packs e he).unicode,
      fun e he => (packs e he).name, List.forall_mem_map.mpr contentSize⟩
    rw [layout_eq (compact.short small), laidOut, List.map_map, List.map_map, List.map_map]
    refine congrArg Laid.archive (List.map_congr_left fun m hm => ?_)
    exact (Mixed.laid_stored (m := m.written now) rfl (h.sound m hm).noNul).symm

end

open scoped Zstandard in
/-- A stored member and one that is packed by Zstandard, as two tools might write them, decode to
their entries, and alike if both are stored. -/
theorem zstandard_member_read_as_stored :
    let frame := bytesOf [0x28, 0xB5, 0x2F, 0xFD, 0x20, 2, 0x11, 0, 0, 104, 105]
    let es : List Entry := [⟨"é", bytesOf [104, 105]⟩, ⟨"a", bytesOf [1]⟩]
    let tool : Stamp := ⟨63, 0, 63, 0, 0x21, 0, 0⟩
    let ms : List Mixed := [⟨⟨"é", bytesOf [104, 105]⟩, .zstandard frame, tool⟩,
      ⟨⟨"a", bytesOf [1]⟩, .stored, .written ⟨2020, 2, 3, 4, 5, 6⟩⟩]
    let ms' : List Mixed := es.map fun e => ⟨e, .stored, tool⟩
    decode (Laid.archive (ms.map Mixed.laid)) (some 2) = .ok es ∧
      decode (Laid.archive (ms'.map Mixed.laid)) (some 2) =
        decode (Laid.archive (ms.map Mixed.laid)) (some 2) := by
  intro frame es tool ms ms'
  have first : Deliverable (some 2) ⟨"é", bytesOf [104, 105]⟩ :=
    ⟨by decide, by decide, by decide, by decide +kernel, by rintro l ⟨⟩; decide +kernel⟩
  have second : Deliverable (some 2) ⟨"a", bytesOf [1]⟩ :=
    ⟨by decide, by decide, by decide, by decide +kernel, by rintro l ⟨⟩; decide +kernel⟩
  have unpacked : Zstandard.Decoder.decompress frame 2 = .ok (bytesOf [104, 105]) := by
    decide +kernel
  have sound : ∀ m ∈ ms, m.Sound (some 2) := List.forall_mem_cons.mpr
    ⟨⟨first, by decide +kernel, by decide +kernel, by decide, unpacked⟩,
      List.forall_mem_singleton.mpr
        ⟨second, by decide +kernel, by decide +kernel, by decide, trivial⟩⟩
  have sound' : ∀ m ∈ ms', m.Sound (some 2) := List.forall_mem_cons.mpr
    ⟨⟨first, by decide +kernel, by decide +kernel, by decide, trivial⟩,
      List.forall_mem_singleton.mpr
        ⟨second, by decide +kernel, by decide +kernel, by decide, trivial⟩⟩
  have word : ∀ l, some 2 = some l → l < (maxWord : Int) := by rintro l ⟨⟩; decide
  have mixture : Mixture (some 2) ms := ⟨by decide, sound, word, by decide +kernel, by decide +kernel⟩
  have stored : Mixture (some 2) ms' := ⟨by decide, sound', word, by decide +kernel, by decide +kernel⟩
  obtain ⟨decoded, agree, -⟩ := mixtures_agree mixture
  exact ⟨decoded, agree ms' stored rfl⟩

end ZipContainer.Zip
