import ZipContainer.Proofs.Archive.Opening
import ZipContainer.Proofs.Contents.Lookup
import ZipContainer.Proofs.Draft.Paths
import ZipContainer.Proofs.Draft.Runs
import ZipContainer.Proofs.Zip.Locator

/-!
# From drafts to archives

What a draft accepted is what an archive shows that is opened from its destination
(`drafts_read_back`).  The paths of a draft are canonical, so readers know every entry by its own
path (`knownEntries_of_isCanonical`), and none is taken for a directory.

Two kinds of paths come in the way.  One that is too long for its field is refused when the draft
is finished, with all entries.  And an archive whose last bytes before the end record look like a
locator is written, but cannot be opened.
-/

namespace ZipContainer

/-! ### What archives show -/

namespace Archive

/-- An archive shows entries: it lists them in their order, with repetitions, and look-ups find the
first of those that they ask for. -/
structure Shows (a : Archive) (es : List Entry) : Prop where
  entries : a.contents.toList = es
  paths : a.paths = es.map Entry.path
  get? : ∀ path, a.get? path = (es.find? fun e => e.path == path).map Entry.content
  findSuffix? : ∀ suffix,
    a.findSuffix? suffix = es.find? fun e => suffix.toList.isSuffixOf e.path.toList

theorem shows_ofList (data : ByteArray) (es : List Entry) : Shows ⟨data, .ofList es⟩ es where
  entries := Contents.toList_ofList es
  paths := by rw [Archive.paths, Contents.paths, Contents.toList_ofList]
  get? path := by rw [Archive.get?, (Contents.indexed_ofList es).get?_eq, Contents.toList_ofList]
  findSuffix? suffix := by
    rw [Archive.findSuffix?, Contents.findSuffix?, Contents.toList_ofList]

/-- A file that begins like an archive opens as it decodes. -/
theorem ofFile_of_read [Zstandard.Decoder] {path : String} {data : ByteArray} {w : Workspace}
    (hread : w.files.read path = .ok data) (harchive : Zip.isArchive data = true)
    (m : Zip.WriteMethod) (limit : Option Int) :
    (ofFile path (Zip.format m limit) w).1 =
      match Zip.decode data limit with
      | .ok es => .ok ⟨data, .ofList es⟩
      | .error f => .error (reported f) := by
  rw [ofFile_run, hread]
  simp only [ofBytes_run, harchive, Bool.true_eq_false, if_false, Zip.format]
  cases Zip.decode data limit with
  | ok es => rfl
  | error f => rfl

end Archive

/-! ### Canonical names -/

namespace Zip

variable {es : List Entry}

/-- **Entries with canonical paths are known as they are.** -/
theorem knownEntries_of_isCanonical (h : ∀ e ∈ es, EntryPath.IsCanonical e.path.toList) :
    knownEntries es = es :=
  knownEntries_eq_self fun e he => ⟨EntryPath.noNul_of_isCanonical (h e he),
    decide_eq_false (EntryPath.getLast?_of_isCanonical (h e he))⟩

end Zip

namespace Draft

/-- Accepted entries have canonical paths. -/
theorem isCanonical_of_mem_accepted {ops : List Operation} {e : Entry} (he : e ∈ accepted ops) :
    EntryPath.IsCanonical e.path.toList := by
  obtain ⟨op, -, hop⟩ := List.mem_filterMap.mp he
  obtain ⟨path, content, hentry⟩ := Operation.of_entry? hop
  exact isCanonical_of_entryFor hentry

/-! ### Reading back -/

/-- Entries that a draft is meant for, and a reader with the given limit: there are no more than can
be counted, all paths have UTF-8, no content is too large, and neither is the archive. -/
structure Moderate (m : Zip.WriteMethod) (now : Moment) (limit : Option Int) (es : List Entry) :
    Prop where
  year : Moment.firstYear ≤ now.year ∧ now.year ≤ Moment.lastYear
  count : es.length ≤ Zip.maxField
  unicode : ∀ e ∈ es, e.path.IsUnicode
  contentSize : ∀ e ∈ es, e.content.size < 2 * 10 ^ 9
  limit : ∀ l, limit = some l → l < Zip.maxWord ∧ ∀ e ∈ es, (e.content.size : Int) ≤ l
  size : ∀ b, Zip.encode m now es = .ok b → b.size < 2 ^ 31 - 1

/-- Entries that can be archived, in a small archive, are moderate. -/
theorem moderate_of_archivable {m : Zip.WriteMethod} {now : Moment} {limit : Option Int}
    {es : List Entry} (h : Zip.Archivable now es) (unicode : ∀ e ∈ es, e.path.IsUnicode)
    (hlimit : ∀ l, limit = some l → l < Zip.maxWord ∧ ∀ e ∈ es, (e.content.size : Int) ≤ l)
    (hsize : (Zip.layout now (es.map (Zip.packed m))).size < 2 ^ 31 - 1) :
    Moderate m now limit es where
  year := h.year
  count := h.count
  unicode := unicode
  contentSize := h.contentSize
  limit := hlimit
  size b hb := by
    rw [Zip.encode_eq_ok h] at hb
    cases hb
    exact hsize

/-- Moderate entries with canonical names that fit can be archived. -/
theorem Moderate.archivable {m : Zip.WriteMethod} {now : Moment} {limit : Option Int}
    {es : List Entry} (h : Moderate m now limit es)
    (canonical : ∀ e ∈ es, EntryPath.IsCanonical e.path.toList)
    (names : ∀ e ∈ es, e.path.toUTF8.size ≤ Zip.maxField) : Zip.Archivable now es where
  year := h.year
  count := h.count
  unicode e he := Zip.isUnicode_cutName (h.unicode e he)
  contentSize := h.contentSize
  nameSize e he := by
    rw [Zip.cutName_of_isCanonical (canonical e he)]
    exact names e he
  named e he := Zip.cutName_ne_empty_of_isCanonical (canonical e he)

/-- **What a draft accepted is read back**, but for two kinds of names.  A draft is created, entries
are added to it in any way, whether they are accepted or refused, and it is ended in any way.  Then
it lists what it accepted.

If all names fit their field, ending the draft does not fail, and its destination holds the archive
of these entries.  Opened from there, the archive shows just them, unless the twenty bytes before
its end record begin with the signature of a locator: then it cannot be opened.

If some name does not fit its field, ending the draft fails, and its destination holds the archive
without entries. -/
theorem drafts_read_back [Zstandard.Decoder] (m' : Zip.WriteMethod) {m : Zip.WriteMethod}
    {limit₀ limit : Option Int} {path : String} {w₀ w₁ w₂ w₃ : Workspace} {d₀ d d' : Draft}
    {ops : List Operation} {last : Operation} {failure : Option Failure}
    (created : create path (Zip.format m limit₀) w₀ = (.ok d₀, w₁))
    (adding : ∀ op ∈ ops, op.isAdding = true) (added : d₀.performAll ops w₁ = (d, w₂))
    (ending : last.isAdding = false) (ended : d.perform last w₂ = ((d', failure), w₃))
    (moderate : Moderate m w₀.clock limit (accepted ops)) :
    d.contents.toList = accepted ops ∧ d'.isFinished = true ∧
    ((∀ e ∈ accepted ops, e.path.toUTF8.size ≤ Zip.maxField) →
      ∃ b, Zip.encode m w₀.clock (accepted ops) = .ok b ∧ failure = last.outcome (.ok b) ∧
        w₃.log = w₂.log ∧ w₃.files.read path = .ok b ∧
        (startsAt b (b.size - Zip.endSize - Zip.locatorSize) Zip.locatorSignature = false →
          ∃ a, (Archive.ofFile path (Zip.format m' limit) w₃).1 = .ok a ∧
            a.Shows (accepted ops) ∧ a.paths = d.contents.paths) ∧
        (startsAt b (b.size - Zip.endSize - Zip.locatorSize) Zip.locatorSignature = true →
          (Archive.ofFile path (Zip.format m' limit) w₃).1 =
            .error (.container (.directory .spansDisks)))) ∧
    ((∃ e ∈ accepted ops, Zip.maxField < e.path.toUTF8.size) →
      failure = last.outcome (.error .fieldRange : Except Failure ByteArray) ∧
        w₃.log = last.notices path (.error .fieldRange : Except Failure ByteArray) ++ w₂.log ∧
        w₃.files.read path = .ok Zip.emptyArchive) := by
  obtain ⟨contents, finished, result, encoded, hfailure, hlog, hread⟩ :=
    destination_of_run created adding added ending ended
  have canonical : ∀ e ∈ accepted ops, EntryPath.IsCanonical e.path.toList :=
    fun e he => isCanonical_of_mem_accepted he
  change Zip.encode m w₀.clock (accepted ops) = result at encoded
  refine ⟨contents, finished, fun names => ?_, fun long => ?_⟩
  · have archivable := moderate.archivable canonical names
    -- From here on the payload is the layout of the accepted entries.
    have layout := Zip.encode_eq_ok (m := m) archivable
    have size := moderate.size _ layout
    rw [layout] at encoded
    subst encoded
    rw [payload] at hread
    have archive := archivable.compact.isArchive size
    have opening := Archive.ofFile_of_read hread archive m' limit
    refine ⟨_, layout, hfailure, ?_, hread, fun noLocator => ?_, fun locator => ?_⟩
    · rw [hlog, Operation.notices_ok, List.nil_append]
    · have admits : Zip.Admits limit (accepted ops) := fun l hl =>
        ⟨(moderate.limit l hl).1, fun e he _ => (moderate.limit l hl).2 e he⟩
      rw [Zip.decode_layout archivable admits size fun _ => noLocator,
        Zip.knownEntries_of_isCanonical canonical] at opening
      have shows := Archive.shows_ofList (Zip.layout w₀.clock ((accepted ops).map (Zip.packed m)))
        (accepted ops)
      refine ⟨_, opening, shows, ?_⟩
      rw [shows.paths, Contents.paths, contents]
    · rw [Zip.decode_locator archivable size locator] at opening
      exact opening
  · obtain ⟨e, he, hlong⟩ := long
    have refused : Zip.encode m w₀.clock (accepted ops) = .error .fieldRange := by
      refine Zip.encode_long moderate.year.1
        (fun e he => Zip.isUnicode_cutName (moderate.unicode e he)) ⟨e, he, ?_⟩
      rw [Zip.cutName_of_isCanonical (canonical e he)]
      exact hlong
    rw [refused] at encoded
    subst encoded
    exact ⟨hfailure, hlog, hread⟩

open scoped Zstandard in
/-- Two entries are read back in one order.  In the other, the last twenty bytes before the end
record are the name `PK\x06\x07abcdefghijklmnop`: the archive is written, but cannot be opened. -/
theorem locator_name_lost :
    ∃ (w₀ w₁ : Workspace) (d₀ : Draft) (pk a : Operation),
      create "d" (Zip.format .stored none) w₀ = (.ok d₀, w₁) ∧
      accepted [pk, a] = [⟨"PK\x06\x07abcdefghijklmnop", bytesOf [1]⟩, ⟨"a", bytesOf [2]⟩] ∧
      (∃ d w₂ d' w₃, d₀.performAll [pk, a] w₁ = (d, w₂) ∧
        d.perform .finish w₂ = ((d', none), w₃) ∧
        ∃ archive, (Archive.ofFile "d" (Zip.format .stored none) w₃).1 = .ok archive ∧
          archive.Shows (accepted [pk, a])) ∧
      ∃ d w₂ d' w₃, d₀.performAll [a, pk] w₁ = (d, w₂) ∧
        d.perform .finish w₂ = ((d', none), w₃) ∧
        (Archive.ofFile "d" (Zip.format .stored none) w₃).1 =
          .error (.container (.directory .spansDisks)) := by
  let now : Moment := ⟨2020, 2, 3, 4, 5, 6⟩
  let w₀ : Workspace := ⟨.empty, now, #[], []⟩
  let w₁ : Workspace := ⟨FileTree.empty.set ["d"] (.file ByteArray.empty), now, #[], []⟩
  let d₀ : Draft := ⟨"d", Zip.format .stored none, some ["d"], false, .empty⟩
  let pk : Operation := .addStrict (.text "PK\x06\x07abcdefghijklmnop") (.bytes (bytesOf [1]))
  let a : Operation := .add (.text "a") (.bytes (bytesOf [2]))
  have opened : FileTree.empty.openEmpty "d" = .ok (w₁.files, ["d"]) := rfl
  have created : create "d" (Zip.format .stored none) w₀ = (.ok d₀, w₁) := by
    rw [create_eq, opened]
  have pkNormal : EntryPath.normalize "PK\x06\x07abcdefghijklmnop" =
      .ok "PK\x06\x07abcdefghijklmnop" := by decide +kernel
  have aNormal : EntryPath.normalize "a" = .ok "a" := by decide +kernel
  have pkEntry : pk.entry? = some ⟨"PK\x06\x07abcdefghijklmnop", bytesOf [1]⟩ := by
    simp only [pk, Operation.entry?, entryFor_text pkNormal]
    rfl
  have aEntry : a.entry? = some ⟨"a", bytesOf [2]⟩ := by
    simp only [a, Operation.entry?, entryFor_text aNormal]
    rfl
  have fine : accepted [pk, a] =
      [⟨"PK\x06\x07abcdefghijklmnop", bytesOf [1]⟩, ⟨"a", bytesOf [2]⟩] := by
    simp only [accepted, List.filterMap_cons, pkEntry, aEntry, List.filterMap_nil]
  have lost : accepted [a, pk] =
      [⟨"a", bytesOf [2]⟩, ⟨"PK\x06\x07abcdefghijklmnop", bytesOf [1]⟩] := by
    simp only [accepted, List.filterMap_cons, pkEntry, aEntry, List.filterMap_nil]
  refine ⟨w₀, w₁, d₀, pk, a, created, fine, ?_, ?_⟩
  · have archivable : Zip.Archivable now (accepted [pk, a]) := by
      rw [fine]
      exact ⟨by decide, by decide, by decide +kernel, by decide +kernel, by decide +kernel,
        by decide +kernel⟩
    obtain ⟨⟨d, w₂⟩, added⟩ : ∃ r, d₀.performAll [pk, a] w₁ = r := ⟨_, rfl⟩
    obtain ⟨⟨⟨d', failure⟩, w₃⟩, ended⟩ : ∃ r, d.perform .finish w₂ = r := ⟨_, rfl⟩
    have moderate : Moderate .stored now none (accepted [pk, a]) :=
      moderate_of_archivable archivable (by rw [fine]; decide +kernel) (by rintro l ⟨⟩)
        (by rw [fine]; decide +kernel)
    obtain ⟨-, -, back, -⟩ := drafts_read_back .stored created (by decide) added rfl ended moderate
    obtain ⟨b, encoded, rfl, -, -, opens, -⟩ := back (by rw [fine]; decide +kernel)
    rw [Zip.encode_eq_ok archivable, fine] at encoded
    cases encoded
    obtain ⟨archive, opening, shows, -⟩ := opens (by decide +kernel)
    exact ⟨d, w₂, d', w₃, added, ended, archive, opening, shows⟩
  · have archivable : Zip.Archivable now (accepted [a, pk]) := by
      rw [lost]
      exact ⟨by decide, by decide, by decide +kernel, by decide +kernel, by decide +kernel,
        by decide +kernel⟩
    obtain ⟨⟨d, w₂⟩, added⟩ : ∃ r, d₀.performAll [a, pk] w₁ = r := ⟨_, rfl⟩
    obtain ⟨⟨⟨d', failure⟩, w₃⟩, ended⟩ : ∃ r, d.perform .finish w₂ = r := ⟨_, rfl⟩
    have moderate : Moderate .stored now none (accepted [a, pk]) :=
      moderate_of_archivable archivable (by rw [lost]; decide +kernel) (by rintro l ⟨⟩)
        (by rw [lost]; decide +kernel)
    obtain ⟨-, -, back, -⟩ := drafts_read_back .stored created (by decide) added rfl ended moderate
    obtain ⟨b, encoded, rfl, -, -, -, fails⟩ := back (by rw [lost]; decide +kernel)
    rw [Zip.encode_eq_ok archivable, lost] at encoded
    cases encoded
    exact ⟨d, w₂, d', w₃, added, ended, fails (by decide +kernel)⟩

end Draft

end ZipContainer
