import ZipContainer.Proofs.Draft.Fidelity
import ZipContainer.Proofs.Package.Writing
import ZipContainer.Proofs.Zip.Recoding
import ZipContainer.Proofs.Zip.Refusals

/-!
# Packages that are read back

An archive as it is laid out opens only with the entries that it was laid out from: what else could
come in the way of a reader, a locator before the end record or a content beyond the limit, keeps
it from opening at all (`decode_layout_eq_known`).

So a package that was written whole, and that opens, shows its main document first and the resources
behind it, under their canonical paths.  Look-ups find the first entry with a path, and the main
document comes before all others, whatever these are called (`package_reads_back`).
-/

namespace ZipContainer

namespace Zip

variable {m : WriteMethod} {now : Moment} {es es' : List Entry} {data : ByteArray} {offset : Nat}
  {limit : Option Int} [Zstandard.Decoder]

/-- Files that are read have sizes that the limit admits. -/
theorem Laid.withinLimit_of_readEntries {ls : List Laid}
    (h : readEntries data limit (membersFrom ls offset) = .ok es) :
    ∀ l ∈ ls, isDirectoryName (cutName l.text) = false → withinLimit limit l.size = true := by
  induction ls generalizing offset es with
  | nil => nofun
  | cons l ls ih =>
      rw [membersFrom, readEntries_cons_eq_ok_iff] at h
      obtain ⟨e?, rest, first, others, -⟩ := h
      refine List.forall_mem_cons.mpr ⟨fun file => ?_, ih others⟩
      rcases (entryOf_eq_ok_iff.mp first).2 with ⟨directory, -⟩ | ⟨-, _, -, -, read⟩
      · rw [Laid.isDirectory_record, file] at directory
        cases directory
      · exact readMember_within read

/-- **An archive as it is laid out decodes to its entries**, if it decodes. -/
theorem decode_layout_eq_known (archivable : Archivable now es)
    (size : (layout now (es.map (packed m))).size < 2 ^ 31 - 1)
    (word : ∀ l, limit = some l → l < maxWord)
    (decoded : decode (layout now (es.map (packed m))) limit = .ok es') :
    es' = knownEntries es := by
  cases locator : startsAt (layout now (es.map (packed m)))
      ((layout now (es.map (packed m))).size - endSize - locatorSize) locatorSignature with
  | true =>
      rw [decode_locator archivable size locator] at decoded
      cases decoded
  | false =>
      have plain := archivable.compact.plain size fun _ _ => locator
      have read := decoded
      rw [decode, plain.isArchive, readDirectory_layout plain] at read
      -- Since all files were read, the limit admits them, and nothing else was in the way.
      have within := Laid.withinLimit_of_readEntries read
      have admits : Admits limit es := fun l hl => ⟨word l hl, fun e he file => by
        have listed : (packed m e).laid now ∈ laidOut now (es.map (packed m)) :=
          List.mem_map_of_mem (List.mem_map_of_mem he)
        have text : ((packed m e).laid now).text = cutName e.path :=
          text_packed (archivable.unicode e he)
        have admitted : withinLimit limit e.content.size = true :=
          within _ listed (by rw [text, cutName_cutName, file])
        simpa [withinLimit, hl] using admitted⟩
      rw [decode_layout archivable admits size fun _ => locator] at decoded
      exact (Except.ok.inj decoded).symm

end Zip

/-- An archive as it is laid out opens where nothing comes in the way of a reader. -/
theorem Archive.ofFile_layout [Zstandard.Decoder] {m : Zip.WriteMethod} {now : Moment} {es : List Entry}
    {limit : Option Int} {path : String} {w : Workspace} (archivable : Zip.Archivable now es)
    (admits : Zip.Admits limit es)
    (size : (Zip.layout now (es.map (Zip.packed m))).size < 2 ^ 31 - 1)
    (noLocator : es ≠ [] → startsAt (Zip.layout now (es.map (Zip.packed m)))
      ((Zip.layout now (es.map (Zip.packed m))).size - Zip.endSize - Zip.locatorSize)
      Zip.locatorSignature = false)
    (read : w.files.read path = .ok (Zip.layout now (es.map (Zip.packed m))))
    (m' : Zip.WriteMethod) :
    (ofFile path (Zip.format m' limit) w).1 =
      .ok ⟨Zip.layout now (es.map (Zip.packed m)), .ofList (Zip.knownEntries es)⟩ := by
  have archive := archivable.compact.isArchive size
  rw [ofFile_of_read read archive, Zip.decode_layout archivable admits size noLocator]

/-- **An archive as it is laid out shows its entries**, if it opens. -/
theorem Archive.shows_of_opened [Zstandard.Decoder] {m m' : Zip.WriteMethod} {now : Moment}
    {es : List Entry} {limit : Option Int} {path : String} {w : Workspace} {a : Archive}
    (archivable : Zip.Archivable now es)
    (size : (Zip.layout now (es.map (Zip.packed m))).size < 2 ^ 31 - 1)
    (word : ∀ l, limit = some l → l < Zip.maxWord)
    (read : w.files.read path = .ok (Zip.layout now (es.map (Zip.packed m))))
    (opened : (ofFile path (Zip.format m' limit) w).1 = .ok a) :
    a.Shows (Zip.knownEntries es) := by
  have archive := archivable.compact.isArchive size
  rw [ofFile_of_read read archive] at opened
  cases decoded : Zip.decode (Zip.layout now (es.map (Zip.packed m))) limit with
  | error f =>
      rw [decoded] at opened
      cases opened
  | ok es' =>
      obtain rfl := Zip.decode_layout_eq_known archivable size word decoded
      rw [decoded] at opened
      cases opened
      exact shows_ofList _ _

namespace Draft.Takes

variable {items : List Item} {es : List Entry} {refusal : Option Failure}

/-- What is taken comes from the items. -/
theorem exists_item (h : Takes items es refusal) :
    ∀ e ∈ es, ∃ item ∈ items, entryFor item.1 item.2 = .ok e := by
  induction h with
  | stops => nofun
  | takes stored _ ih =>
      refine List.forall_mem_cons.mpr ⟨⟨_, List.mem_cons_self, stored⟩, fun e he => ?_⟩
      obtain ⟨item, listed, stored'⟩ := ih e he
      exact ⟨item, List.mem_cons_of_mem _ listed, stored'⟩

/-- What is taken is stored under canonical paths. -/
theorem isCanonical (h : Takes items es refusal) :
    ∀ e ∈ es, EntryPath.IsCanonical e.path.toList := fun e he => by
  obtain ⟨item, -, stored⟩ := h.exists_item e he
  exact isCanonical_of_entryFor stored

end Draft.Takes

namespace Package

open Draft

variable {path : String} {document : Content} {resources : List Item} {format : Format}
  {w w₁ : Workspace} {a : Archive} {compressor compressor' : Deflate.Compressor}

/-- **A package that was written without failure was written whole**: every item was taken, and the
destination holds what the format made of them. -/
theorem write_eq_ok (written : write path document resources format w = (.ok (), w₁)) :
    ∃ es b, Takes ((.text documentPath, document) :: resources) es none ∧
      format.encode w.clock es = .ok b ∧ w₁.files.read path = .ok b := by
  cases openable : w.files.openEmpty path with
  | error f =>
      rw [write, Action.bind_run, create_eq, openable] at written
      cases written
  | ok opened =>
      obtain ⟨files, place⟩ := opened
      obtain ⟨es, refusal, taken⟩ := exists_takes ((.text documentPath, document) :: resources)
      rw [write_of_takes format openable taken, Prod.mk.injEq] at written
      obtain ⟨ended, rfl⟩ := written
      have holds := FileTree.read_of_holds (FileTree.overwrite_holds
        (FileTree.openEmpty_holds openable) (payload (format.encode w.clock es)))
      cases encoded : format.encode w.clock es with
      | error f =>
          rw [encoded] at ended
          cases ended
      | ok b =>
          rw [encoded] at ended holds
          cases refusal with
          | some f => cases ended
          | none => exact ⟨es, b, taken, encoded, holds⟩

/-- A package of which every item is taken is written, if the format can encode it. -/
theorem write_of_encoded {files : FileTree} {place : Place} {es : List Entry} {b : ByteArray}
    (openable : w.files.openEmpty path = .ok (files, place))
    (taken : Takes ((.text documentPath, document) :: resources) es none)
    (encoded : format.encode w.clock es = .ok b) :
    ∃ w₁, write path document resources format w = (.ok (), w₁) ∧
      w₁.files.read path = .ok b := by
  have written := write_of_takes format openable taken
  rw [encoded] at written
  exact ⟨_, written,
    FileTree.read_of_holds (FileTree.overwrite_holds (FileTree.openEmpty_holds openable) b)⟩

/-- **A package that opens is the one that was written.**  A main document and resources are written
with the usual format, whatever compressor it packs with, without failure and in moderate size, and
the archive is opened from the destination.  Then it lists the path of the main document and the
canonical forms of the paths of the resources, in order.  The main document is found, as bytes,
whatever paths the resources have; and a look-up finds the main document under its path, and under
any other the first resource with that canonical form. -/
theorem package_reads_back [Zstandard.Decoder]
    (written : write path document resources (.default compressor) w = (.ok (), w₁))
    (opened : (Archive.ofFile path (.default compressor') w₁).1 = .ok a)
    (count : resources.length + 1 ≤ Zip.maxField)
    (contentSize : ∀ item ∈ (.text documentPath, document) :: resources,
      ∀ b, bytesOfContent item.2 = .ok b → b.size < 2 * 10 ^ 9)
    (archiveSize : ∀ b, w₁.files.read path = .ok b → b.size < 2 ^ 31 - 1) :
    ∃ main es, bytesOfContent document = .ok main ∧
      List.Forall₂ (fun item e => item.1.normalize = .ok e.path ∧
        bytesOfContent item.2 = .ok e.content) resources es ∧
      a.paths = documentPath :: es.map Entry.path ∧ document? a = some main ∧
      ∀ q, a.get? q =
        if q = documentPath then some main
        else (es.find? fun e => e.path == q).map Entry.content := by
  obtain ⟨all, b, taken, encoded, read⟩ := write_eq_ok written
  have items := taken.forall₂
  have small := archiveSize b read
  have canonical := taken.isCanonical
  have count' : all.length ≤ Zip.maxField := by
    rw [← items.length_eq]
    exact count
  have contentSize' : ∀ e ∈ all, e.content.size < 2 * 10 ^ 9 := fun e he => by
    obtain ⟨item, listed, stored⟩ := taken.exists_item e he
    exact contentSize item listed _ (entryFor_eq_ok stored).2
  have nonempty : all ≠ [] := by
    rintro rfl
    cases items
  have archivable := Zip.archivable_of_encode encoded nonempty
    (fun e he => Zip.cutName_ne_empty_of_isCanonical (canonical e he)) count' contentSize'
  obtain rfl := (Zip.encode_eq_ok_iff.mp encoded).2
  have shows := Archive.shows_of_opened archivable small (by rintro l ⟨⟩; decide) read opened
  rw [Zip.knownEntries_of_isCanonical canonical] at shows
  cases items with
  | @cons _ first _ es stored others =>
      obtain ⟨normal, main⟩ := entryFor_eq_ok stored
      have path : documentPath = first.path := Except.ok.inj normal
      -- The main document is the first entry, so every look-up of its path ends there.
      have look (q : Text) : a.get? q =
          if q = documentPath then some first.content
          else (es.find? fun e => e.path == q).map Entry.content := by
        rw [shows.get?, List.find?_cons, ← path]
        by_cases hq : q = documentPath
        · rw [hq, beq_self_eq_true, if_pos rfl]
          rfl
        · have other : (documentPath == q) = false := by simpa using Ne.symm hq
          rw [other, if_neg hq]
      refine ⟨first.content, es, main, others.imp fun _ _ h => entryFor_eq_ok h, ?_, ?_, look⟩
      · rw [shows.paths, List.map_cons, path]
      · rw [document?, look, if_pos rfl]

open scoped Zstandard in
/-- A resource `./doc.kml` is listed, but look-ups find the main document; of two resources with one
canonical form they find the first. -/
theorem main_document_not_shadowed :
    ∃ (w w₁ : Workspace) (a : Archive),
      write "p" (.text "m") [(.text "./doc.kml", .bytes (bytesOf [1])), (.text "x/../b", .text "2"),
        (.text "b", .bytes (bytesOf [3]))] (.default Deflate.compressor) w = (.ok (), w₁) ∧
      (Archive.ofFile "p" (.default Deflate.compressor) w₁).1 = .ok a ∧
      a.paths = ["doc.kml", "doc.kml", "b", "b"] ∧ document? a = some (bytesOf [109]) ∧
      a.get? "b" = some (bytesOf [50]) := by
  let now : Moment := ⟨2020, 2, 3, 4, 5, 6⟩
  let w : Workspace := ⟨.empty, now, #[], []⟩
  let resources : List Item := [(.text "./doc.kml", .bytes (bytesOf [1])),
    (.text "x/../b", .text "2"), (.text "b", .bytes (bytesOf [3]))]
  let es : List Entry := [⟨"doc.kml", bytesOf [109]⟩, ⟨"doc.kml", bytesOf [1]⟩,
    ⟨"b", bytesOf [50]⟩, ⟨"b", bytesOf [3]⟩]
  have taken : Takes ((.text documentPath, .text "m") :: resources) es none :=
    .takes rfl (.takes rfl (.takes rfl (.takes rfl (.stops .nowhere))))
  have archivable : Zip.Archivable now es := ⟨by decide, by decide, by decide +kernel,
    by decide +kernel, by decide +kernel, by decide +kernel⟩
  have admits : Zip.Admits (some Zip.defaultLimit) es := by
    rintro l ⟨⟩
    exact ⟨by decide, by decide +kernel⟩
  let data := Zip.layout now (es.map (Zip.packed (.default Deflate.compressor)))
  have small : data.size < 2 ^ 31 - 1 := by decide +kernel
  have encoded : (Format.default Deflate.compressor).encode now es = .ok data :=
    Zip.encode_eq_ok archivable
  have openable : FileTree.empty.openEmpty "p" =
      .ok (FileTree.empty.set ["p"] (.file ByteArray.empty), ["p"]) := rfl
  obtain ⟨w₁, written, read⟩ := write_of_encoded (w := w) openable taken encoded
  have opened := Archive.ofFile_layout archivable admits small (fun _ => by decide +kernel) read
    (.default Deflate.compressor)
  have contentSize : ∀ item ∈ (EntryPath.Argument.text documentPath, Content.text "m") :: resources,
      ∀ b, bytesOfContent item.2 = .ok b → b.size < 2 * 10 ^ 9 := by
    simp only [resources, List.forall_mem_cons, List.not_mem_nil, false_implies, implies_true,
      and_true]
    refine ⟨?_, ?_, ?_, ?_⟩ <;> rintro b ⟨⟩ <;> decide +kernel
  have archiveSize : ∀ b, w₁.files.read "p" = .ok b → b.size < 2 ^ 31 - 1 := by
    rw [read]
    rintro b ⟨⟩
    exact small
  obtain ⟨main, es', hmain, stored, paths, document, look⟩ :=
    package_reads_back written opened (by decide) contentSize archiveSize
  cases hmain
  simp only [resources, List.forall₂_cons_left_iff, List.forall₂_nil_left_iff] at stored
  obtain ⟨e₁, _, ⟨path₁, -⟩, ⟨e₂, _, ⟨path₂, content₂⟩, ⟨e₃, _, ⟨path₃, -⟩, rfl, rfl⟩, rfl⟩, rfl⟩ :=
    stored
  have path₁ : "doc.kml" = e₁.path := Except.ok.inj path₁
  have path₂ : "b" = e₂.path := Except.ok.inj path₂
  have path₃ : "b" = e₃.path := Except.ok.inj path₃
  have content₂ : bytesOf [50] = e₂.content := Except.ok.inj content₂
  refine ⟨w, w₁, _, written, opened, ?_, document, ?_⟩
  · rw [paths, List.map_cons, List.map_cons, List.map_cons, ← path₁, ← path₂, ← path₃]
    rfl
  · rw [look, if_neg (by decide), List.find?_cons, List.find?_cons, ← path₁, ← path₂, content₂]
    rfl

end Package

end ZipContainer
