import Mathlib.Data.List.Forall2
import ZipContainer.Package
import ZipContainer.Proofs.Draft.LifeCycle
import ZipContainer.Proofs.EntryPath.Canonical

/-!
# What is left of a package that cannot be written whole

Items are added to a draft in order until one is refused (`Draft.StopsAt`), and what was taken
before it is the archive (`Draft.Takes`).  How far items are taken depends on nothing but the items
(`Takes.unique`), and every draft that takes entries takes them so far (`addAll_of_takes`).

Writing a package is one such run between opening the destination and leaving the draft, so all it
does is known from the items and from what the format makes of the entries (`write_of_takes`).
`write_ends_cleanly` says what is left at the destination, which failure is reported, and what the
format was called with.
-/

namespace ZipContainer

namespace Draft

/-- What adding to a draft that takes entries is tried with: a path and a content. -/
abbrev Item := EntryPath.Argument × Content

/-- Adding items in order stops before the first of these, or there is none; the failure is how
the draft refuses that one.  A path is looked at before the content; a content is refused if it is a
text without UTF-8, a view that has been released, or neither a text nor bytes. -/
inductive StopsAt : List Item → Option Failure → Prop where
  | nowhere : StopsAt [] none
  | path {path : EntryPath.Argument} {content : Content} {rest : List Item}
      {fault : EntryPath.Fault} (refused : path.normalize = .error fault) :
      StopsAt ((path, content) :: rest) (some (.path fault))
  | text {path : EntryPath.Argument} {name t : Text} {fault : Text.Loose} {rest : List Item}
      (accepted : path.normalize = .ok name) (surrogates : t.loose? = some fault) :
      StopsAt ((path, .text t) :: rest) (some (.loose fault))
  | released {path : EntryPath.Argument} {name : Text} {rest : List Item}
      (accepted : path.normalize = .ok name) :
      StopsAt ((path, .released) :: rest) (some .released)
  | content {path : EntryPath.Argument} {name : Text} {typeName : String} {rest : List Item}
      (accepted : path.normalize = .ok name) :
      StopsAt ((path, .other typeName) :: rest) (some (.content (.wrongType typeName)))

/-- How far items are taken when they are added in order: the entries of those before the first
that is refused, and its refusal if there is one. -/
inductive Takes : List Item → List Entry → Option Failure → Prop where
  | stops {rest : List Item} {refusal : Option Failure} (stopped : StopsAt rest refusal) :
      Takes rest [] refusal
  | takes {path : EntryPath.Argument} {content : Content} {e : Entry} {rest : List Item}
      {es : List Entry} {refusal : Option Failure} (stored : entryFor path content = .ok e)
      (further : Takes rest es refusal) : Takes ((path, content) :: rest) (e :: es) refusal

variable {path : EntryPath.Argument} {content : Content} {items rest : List Item} {es : List Entry}
  {refusal : Option Failure} {f : Failure} {d : Draft}

/-- An entry is refused for its path, or for its content alone. -/
theorem stopsAt_of_entryFor (h : entryFor path content = .error f) (rest : List Item) :
    StopsAt ((path, content) :: rest) (some f) := by
  unfold entryFor at h
  cases hp : path.normalize with
  | error fault =>
      rw [hp] at h
      cases h
      exact .path hp
  | ok name =>
      rw [hp] at h
      cases content with
      | bytes b => cases h
      | text t =>
          simp only [bytesOfContent, Text.encode] at h
          cases surrogates : t.loose? with
          | none => rw [surrogates] at h; cases h
          | some fault =>
              rw [surrogates] at h
              cases h
              exact .text hp surrogates
      | released =>
          cases h
          exact .released hp
      | other typeName =>
          cases h
          exact .content hp

theorem StopsAt.entryFor (h : StopsAt ((path, content) :: rest) refusal) :
    ∃ f, refusal = some f ∧ Draft.entryFor path content = .error f := by
  cases h with
  | path refused => exact ⟨_, rfl, by rw [Draft.entryFor, refused]; rfl⟩
  | text accepted surrogates =>
      refine ⟨_, rfl, ?_⟩
      rw [Draft.entryFor, accepted, bytesOfContent, Text.encode, surrogates]
      rfl
  | released accepted | content accepted => exact ⟨_, rfl, by rw [Draft.entryFor, accepted]; rfl⟩

theorem exists_takes (items : List Item) : ∃ es refusal, Takes items es refusal := by
  induction items with
  | nil => exact ⟨[], none, .stops .nowhere⟩
  | cons item rest ih =>
      obtain ⟨path, content⟩ := item
      cases h : entryFor path content with
      | error f => exact ⟨[], some f, .stops (stopsAt_of_entryFor h rest)⟩
      | ok e =>
          obtain ⟨es, refusal, further⟩ := ih
          exact ⟨e :: es, refusal, .takes h further⟩

namespace Takes

/-- **How far items are taken depends on the items alone.** -/
theorem unique {es' : List Entry} {refusal' : Option Failure} (h : Takes items es refusal)
    (h' : Takes items es' refusal') : es = es' ∧ refusal = refusal' := by
  -- Both look at the same first item, which is stored in both or refused in both.
  induction h generalizing es' with
  | @stops rest _ stopped =>
      cases h' with
      | stops stopped' =>
          cases rest with
          | nil => cases stopped; cases stopped'; exact ⟨rfl, rfl⟩
          | cons item rest =>
              obtain ⟨f, rfl, hf⟩ := stopped.entryFor
              obtain ⟨f', rfl, hf'⟩ := stopped'.entryFor
              rw [hf, Except.error.injEq] at hf'
              exact ⟨rfl, congrArg some hf'⟩
      | takes stored' _ =>
          obtain ⟨f, -, hf⟩ := stopped.entryFor
          rw [hf] at stored'
          cases stored'
  | takes stored further ih =>
      cases h' with
      | stops stopped' =>
          obtain ⟨f, -, hf⟩ := stopped'.entryFor
          rw [hf] at stored
          cases stored
      | takes stored' further' =>
          rw [stored, Except.ok.injEq] at stored'
          obtain ⟨rfl, rfl⟩ := ih further'
          exact ⟨by rw [stored'], rfl⟩

/-- Where none is refused, every item is stored. -/
theorem forall₂ (h : Takes items es none) :
    List.Forall₂ (fun item e => entryFor item.1 item.2 = .ok e) items es := by
  generalize hr : (none : Option Failure) = refusal at h
  induction h with
  | stops stopped =>
      cases stopped with
      | nowhere => exact .nil
      | path | text | released | content => cases hr
  | takes stored _ ih => exact .cons stored (ih hr)

end Takes

/-- **A draft that takes entries takes items as far as they are taken.** -/
theorem addAll_of_takes (h : Takes items es refusal) (hopen : d.takesEntries = true) :
    d.addAll items = (d.appendAll es, refusal) := by
  induction h generalizing d with
  | @stops rest _ stopped =>
      cases rest with
      | nil => cases stopped; rfl
      | cons item rest =>
          obtain ⟨f, rfl, hf⟩ := stopped.entryFor
          rw [addAll, addStrict_eq, hopen, hf]
          rfl
  | takes stored _ ih =>
      rw [addAll, addStrict_eq, hopen, stored]
      exact ih hopen

end Draft

namespace Package

open Draft

variable {path : String} {document : Content} {resources : List Item} {format : Format}
  {w : Workspace} {files : FileTree} {place : Place} {es : List Entry} {refusal : Option Failure}

/-- How writing a package ends, for the refusal that it stopped at and the result of encoding. -/
def ending (refusal : Option Failure) : Except Failure ByteArray → Except Failure Unit
  | .error f => .error f
  | .ok _ =>
    match refusal with
    | some f => .error f
    | none => .ok ()

/-- **All that writing a package does** where the destination can be opened. -/
theorem write_of_takes (format : Format) (openable : w.files.openEmpty path = .ok (files, place))
    (h : Takes ((.text documentPath, document) :: resources) es refusal) :
    write path document resources format w =
      (ending refusal (format.encode w.clock es),
        { w.count format fun c => { c with encoded := es :: c.encoded } with
          files := files.overwrite place (payload (format.encode w.clock es)) }) := by
  let d : Draft := ⟨path, format, some place, false, .empty⟩
  have contents : (d.appendAll es).contents.toList = es := contents_appendAll rfl es
  have left : (d.appendAll es).leave refusal { w with files := files } =
      (((d.appendAll es).closed, (Operation.leave refusal).outcome (format.encode w.clock es)),
        { w.count format fun c => { c with encoded := es :: c.encoded } with
          files := files.overwrite place (payload (format.encode w.clock es)) }) := by
    have ended : (d.appendAll es).perform (.leave refusal) { w with files := files } = _ :=
      perform_ending rfl rfl rfl { w with files := files }
    rw [contents, Workspace.count_files] at ended
    simp only [Workspace.log_count]
    exact ended
  rw [write, Action.bind_run, create_eq, openable]
  dsimp only
  rw [addAll_of_takes h rfl]
  dsimp only
  rw [Action.bind_run, Action.lift_run, left]
  -- What leaving the draft reports is thrown, if it is a failure.
  cases format.encode w.clock es with
  | error f => rfl
  | ok b => cases refusal <;> rfl

/-- **Writing a package ends cleanly.**  Where the destination can be opened, the main document and
then the resources are taken in order, up to the first that is refused, for its path or for its
content.  The format is called once, to encode what was taken.  If it succeeds, the destination
holds what it encoded, and writing ends in the refusal, if there is one; if it fails, the
destination holds the archive without entries, and writing ends in the failure of the format,
refusal or not. -/
theorem write_ends_cleanly (document : Content) (resources : List Item) (format : Format)
    (openable : w.files.openEmpty path = .ok (files, place)) :
    ∃ es refusal ended w', Takes ((.text documentPath, document) :: resources) es refusal ∧
      write path document resources format w = (ended, w') ∧
      (∀ b, format.encode w.clock es = .ok b →
        (match refusal with
          | some f => ended = .error f
          | none => ended = .ok ()) ∧
        w'.files.read path = .ok b) ∧
      (∀ f, format.encode w.clock es = .error f →
        ended = .error f ∧ w'.files.read path = .ok Zip.emptyArchive) ∧
      (∀ n c, format.counter = some n → w.calls[n]? = some c →
        w'.calls[n]? = some { c with encoded := es :: c.encoded }) ∧
      w'.clock = w.clock ∧ w'.log = w.log := by
  obtain ⟨es, refusal, taken⟩ := exists_takes ((.text documentPath, document) :: resources)
  have holds := FileTree.read_of_holds (FileTree.overwrite_holds (FileTree.openEmpty_holds openable)
    (payload (format.encode w.clock es)))
  refine ⟨es, refusal, _, _, taken, write_of_takes format openable taken, fun b encoded => ?_,
    fun f encoded => ?_, fun n c hn hc => ?_, w.clock_count _ _, w.log_count _ _⟩
  · rw [encoded] at holds ⊢
    refine ⟨?_, holds⟩
    cases refusal <;> rfl
  · rw [encoded] at holds ⊢
    exact ⟨rfl, holds⟩
  · exact (calls_count hn w _).trans (by rw [hc]; rfl)

/-- The second of three resources leaves the archive, so only the document and the first are
encoded.  If that succeeds, writing ends in the refusal of the resource, and if it fails, in the
failure of the format. -/
theorem escaping_resource_ends_package :
    ∃ resources taken, Takes ((.text documentPath, .bytes (bytesOf [0])) :: resources) taken
        (some (.path (.escapes "b/../../c"))) ∧
      resources.length = 3 ∧ taken = [⟨"doc.kml", bytesOf [0]⟩, ⟨"b", bytesOf [49]⟩] ∧
      ∀ encoded, ∃ ended w',
        write "p" (.bytes (bytesOf [0])) resources (.scripted (.ok []) encoded (some 0))
          ⟨.empty, ⟨2020, 2, 3, 4, 5, 6⟩, #[⟨0, []⟩], []⟩ = (ended, w') ∧
        w'.calls[0]? = some ⟨0, [taken]⟩ ∧
        match encoded with
        | .ok b => ended = .error (.path (.escapes "b/../../c")) ∧ w'.files.read "p" = .ok b
        | .error f => ended = .error f ∧ w'.files.read "p" = .ok Zip.emptyArchive := by
  let w : Workspace := ⟨.empty, ⟨2020, 2, 3, 4, 5, 6⟩, #[⟨0, []⟩], []⟩
  let resources : List Item := [(.text "./b", .text "1"), (.text "b/../../c", .other "int"),
    (.text "d", .bytes (bytesOf [2]))]
  have document : entryFor (.text documentPath) (.bytes (bytesOf [0])) =
      .ok ⟨"doc.kml", bytesOf [0]⟩ := entryFor_text rfl _
  have first : entryFor (.text "./b") (.text "1") = .ok ⟨"b", bytesOf [49]⟩ := rfl
  have second : (EntryPath.Argument.text "b/../../c").normalize =
      .error (.escapes "b/../../c") := rfl
  have taken : Takes ((.text documentPath, .bytes (bytesOf [0])) :: resources) _ _ :=
    .takes document (.takes first (.stops (.path second)))
  refine ⟨resources, _, taken, rfl, rfl, fun encoded => ?_⟩
  have opened : FileTree.empty.openEmpty "p" =
      .ok (FileTree.empty.set ["p"] (.file ByteArray.empty), ["p"]) := rfl
  obtain ⟨es, refusal, ended, w', taken', wrote, encodes, fails, calls, -, -⟩ :=
    write_ends_cleanly (w := w) (.bytes (bytesOf [0])) resources
      (.scripted (.ok []) encoded (some 0)) opened
  obtain ⟨rfl, rfl⟩ := taken.unique taken'
  refine ⟨ended, w', wrote, calls 0 _ rfl rfl, ?_⟩
  cases encoded with
  | ok b => exact encodes b rfl
  | error f => exact fails f rfl

/-- A resource with an accepted path, whose content is a text, is refused all the same where the
text holds half a character.  Only the document is encoded, and writing ends in a failure that is about
neither a path nor the type of a content. -/
theorem half_character_ends_package :
    let resources : List Item := [(.text "b", .text ⟨[⟨0xD800⟩]⟩)]
    (∀ item ∈ (.text documentPath, .bytes (bytesOf [0])) :: resources,
      (∃ name, item.1.normalize = .ok name) ∧ ∀ typeName, item.2 ≠ .other typeName) ∧
    ∃ w', write "p" (.bytes (bytesOf [0])) resources
          (.scripted (.ok []) (.ok (bytesOf [1])) (some 0))
          ⟨.empty, ⟨2020, 2, 3, 4, 5, 6⟩, #[⟨0, []⟩], []⟩ =
        (.error (.loose ⟨0, 1, ⟨0xD800⟩⟩), w') ∧
      w'.calls[0]? = some ⟨0, [[⟨"doc.kml", bytesOf [0]⟩]]⟩ ∧
      w'.files.read "p" = .ok (bytesOf [1]) := by
  intro resources
  have opened : FileTree.empty.openEmpty "p" =
      .ok (FileTree.empty.set ["p"] (.file ByteArray.empty), ["p"]) := rfl
  have document : entryFor (.text documentPath) (.bytes (bytesOf [0])) =
      .ok ⟨"doc.kml", bytesOf [0]⟩ := entryFor_text rfl _
  have accepted : (EntryPath.Argument.text "b").normalize = .ok "b" := rfl
  have refused : StopsAt resources (some (.loose ⟨0, 1, ⟨0xD800⟩⟩)) := .text accepted rfl
  have wrote := write_of_takes (w := ⟨.empty, ⟨2020, 2, 3, 4, 5, 6⟩, #[⟨0, []⟩], []⟩)
    (.scripted (.ok []) (.ok (bytesOf [1])) (some 0)) opened (.takes document (.stops refused))
  refine ⟨List.forall_mem_cons.mpr ⟨⟨⟨_, rfl⟩, nofun⟩, List.forall_mem_singleton.mpr
    ⟨⟨_, accepted⟩, nofun⟩⟩, _, wrote, rfl, ?_⟩
  exact FileTree.read_of_holds (FileTree.overwrite_holds (FileTree.openEmpty_holds opened) _)

end Package

end ZipContainer
