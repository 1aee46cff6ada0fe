import ZipContainer.Draft
import ZipContainer.Proofs.Workspace.Actions

/-!
# The life of a draft

What can be done with a draft, one operation at a time (`Draft.perform`), and which drafts can
come about (`Draft.Reachable`).  The workspace may be any at every operation: whatever happens
elsewhere between two operations on a draft is allowed for.

Each operation has one lemma that says all it does.

* `addStrict_eq`: adding stores the bytes of the content under the canonical form of the path, if
  the draft is open and both exist, and otherwise leaves the draft as it is.
* `finish_eq`: finishing writes what the format makes of the entries, or the smallest archive.

From them, `contents_perform`: an operation keeps the entries, or appends one.
-/

namespace ZipContainer

namespace Draft

/-! ### Creating -/

theorem create_eq (path : String) (format : Format) (w : Workspace) :
    create path format w =
      match w.files.openEmpty path with
      | .error f => (.error f, w)
      | .ok (files, place) =>
        (.ok ⟨path, format, some place, false, .empty⟩, { w with files := files }) := by
  rw [create, Action.bind_run, Action.get_run]
  dsimp only
  cases w.files.openEmpty path with
  | error f => rfl
  | ok p => rfl

/-- All that creating a draft does when it succeeds. -/
theorem create_eq_ok {path : String} {format : Format} {w w' : Workspace} {d : Draft}
    (h : create path format w = (.ok d, w')) :
    ∃ files place, w.files.openEmpty path = .ok (files, place) ∧
      d = ⟨path, format, some place, false, .empty⟩ ∧ w' = { w with files := files } := by
  rw [create_eq] at h
  split at h
  · cases h
  · next files place ho =>
      cases h
      exact ⟨files, place, ho, rfl, rfl⟩

/-! ### Adding -/

/-- The entry that a path and a content are stored as, or why they are refused. -/
def entryFor (path : EntryPath.Argument) (content : Content) : Except Failure Entry := do
  let name ← path.normalize.mapError .path
  let bytes ← bytesOfContent content
  return ⟨name, bytes⟩

theorem entryFor_text {p q : Text} (h : EntryPath.normalize p = .ok q) (b : ByteArray) :
    entryFor (.text p) (.bytes b) = .ok ⟨q, b⟩ := by
  simp only [entryFor, EntryPath.Argument.normalize, h]
  rfl

/-- The draft takes entries. -/
def takesEntries (d : Draft) : Bool := !d.isFinished && d.destination.isSome

theorem takesEntries_iff {d : Draft} :
    d.takesEntries = true ↔ ∃ place, d.isFinished = false ∧ d.destination = some place := by
  rw [takesEntries, Bool.and_eq_true, Bool.not_eq_true', Option.isSome_iff_exists, exists_and_left]

theorem addStrict_eq (d : Draft) (path : EntryPath.Argument) (content : Content) :
    d.addStrict path content =
      if d.takesEntries then
        (entryFor path content).map fun e => (e, { d with contents := d.contents.append e })
      else .error (.operation .finished) := by
  unfold addStrict entryFor takesEntries
  cases hf : d.isFinished <;> cases hd : d.destination
  case false.some place =>
    cases path.normalize with
    | error f => rfl
    | ok name => cases bytesOfContent content <;> rfl
  all_goals rfl

theorem entryFor_eq_ok {path : EntryPath.Argument} {content : Content} {e : Entry}
    (h : entryFor path content = .ok e) :
    path.normalize = .ok e.path ∧ bytesOfContent content = .ok e.content := by
  unfold entryFor at h
  cases hp : path.normalize with
  | error f => rw [hp] at h; cases h
  | ok name =>
      cases hc : bytesOfContent content with
      | error f => rw [hp, hc] at h; cases h
      | ok bytes => rw [hp, hc] at h; cases h; exact ⟨rfl, rfl⟩

theorem add_eq (d : Draft) (path : EntryPath.Argument) (content : Content) (w : Workspace) :
    d.add path content w =
      match d.addStrict path content with
      | .ok (_, d') => (.ok (true, d'), w)
      | .error f =>
        if isRejection f then (.ok (false, d), { w with log := .rejected path f :: w.log })
        else (.error f, w) := by
  unfold add
  cases d.addStrict path content with
  | ok p => rfl
  | error f =>
      dsimp only
      split <;> rfl

/-! ### Finishing -/

/-- What finishing writes: what the format encoded, or the smallest archive. -/
def payload : Except Failure ByteArray → ByteArray
  | .ok b => b
  | .error _ => Zip.emptyArchive

theorem finish_eq (d : Draft) (w : Workspace) :
    d.finish w =
      match d.isFinished, d.destination with
      | false, some place =>
        let result := d.format.encode w.clock d.contents.toList
        let counted := w.count d.format fun c =>
          { c with encoded := d.contents.toList :: c.encoded }
        (({ d with isFinished := true, destination := none }, result.map fun _ => ()),
          { counted with files := w.files.overwrite place (payload result) })
      | _, _ => ((d, .ok ()), w) := by
  cases hf : d.isFinished <;> cases hd : d.destination
  case false.some place =>
    simp only [finish, hf, hd, Bool.false_eq_true, if_false]
    simp only [bind, StateT.bind, Format.runEncode_run]
    -- Counting the call has left the files alone.
    rw [← w.files_count d.format fun c => { c with encoded := d.contents.toList :: c.encoded }]
    cases d.format.encode w.clock d.contents.toList with
    | ok b => rfl
    | error f => rfl
  all_goals
    simp only [finish, hf, hd, Bool.false_eq_true, if_false, if_true]
    rfl

/-- Finishing keeps the entries. -/
theorem contents_finish (d : Draft) (w : Workspace) : (d.finish w).1.1.contents = d.contents := by
  rw [finish_eq]
  split <;> rfl

theorem leave_eq (d : Draft) (failure : Option Failure) (w : Workspace) :
    d.leave failure w =
      (((d.finish w).1.1,
        match (d.finish w).1.2 with
        | .ok () => failure
        | .error f => some f), (d.finish w).2) := by
  simp only [leave, bind, StateT.bind]
  obtain ⟨⟨d', result⟩, w'⟩ := d.finish w
  cases result <;> rfl

theorem giveUp_eq (d : Draft) (w : Workspace) :
    d.giveUp w =
      ((d.finish w).1.1,
        match (d.finish w).1.2 with
        | .ok () => (d.finish w).2
        | .error f =>
          { (d.finish w).2 with log := .notFinished d.path f :: (d.finish w).2.log }) := by
  simp only [giveUp, bind, StateT.bind]
  obtain ⟨⟨d', result⟩, w'⟩ := d.finish w
  cases result <;> rfl

/-! ### Operations -/

/-- What can be done with a draft, reading apart. -/
inductive Operation where
  | add (path : EntryPath.Argument) (content : Content)
  | addStrict (path : EntryPath.Argument) (content : Content)
  | finish
  /-- The end of a block, in a failure or not. -/
  | leave (failure : Option Failure)
  | giveUp

/-- Does one operation: the draft after it, and the failure that it ends in. -/
def perform (d : Draft) : Operation → StateM Workspace (Draft × Option Failure)
  | .add path content => fun w =>
    match d.add path content w with
    | (.ok (_, d'), w') => ((d', none), w')
    | (.error f, w') => ((d, some f), w')
  | .addStrict path content => fun w =>
    match d.addStrict path content with
    | .ok (_, d') => ((d', none), w)
    | .error f => ((d, some f), w)
  | .finish => d.leave none
  | .leave failure => d.leave failure
  | .giveUp => fun w => (((d.giveUp w).1, none), (d.giveUp w).2)

/-- What an operation returns: whether an entry was added, or the entry itself; ending a draft returns
nothing, and neither does what fails. -/
inductive Answer where
  | nothing
  | added (isStored : Bool)
  | stored (e : Entry)

/-- What an operation returns that is done with a draft. -/
def answer (d : Draft) (op : Operation) (w : Workspace) : Answer :=
  match op with
  | .add path content =>
    match (d.add path content w).1 with
    | .ok (isStored, _) => .added isStored
    | .error _ => .nothing
  | .addStrict path content =>
    match d.addStrict path content with
    | .ok (e, _) => .stored e
    | .error _ => .nothing
  | .finish | .leave _ | .giveUp => .nothing

/-- The entry that an operation stores in a draft that takes entries, if it does. -/
def Operation.entry? : Operation → Option Entry
  | .add path content | .addStrict path content => (entryFor path content).toOption
  | .finish | .leave _ | .giveUp => none

/-- **An operation keeps the entries, or appends one**, which it does only to a draft that takes
entries. -/
theorem contents_perform (d : Draft) (op : Operation) (w : Workspace) :
    (d.perform op w).1.1.contents =
      match d.takesEntries, op.entry? with
      | true, some e => d.contents.append e
      | _, _ => d.contents := by
  -- A draft that takes no entries refuses them all, and ending a draft keeps what it has.
  cases op with
  | add path content =>
      simp only [perform, add_eq, addStrict_eq, Operation.entry?]
      cases d.takesEntries with
      | false => cases entryFor path content <;> rfl
      | true =>
          cases entryFor path content with
          | ok e => rfl
          | error f => cases h : isRejection f <;> simp [Except.map, Except.toOption, h]
  | addStrict path content =>
      simp only [perform, addStrict_eq, Operation.entry?]
      cases d.takesEntries <;> cases entryFor path content <;> rfl
  | finish | leave failure =>
      simp only [perform, leave_eq, contents_finish, Operation.entry?]
      split <;> simp_all
  | giveUp =>
      simp only [perform, giveUp_eq, contents_finish, Operation.entry?]
      split <;> simp_all

/-- A draft that can come about: it was created and operated on, in whatever workspaces. -/
inductive Reachable : Draft → Prop where
  | created {path : String} {format : Format} {w w' : Workspace} {d : Draft}
      (h : create path format w = (.ok d, w')) : Reachable d
  | performed {d : Draft} (op : Operation) (w : Workspace) (h : Reachable d) :
      Reachable (d.perform op w).1.1

theorem Operation.of_entry? {op : Operation} {e : Entry} (h : op.entry? = some e) :
    ∃ path content, entryFor path content = .ok e := by
  cases op with
  | add path content | addStrict path content =>
      refine ⟨path, content, ?_⟩
      simp only [Operation.entry?] at h
      cases he : entryFor path content with
      | error f => rw [he] at h; cases h
      | ok e' => rw [he] at h; cases h; rfl
  | finish | leave failure | giveUp => cases h

/-- **Every entry of a draft came in through adding**, under a canonical form. -/
theorem Reachable.stored {d : Draft} (h : d.Reachable) :
    ∀ e ∈ d.contents.toList, ∃ path content, entryFor path content = .ok e := by
  induction h with
  | created h =>
      obtain ⟨-, -, -, rfl, -⟩ := create_eq_ok h
      intro e he
      cases he
  | performed op w _ ih =>
      intro e he
      rw [contents_perform] at he
      split at he
      · next e' _ hop =>
          rw [Contents.toList_append, List.mem_append, List.mem_singleton] at he
          rcases he with he | rfl
          · exact ih e he
          · exact Operation.of_entry? hop
      · exact ih e he

end Draft

end ZipContainer
