import ZipContainer.Proofs.Draft.Life
import ZipContainer.Proofs.FileTree.Files

/-!
# Runs of drafts

Operations that are done with a draft one after the other, in one workspace (`performAll`).

* `perform_adding`: adding, whatever is added, keeps the draft open, appends the entry if it is
  accepted and changes nothing in the workspace but the log; `performAll_adding` says so of many.
* `perform_ending`: each way to end a draft writes the destination and closes it.  The ways differ
  in what becomes of a failure to encode.
* `perform_late`: after that, nothing does anything any more.
* `destination_of_run`: what a whole run leaves behind, from creating the draft to ending it.
-/

namespace ZipContainer.Draft

variable {d : Draft} {op : Operation} {ops : List Operation}

/-- Does operations in order, whether they fail or not. -/
def performAll (d : Draft) : List Operation → StateM Workspace Draft
  | [] => fun w => (d, w)
  | op :: ops => fun w => (d.perform op w).1.1.performAll ops (d.perform op w).2

/-- The operation adds an entry; all others end the draft. -/
def Operation.isAdding : Operation → Bool
  | .add _ _ | .addStrict _ _ => true
  | .finish | .leave _ | .giveUp => false

/-- The entries that operations store in a draft that takes entries. -/
def accepted (ops : List Operation) : List Entry := ops.filterMap Operation.entry?

/-- The draft with the entries at its end. -/
def appendAll (d : Draft) (es : List Entry) : Draft :=
  { d with contents := es.foldl Contents.append d.contents }

/-- What an operation ends in and what it returns, and the notices that it writes, the last one
first. -/
structure Report where
  failure : Option Failure
  answer : Answer
  notices : List Notice

/-! ### Adding -/

/-- How an operation that adds reports that its entry is refused. -/
def Operation.refusal (op : Operation) (f : Failure) : Report :=
  match op with
  | .add path _ =>
    if isRejection f then ⟨none, .added false, [.rejected path f]⟩ else ⟨some f, .nothing, []⟩
  | _ => ⟨some f, .nothing, []⟩

/-- What an operation reports that adds to a draft that takes entries. -/
def Operation.addReport (op : Operation) : Report :=
  match op with
  | .add path content =>
    match entryFor path content with
    | .ok _ => ⟨none, .added true, []⟩
    | .error f => op.refusal f
  | .addStrict path content =>
    match entryFor path content with
    | .ok e => ⟨none, .stored e, []⟩
    | .error f => op.refusal f
  | .finish | .leave _ | .giveUp => ⟨none, .nothing, []⟩

/-- **All that adding does to a draft that takes entries**: it appends the entry that is accepted, if
it is, and at most writes a notice. -/
theorem perform_adding (hop : op.isAdding = true) (hopen : d.takesEntries = true) (w : Workspace) :
    d.perform op w = ((d.appendAll op.entry?.toList, op.addReport.failure),
      { w with log := op.addReport.notices ++ w.log }) := by
  cases op with
  | add path content =>
      simp only [perform, add_eq, addStrict_eq, hopen, Operation.entry?, Operation.addReport]
      cases entryFor path content with
      | ok e => rfl
      | error f =>
          simp only [if_true, Except.map, Operation.refusal]
          by_cases hf : isRejection f = true
          · rw [if_pos hf, if_pos hf]
            rfl
          · rw [if_neg hf, if_neg hf]
            rfl
  | addStrict path content =>
      simp only [perform, addStrict_eq, hopen, Operation.entry?, Operation.addReport]
      cases entryFor path content with
      | ok e => rfl
      | error f => rfl
  | finish | leave failure | giveUp => cases hop

theorem answer_adding (hop : op.isAdding = true) (hopen : d.takesEntries = true) (w : Workspace) :
    d.answer op w = op.addReport.answer := by
  cases op with
  | add path content =>
      simp only [answer, add_eq, addStrict_eq, hopen, Operation.addReport]
      cases entryFor path content with
      | ok e => rfl
      | error f =>
          simp only [if_true, Except.map, Operation.refusal]
          cases isRejection f <;> rfl
  | addStrict path content =>
      simp only [answer, addStrict_eq, hopen, Operation.addReport]
      cases entryFor path content <;> rfl
  | finish | leave failure | giveUp => cases hop

/-- **Adding one after the other appends what is accepted**, in order. -/
theorem performAll_adding (hops : ∀ op ∈ ops, op.isAdding = true) (hopen : d.takesEntries = true)
    (w : Workspace) :
    ∃ log, d.performAll ops w = (d.appendAll (accepted ops), { w with log := log }) := by
  induction ops generalizing d w with
  | nil => exact ⟨w.log, rfl⟩
  | cons op ops ih =>
      have first := perform_adding (hops op List.mem_cons_self) hopen w
      have stillOpen : (d.appendAll op.entry?.toList).takesEntries = true := hopen
      obtain ⟨log, hrest⟩ := ih (fun op' hop' => hops op' (List.mem_cons_of_mem op hop'))
        stillOpen { w with log := op.addReport.notices ++ w.log }
      refine ⟨log, ?_⟩
      simp only [performAll, first, hrest, accepted, List.filterMap_cons]
      cases op.entry? with
      | none => rfl
      | some e => rfl

/-! ### Ending -/

/-- The failure that a way to end a draft ends in, for the result of encoding. -/
def Operation.outcome {α : Type} (op : Operation) (result : Except Failure α) : Option Failure :=
  match op, result with
  | .leave failure, .ok _ => failure
  | .giveUp, _ | _, .ok _ => none
  | _, .error f => some f

/-- The notices that a way to end a draft writes, for the result of encoding. -/
def Operation.notices {α : Type} (op : Operation) (path : String) (result : Except Failure α) :
    List Notice :=
  match op, result with
  | .giveUp, .error f => [.notFinished path f]
  | _, _ => []

/-- Only a failure is worth a notice. -/
theorem Operation.notices_ok {α : Type} (op : Operation) (path : String) (a : α) :
    op.notices path (.ok a) = [] := by
  cases op <;> rfl

/-- **All that ending a draft does**, in every way. -/
theorem perform_ending {place : Place} (hop : op.isAdding = false) (hopen : d.isFinished = false)
    (hplace : d.destination = some place) (w : Workspace) :
    let result := d.format.encode w.clock d.contents.toList
    let counted := w.count d.format fun c => { c with encoded := d.contents.toList :: c.encoded }
    d.perform op w = (({ d with isFinished := true, destination := none }, op.outcome result),
      { counted with
        files := w.files.overwrite place (payload result)
        log := op.notices d.path result ++ w.log }) := by
  intro result counted
  have finished : d.finish w =
      (({ d with isFinished := true, destination := none }, result.map fun _ => ()),
        { counted with files := w.files.overwrite place (payload result) }) := by
    rw [finish_eq, hopen, hplace]
  have log : counted.log = w.log := w.log_count _ _
  generalize result = r at finished ⊢
  cases op with
  | add path content | addStrict path content => cases hop
  | finish | leave failure =>
      simp only [perform, leave_eq, finished]
      cases r with
      | ok b | error f => simp [Except.map, Operation.outcome, Operation.notices, log]
  | giveUp =>
      simp only [perform, giveUp_eq, finished]
      cases r with
      | ok b | error f => simp [Except.map, Operation.outcome, Operation.notices, log]

/-- What an operation reports that ends a draft, for the result of encoding. -/
def Operation.endReport {α : Type} (op : Operation) (path : String) (result : Except Failure α) :
    Report :=
  ⟨op.outcome result, .nothing, op.notices path result⟩

theorem answer_ending (hop : op.isAdding = false) (w : Workspace) : d.answer op w = .nothing := by
  cases op with
  | add path content | addStrict path content => cases hop
  | finish | leave failure | giveUp => rfl

/-! ### Afterwards -/

/-- What an operation reports that comes after a draft was ended: adding is refused, and ending it
once more does nothing. -/
def Operation.lateReport (op : Operation) (path : String) : Report :=
  if op.isAdding then op.refusal (.operation .finished) else op.endReport path (.ok ())

/-- **All that an operation does with a draft that takes no more entries**: nothing but to report. -/
theorem perform_late (hclosed : d.takesEntries = false) (w : Workspace) :
    d.perform op w = ((d, (op.lateReport d.path).failure),
      { w with log := (op.lateReport d.path).notices ++ w.log }) := by
  have finished : d.finish w = ((d, .ok ()), w) := by
    rw [finish_eq]
    split
    · next hopen hplace =>
        rw [takesEntries, hopen, hplace] at hclosed
        cases hclosed
    · rfl
  cases op with
  | add path content =>
      simp only [perform, add_eq, addStrict_eq, hclosed]
      rfl
  | addStrict path content =>
      simp only [perform, addStrict_eq, hclosed]
      rfl
  | finish | leave failure =>
      simp only [perform, leave_eq, finished]
      rfl
  | giveUp =>
      simp only [perform, giveUp_eq, finished]
      rfl

theorem answer_late (hclosed : d.takesEntries = false) (w : Workspace) :
    d.answer op w = (op.lateReport d.path).answer := by
  cases op with
  | add path content =>
      simp only [answer, add_eq, addStrict_eq, hclosed]
      rfl
  | addStrict path content =>
      simp only [answer, addStrict_eq, hclosed]
      rfl
  | finish | leave failure | giveUp => rfl

/-- Operations only add to the log. -/
theorem log_perform (d : Draft) (op : Operation) (w : Workspace) :
    ∃ notices, (d.perform op w).2.log = notices ++ w.log := by
  cases htakes : d.takesEntries with
  | false =>
      rw [perform_late htakes]
      exact ⟨_, rfl⟩
  | true =>
      cases hop : op.isAdding with
      | true =>
          rw [perform_adding hop htakes]
          exact ⟨_, rfl⟩
      | false =>
          obtain ⟨place, hopen, hplace⟩ := takesEntries_iff.mp htakes
          rw [perform_ending hop hopen hplace]
          exact ⟨_, rfl⟩

/-! ### Whole runs -/

/-- What every run of a draft leaves behind: the result of encoding, what becomes of it, and what
the destination holds. -/
theorem destination_of_run {format : Format} {path : String} {w₀ w₁ w₂ w₃ : Workspace}
    {d₀ d d' : Draft} {ops : List Operation} {last : Operation} {failure : Option Failure}
    (created : create path format w₀ = (.ok d₀, w₁))
    (adding : ∀ op ∈ ops, op.isAdding = true) (added : d₀.performAll ops w₁ = (d, w₂))
    (ending : last.isAdding = false) (ended : d.perform last w₂ = ((d', failure), w₃)) :
    d.contents.toList = accepted ops ∧ d'.isFinished = true ∧
    ∃ result, format.encode w₀.clock (accepted ops) = result ∧ failure = last.outcome result ∧
      w₃.log = last.notices path result ++ w₂.log ∧
      w₃.files.read path = .ok (payload result) := by
  obtain ⟨files, place, opened, rfl, rfl⟩ := create_eq_ok created
  obtain ⟨log, ran⟩ := performAll_adding (d := ⟨path, format, some place, false, .empty⟩) adding rfl
    { w₀ with files := files }
  rw [ran, Prod.mk.injEq] at added
  obtain ⟨hd, rfl⟩ := added
  have contents : d.contents.toList = accepted ops := by
    rw [← hd]
    exact Contents.toList_ofList (accepted ops)
  have usual : d.format = format ∧ d.path = path ∧ d.isFinished = false ∧
      d.destination = some place := by
    rw [← hd]
    exact ⟨rfl, rfl, rfl, rfl⟩
  obtain ⟨hformat, hpath, unfinished, opened'⟩ := usual
  -- Adding left the files and the clock alone, so the archive has the time of the beginning.
  rw [perform_ending ending unfinished opened', contents, hformat, hpath] at ended
  cases ended
  have written := FileTree.overwrite_holds (FileTree.openEmpty_holds opened)
    (payload (format.encode w₀.clock (accepted ops)))
  exact ⟨contents, rfl, _, rfl, rfl, rfl, FileTree.read_of_holds written⟩

end ZipContainer.Draft
