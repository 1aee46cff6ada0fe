import Mathlib.Data.List.TakeWhile
import ZipContainer.Proofs.Contents.Lookup
import ZipContainer.Proofs.Draft.Runs

/-!
# The life cycle of a draft

A draft lives through any operations in any order, and between them anything may happen elsewhere
that spares its destination and the calls of its format (`Lives`).  Such a life is in one of two
phases (`Phase`): as long as nothing but adding was performed, the draft is open, its destination empty
and its format not called; the first operation that ends it has the format encode what was accepted
until then, writes the destination and closes it, and nothing changes any of that afterwards.  Each
operation leads from phase to phase (`Phase.operated`), so every life is in one (`Lives.phase`).

`life_cycle` says what follows at every moment of a life: the entries, the flag, the calls of the
format, the destination and all that the operations reported.
-/

namespace ZipContainer.Draft

variable {d₀ d d' : Draft} {w₀ w w' : Workspace}

/-! ### Lives -/

/-- The draft has just been opened: there is nothing in it, and an empty file at its destination. -/
structure Opened (d : Draft) (w : Workspace) (place : Place) : Prop where
  destination : d.destination = some place
  unfinished : d.isFinished = false
  contents : d.contents = .empty
  empty : w.files.Holds d.path place ByteArray.empty

theorem Opened.of_create {path : String} {format : Format} (h : create path format w = (.ok d, w')) :
    d.path = path ∧ d.format = format ∧ ∃ place, Opened d w' place := by
  obtain ⟨files, place, opened, rfl, rfl⟩ := create_eq_ok h
  exact ⟨rfl, rfl, place, rfl, rfl, rfl, FileTree.openEmpty_holds opened⟩

/-- What happens elsewhere leaves the destination of the draft and the calls of its format as they
are. -/
structure Spares (d : Draft) (w w' : Workspace) : Prop where
  destination : ∀ place b, d.destination = some place → w.files.Holds d.path place b →
    w'.files.Holds d.path place b
  calls : ∀ n, d.format.counter = some n → w'.calls[n]? = w.calls[n]?

/-- An operation that was performed, when, and what it reported. -/
structure Step where
  operation : Operation
  time : Moment
  report : Report

/-- The lives of a draft that was just opened: what was performed with it so far, and what has become of
it and of the workspace. -/
inductive Lives (d₀ : Draft) (w₀ : Workspace) : List Step → Draft → Workspace → Prop where
  | opened : Lives d₀ w₀ [] d₀ w₀
  | elsewhere {steps : List Step} {d : Draft} {w w' : Workspace} (lives : Lives d₀ w₀ steps d w)
      (spares : Spares d₀ w w') : Lives d₀ w₀ steps d w'
  | operated {steps : List Step} {d d' : Draft} {w w' : Workspace} (lives : Lives d₀ w₀ steps d w)
      (op : Operation) {failure : Option Failure} {notices : List Notice}
      (performed : d.perform op w = ((d', failure), w')) (log : w'.log = notices ++ w.log) :
      Lives d₀ w₀ (steps ++ [⟨op, w.clock, ⟨failure, d.answer op w, notices⟩⟩]) d' w'

/-- The entries that operations of the steps store in a draft that takes entries. -/
def stored (steps : List Step) : List Entry := accepted (steps.map Step.operation)

/-- What the format makes of the entries of the steps at the time at which the draft is ended. -/
def encoding (format : Format) (steps : List Step) (time : Moment) : Except Failure ByteArray :=
  format.encode time (stored steps)

/-- The draft when it is finished. -/
def closed (d : Draft) : Draft := { d with isFinished := true, destination := none }

/-! ### Phases -/

/-- The phase that the life of a draft is in, after the steps. -/
inductive Phase (d₀ : Draft) (w₀ : Workspace) (place : Place) :
    List Step → Draft → Workspace → Prop where
  /-- Entries were added, or refused, and the draft is open. -/
  | adding {steps : List Step} {w : Workspace}
      (added : ∀ s ∈ steps, s.operation.isAdding = true ∧ s.report = s.operation.addReport)
      (calls : ∀ n, d₀.format.counter = some n → w.calls[n]? = w₀.calls[n]?)
      (empty : w.files.Holds d₀.path place ByteArray.empty) :
      Phase d₀ w₀ place steps (d₀.appendAll (stored steps)) w
  /-- A step ended the draft. -/
  | finished {first later : List Step} {last : Step} {w : Workspace}
      (added : ∀ s ∈ first, s.operation.isAdding = true ∧ s.report = s.operation.addReport)
      (ending : last.operation.isAdding = false)
      (report : last.report =
        last.operation.endReport d₀.path (encoding d₀.format first last.time))
      (late : ∀ s ∈ later, s.report = s.operation.lateReport d₀.path)
      (calls : ∀ n, d₀.format.counter = some n → w.calls[n]? =
        w₀.calls[n]?.map fun c => { c with encoded := stored first :: c.encoded })
      (written : w.files.Holds d₀.path place (payload (encoding d₀.format first last.time))) :
      Phase d₀ w₀ place (first ++ last :: later)
        (d₀.appendAll (stored first)).closed w

theorem stored_concat (steps : List Step) (s : Step) :
    stored (steps ++ [s]) = stored steps ++ s.operation.entry?.toList := by
  rw [stored, accepted, List.map_append, List.filterMap_append]
  simp only [List.map_cons, List.map_nil, List.filterMap_cons, List.filterMap_nil]
  cases s.operation.entry? <;> rfl

theorem appendAll_append (d : Draft) (es es' : List Entry) :
    (d.appendAll es).appendAll es' = d.appendAll (es ++ es') := by
  rw [appendAll, appendAll, appendAll, List.foldl_append]

theorem contents_appendAll (hempty : d.contents = .empty) (es : List Entry) :
    (d.appendAll es).contents.toList = es := by
  rw [appendAll, hempty]
  exact Contents.toList_ofList es

theorem calls_count {f : Format} {n : Nat} (hn : f.counter = some n) (w : Workspace)
    (call : Calls → Calls) : (w.count f call).calls[n]? = w.calls[n]?.map call := by
  rw [Workspace.count, hn, Array.getElem?_modify, if_pos rfl]

/-- What an operation leaves and reports, by an equation that says all it does. -/
theorem performed_eq {x : Draft} {v : Workspace} {op : Operation} {r : Report}
    {failure : Option Failure} {notices : List Notice}
    (does : d.perform op w = ((x, r.failure), v)) (writes : v.log = r.notices ++ w.log)
    (answers : d.answer op w = r.answer)
    (performed : d.perform op w = ((d', failure), w')) (log : w'.log = notices ++ w.log) :
    d' = x ∧ w' = v ∧ (⟨failure, d.answer op w, notices⟩ : Report) = r := by
  rw [does] at performed
  cases performed
  rw [writes] at log
  rw [answers, ← List.append_cancel_right log]
  exact ⟨rfl, rfl, rfl⟩

namespace Phase

variable {place : Place} {steps : List Step}

/-- What happens elsewhere leads to no other phase. -/
theorem elsewhere (h : Phase d₀ w₀ place steps d w) (opened : Opened d₀ w₀ place)
    (spares : Spares d₀ w w') : Phase d₀ w₀ place steps d w' := by
  cases h with
  | adding added calls empty =>
      refine .adding added (fun n hn => ?_) (spares.destination _ _ opened.destination empty)
      rw [spares.calls n hn, calls n hn]
  | finished added ending report late calls written =>
      refine .finished added ending report late (fun n hn => ?_)
        (spares.destination _ _ opened.destination written)
      rw [spares.calls n hn, calls n hn]

/-- **An operation leads from phase to phase.** -/
theorem operated (h : Phase d₀ w₀ place steps d w) (opened : Opened d₀ w₀ place) {op : Operation}
    {failure : Option Failure} {notices : List Notice} (performed : d.perform op w = ((d', failure), w'))
    (log : w'.log = notices ++ w.log) :
    Phase d₀ w₀ place (steps ++ [⟨op, w.clock, ⟨failure, d.answer op w, notices⟩⟩]) d' w' := by
  cases h with
  | adding added calls empty =>
      have takes : (d₀.appendAll (stored steps)).takesEntries = true := by
        simp only [takesEntries, appendAll, opened.unfinished, opened.destination]
        rfl
      cases hop : op.isAdding with
      | true =>
          obtain ⟨rfl, rfl, report⟩ := performed_eq (perform_adding hop takes w) rfl
            (answer_adding hop takes w) performed log
          rw [appendAll_append, report, ← stored_concat steps ⟨op, w.clock, op.addReport⟩]
          refine .adding (fun s hs => ?_) calls empty
          rcases List.mem_append.mp hs with hs | hs
          · exact added s hs
          · obtain rfl := List.mem_singleton.mp hs
            exact ⟨hop, rfl⟩
      | false =>
          have ends := perform_ending hop (d := d₀.appendAll (stored steps)) opened.unfinished
            opened.destination w
          rw [contents_appendAll opened.contents] at ends
          obtain ⟨rfl, rfl, report⟩ := performed_eq
            (r := op.endReport d₀.path (encoding d₀.format steps w.clock)) ends rfl
            (answer_ending hop w) performed log
          rw [report]
          have none (s : Step) (hs : s ∈ []) : s.report = s.operation.lateReport d₀.path :=
            absurd hs List.not_mem_nil
          refine .finished added hop rfl none (fun n hn => ?_) ?_
          · rw [← calls n hn]
            exact calls_count hn w _
          · exact FileTree.overwrite_holds empty _
  | @finished first later last _ added ending hlast late calls written =>
      have late' : (d₀.appendAll (stored first)).closed.takesEntries = false := rfl
      obtain ⟨rfl, rfl, report⟩ := performed_eq (perform_late late' w) rfl (answer_late late' w)
        performed log
      rw [report, List.append_assoc, List.cons_append]
      refine .finished added ending hlast (fun s hs => ?_) calls written
      rcases List.mem_append.mp hs with hs | hs
      · exact late s hs
      · obtain rfl := List.mem_singleton.mp hs
        rfl

end Phase

/-- **Every life is in a phase.** -/
theorem Lives.phase {place : Place} {steps : List Step} (opened : Opened d₀ w₀ place)
    (lives : Lives d₀ w₀ steps d w) : Phase d₀ w₀ place steps d w := by
  induction lives with
  | opened => exact .adding (fun _ hs => absurd hs List.not_mem_nil) (fun _ _ => rfl) opened.empty
  | elsewhere _ spares ih => exact ih.elsewhere opened spares
  | operated _ op performed log ih => exact ih.operated opened performed log

/-! ### Accounts -/

/-- The steps before the first that ends the draft, and the steps from that one on. -/
def firstSteps (steps : List Step) : List Step := steps.takeWhile (·.operation.isAdding)
@[inherit_doc firstSteps] def lastSteps (steps : List Step) : List Step :=
  steps.dropWhile (·.operation.isAdding)

/-- The lists of entries that the format was given to encode. -/
def encoded (steps : List Step) : List (List Entry) :=
  match lastSteps steps with
  | [] => []
  | _ :: _ => [stored (firstSteps steps)]

/-- What the destination holds. -/
def written (format : Format) (steps : List Step) : ByteArray :=
  match lastSteps steps with
  | [] => ByteArray.empty
  | last :: _ => payload (encoding format (firstSteps steps) last.time)

/-- What the steps report.  The result of encoding is reported once, by the step that ends the
draft. -/
def reports (path : String) (format : Format) (steps : List Step) : List Report :=
  (firstSteps steps).map (·.operation.addReport) ++
    match lastSteps steps with
    | [] => []
    | last :: later =>
      last.operation.endReport path (encoding format (firstSteps steps) last.time) ::
        later.map (·.operation.lateReport path)

/-- What has become of a draft and of its workspace after the steps of its life. -/
structure Account (path : String) (format : Format) (w₀ : Workspace) (steps : List Step) (d : Draft)
    (w : Workspace) : Prop where
  /-- The entries are those that were accepted before the draft was ended, in order. -/
  entries : d.contents.toList = stored (firstSteps steps)
  contains : ∀ p, d.contents.contains p = true ↔ p ∈ (stored (firstSteps steps)).map Entry.path
  /-- Adding that is refused leaves everything but the log as it is. -/
  refused : ∀ op : Operation, op.isAdding = true → d.isFinished = true ∨ op.entry? = none →
    (d.perform op w).1.1 = d ∧ ∃ notices, (d.perform op w).2 = { w with log := notices ++ w.log }
  finished : d.isFinished = true ↔ lastSteps steps ≠ []
  closed : d.isFinished = true ↔ d.destination = none
  calls : ∀ n c, format.counter = some n → w₀.calls[n]? = some c →
    w.calls[n]? = some { c with encoded := encoded steps ++ c.encoded }
  destination : w.files.read path = .ok (written format steps)
  reported : steps.map Step.report = reports path format steps

/-- Steps that all add come before any that ends the draft. -/
theorem split_adding {steps : List Step} (h : ∀ s ∈ steps, s.operation.isAdding = true) :
    firstSteps steps = steps ∧ lastSteps steps = [] :=
  ⟨List.takeWhile_eq_self_iff.mpr h, List.dropWhile_eq_nil_iff.mpr h⟩

/-- The first step that does not add is where steps are split. -/
theorem split_finished {first later : List Step} {last : Step}
    (h : ∀ s ∈ first, s.operation.isAdding = true) (ending : last.operation.isAdding = false) :
    firstSteps (first ++ last :: later) = first ∧
      lastSteps (first ++ last :: later) = last :: later := by
  simp only [firstSteps, lastSteps, List.takeWhile_append_of_pos h, List.dropWhile_append_of_pos h,
    List.takeWhile_cons, List.dropWhile_cons, ending, Bool.false_eq_true, if_false, List.append_nil,
    and_self]

/-- Adding to a draft is refused if it takes no entries or the entry cannot be stored. -/
theorem perform_refused {op : Operation} (hop : op.isAdding = true)
    (h : d.takesEntries = false ∨ op.entry? = none) (w : Workspace) :
    (d.perform op w).1.1 = d ∧ ∃ notices, (d.perform op w).2 = { w with log := notices ++ w.log } := by
  cases htakes : d.takesEntries with
  | false =>
      rw [perform_late htakes]
      exact ⟨rfl, _, rfl⟩
  | true =>
      have none : op.entry? = none := h.resolve_left (by rw [htakes]; decide)
      rw [perform_adding hop htakes, none]
      exact ⟨rfl, _, rfl⟩

/-- The account of the entries, where they are those that were accepted. -/
theorem contains_appendAll (hempty : d.contents = .empty) (es : List Entry) (p : Text) :
    (d.appendAll es).contents.contains p = true ↔ p ∈ es.map Entry.path := by
  have indexed : (d.appendAll es).contents.Indexed := by
    rw [appendAll, hempty]
    exact Contents.indexed_empty.foldl es
  rw [indexed.contains_iff, Contents.paths, contents_appendAll hempty]

/-- **In every phase the account is in order.** -/
theorem Phase.account {place : Place} {steps : List Step} (opened : Opened d₀ w₀ place)
    (h : Phase d₀ w₀ place steps d w) : Account d₀.path d₀.format w₀ steps d w := by
  have refused (op : Operation) (hop : op.isAdding = true)
      (h : d.isFinished = true ∨ op.entry? = none) : (d.perform op w).1.1 = d ∧
        ∃ notices, (d.perform op w).2 = { w with log := notices ++ w.log } := by
    refine perform_refused hop (h.imp_left fun finished => ?_) w
    rw [takesEntries, finished]
    rfl
  cases h with
  | adding added calls empty =>
      obtain ⟨hfirst, hlast⟩ := split_adding fun s hs => (added s hs).1
      have unfinished : ¬ (d₀.appendAll (stored steps)).isFinished = true := by
        rw [appendAll, opened.unfinished]
        exact Bool.false_ne_true
      have unclosed : ¬ (d₀.appendAll (stored steps)).destination = none := by
        rw [appendAll, opened.destination]
        exact Option.some_ne_none place
      exact {
        entries := by rw [hfirst, contents_appendAll opened.contents]
        contains := fun p => by rw [hfirst, contains_appendAll opened.contents]
        refused := refused
        finished := iff_of_false unfinished fun h => h hlast
        closed := iff_of_false unfinished unclosed
        calls := fun n c hn hc => by
          rw [calls n hn, hc, encoded, hlast]
          rfl
        destination := by
          rw [written, hlast]
          exact FileTree.read_of_holds empty
        reported := by
          rw [reports, hfirst, hlast, List.append_nil]
          exact List.map_congr_left fun s hs => (added s hs).2 }
  | @finished first later last _ added ending report late calls holds =>
      obtain ⟨hfirst, hlast⟩ : firstSteps (first ++ last :: later) = first ∧
          lastSteps (first ++ last :: later) = last :: later :=
        split_finished (fun s hs => (added s hs).1) ending
      have before : first.map Step.report = first.map (·.operation.addReport) :=
        List.map_congr_left fun s hs => (added s hs).2
      have after : later.map Step.report = later.map (·.operation.lateReport d₀.path) :=
        List.map_congr_left late
      have some_last : lastSteps (first ++ last :: later) ≠ [] := by
        rw [hlast]
        exact List.cons_ne_nil _ _
      exact {
        entries := by
          rw [hfirst]
          exact contents_appendAll opened.contents _
        contains := fun p => by
          rw [hfirst]
          exact contains_appendAll opened.contents _ p
        refused := refused
        finished := iff_of_true rfl some_last
        closed := iff_of_true rfl rfl
        calls := fun n c hn hc => by
          rw [calls n hn, hc, encoded, hlast, hfirst]
          rfl
        destination := by
          rw [written, hlast, hfirst]
          exact FileTree.read_of_holds holds
        reported := by
          rw [reports, hfirst, hlast, List.map_append, List.map_cons, before, report, after] }

/-! ### Life cycle -/

/-- Every operation can be performed at every moment of a life. -/
theorem Lives.next {steps : List Step} (lives : Lives d₀ w₀ steps d w) (op : Operation) :
    ∃ s d' w', s.operation = op ∧ Lives d₀ w₀ (steps ++ [s]) d' w' := by
  obtain ⟨notices, log⟩ := log_perform d op w
  obtain ⟨⟨⟨d', failure⟩, w'⟩, performed⟩ : ∃ r, d.perform op w = r := ⟨_, rfl⟩
  rw [performed] at log
  exact ⟨_, d', w', rfl, lives.operated op performed log⟩

/-- What comes after the step that ends the draft does not move it. -/
theorem split_append {steps : List Step} (ended : lastSteps steps ≠ []) (more : List Step) :
    firstSteps (steps ++ more) = firstSteps steps ∧
      lastSteps (steps ++ more) = lastSteps steps ++ more := by
  have notEmpty : ¬ (lastSteps steps).isEmpty = true := fun h => ended (List.isEmpty_iff.mp h)
  have shorter : (firstSteps steps).length ≠ steps.length := by
    have parts : firstSteps steps ++ lastSteps steps = steps := List.takeWhile_append_dropWhile
    have sum := congrArg List.length parts
    rw [List.length_append] at sum
    have := List.length_pos_iff.mpr ended
    omega
  exact ⟨List.takeWhile_append.trans (if_neg shorter), List.dropWhile_append.trans (if_neg notEmpty)⟩

/-- A draft that was ended is closed, with what was stored in it before. -/
theorem Phase.eq_closed {place : Place} {steps : List Step} (h : Phase d₀ w₀ place steps d w)
    (ended : lastSteps steps ≠ []) : d = (d₀.appendAll (stored (firstSteps steps))).closed := by
  cases h with
  | adding added => exact absurd (split_adding fun s hs => (added s hs).1).2 ended
  | finished added ending => rw [(split_finished (fun s hs => (added s hs).1) ending).1]

/-- **The life cycle of a draft**, for every format and every list of operations.  At every moment of
every life the account is in order, and any operation can follow; and once a step has ended the draft,
neither it nor what its destination holds ever changes. -/
theorem life_cycle {path : String} {format : Format} {steps : List Step}
    (created : create path format w = (.ok d₀, w₀)) (lives : Lives d₀ w₀ steps d w') :
    Account path format w₀ steps d w' ∧
    (∀ op, ∃ s d' w'', s.operation = op ∧ Lives d₀ w₀ (steps ++ [s]) d' w'') ∧
    ∀ more d' w'', lastSteps steps ≠ [] → Lives d₀ w₀ (steps ++ more) d' w'' →
      d' = d ∧ w''.files.read path = w'.files.read path := by
  obtain ⟨hpath, hformat, place, opened⟩ := Opened.of_create created
  have account {steps : List Step} {d : Draft} {w' : Workspace} (lives : Lives d₀ w₀ steps d w') :
      Account path format w₀ steps d w' := by
    rw [← hpath, ← hformat]
    exact (lives.phase opened).account opened
  refine ⟨account lives, lives.next, fun more d' w'' ended on => ?_⟩
  obtain ⟨hfirst, hlast⟩ := split_append ended more
  constructor
  · have ended' : lastSteps (steps ++ more) ≠ [] := by
      rw [hlast]
      exact List.append_ne_nil_of_left_ne_nil ended more
    rw [(on.phase opened).eq_closed ended', hfirst, ← (lives.phase opened).eq_closed ended]
  · rw [(account on).destination, (account lives).destination, written, written, hfirst, hlast]
    cases hl : lastSteps steps with
    | nil => exact absurd hl ended
    | cons last later => rfl

/-- A format that fails is called once, its failure takes the place of the one that the block ended
in, and the archive without entries stays, whatever is done with the draft afterwards.  A content of
another type is not added, and neither is a text that is half a character. -/
theorem failing_format_reported_once :
    let failure : Failure := .encode (.custom "full")
    let format := Format.scripted (.ok []) (.error failure) (some 0)
    let half : Text := ⟨[⟨0xD800⟩]⟩
    ∃ (w₀ : Workspace) (d₀ : Draft) (steps : List Step) (d : Draft) (w : Workspace),
      create "d" format ⟨.empty, ⟨2020, 2, 3, 4, 5, 6⟩, #[⟨0, []⟩], []⟩ = (.ok d₀, w₀) ∧
      steps.map Step.operation = [.add (.text "a") (.bytes (bytesOf [1])),
        .addStrict (.text "a") (.other "int"), .add (.text "a") (.text half),
        .leave (some .emptyName), .addStrict (.text "a") (.bytes (bytesOf [2])), .giveUp] ∧
      Lives d₀ w₀ steps d w ∧
      d.contents.toList = [⟨"a", bytesOf [1]⟩] ∧ w.calls[0]? = some ⟨0, [[⟨"a", bytesOf [1]⟩]]⟩ ∧
      w.files.read "d" = .ok Zip.emptyArchive ∧
      steps.map Step.report = [⟨none, .added true, []⟩,
        ⟨some (.content (.wrongType "int")), .nothing, []⟩,
        ⟨some (.loose ⟨0, 1, ⟨0xD800⟩⟩), .nothing, []⟩, ⟨some failure, .nothing, []⟩,
        ⟨some (.operation .finished), .nothing, []⟩, ⟨none, .nothing, []⟩] := by
  intro failure format half
  let w₀ : Workspace := ⟨FileTree.empty.set ["d"] (.file ByteArray.empty), ⟨2020, 2, 3, 4, 5, 6⟩,
    #[⟨0, []⟩], []⟩
  let d₀ : Draft := ⟨"d", format, some ["d"], false, .empty⟩
  have opened : FileTree.empty.openEmpty "d" = .ok (w₀.files, ["d"]) := rfl
  have created : create "d" format ⟨.empty, ⟨2020, 2, 3, 4, 5, 6⟩, #[⟨0, []⟩], []⟩ = (.ok d₀, w₀) := by
    rw [create_eq, opened]
  obtain ⟨⟨_, t₁, r₁⟩, _, _, rfl, lives₁⟩ := Lives.opened.next (.add (.text "a") (.bytes (bytesOf [1])))
  obtain ⟨⟨_, t₂, r₂⟩, _, _, rfl, lives₂⟩ := lives₁.next (.addStrict (.text "a") (.other "int"))
  obtain ⟨⟨_, t₃, r₃⟩, _, _, rfl, lives₃⟩ := lives₂.next (.add (.text "a") (.text half))
  obtain ⟨⟨_, t₄, r₄⟩, _, _, rfl, lives₄⟩ := lives₃.next (.leave (some .emptyName))
  obtain ⟨⟨_, t₅, r₅⟩, _, _, rfl, lives₅⟩ :=
    lives₄.next (.addStrict (.text "a") (.bytes (bytesOf [2])))
  obtain ⟨⟨_, t₆, r₆⟩, d, w, rfl, lives⟩ := lives₅.next .giveUp
  have account := (life_cycle created lives).1
  have normal : EntryPath.normalize "a" = .ok "a" := rfl
  have kept : entryFor (.text "a") (.bytes (bytesOf [1])) = .ok ⟨"a", bytesOf [1]⟩ :=
    entryFor_text normal _
  have refused : entryFor (.text "a") (.other "int") = .error (.content (.wrongType "int")) := by
    simp only [entryFor, EntryPath.Argument.normalize, normal]
    rfl
  have halved : entryFor (.text "a") (.text half) = .error (.loose ⟨0, 1, ⟨0xD800⟩⟩) := by
    simp only [entryFor, EntryPath.Argument.normalize, normal]
    rfl
  have stored_first : stored [⟨.add (.text "a") (.bytes (bytesOf [1])), t₁, r₁⟩,
      ⟨.addStrict (.text "a") (.other "int"), t₂, r₂⟩, ⟨.add (.text "a") (.text half), t₃, r₃⟩] =
      [⟨"a", bytesOf [1]⟩] := by
    simp only [stored, accepted, List.map_cons, List.map_nil, List.filterMap_cons,
      List.filterMap_nil, Operation.entry?, kept, refused, halved]
    rfl
  refine ⟨w₀, d₀, _, d, w, created, rfl, lives, ?_, ?_, ?_, ?_⟩
  · rw [account.entries]
    exact stored_first
  · rw [account.calls 0 ⟨0, []⟩ rfl rfl]
    exact congrArg (fun es => some (⟨0, [es]⟩ : Calls)) stored_first
  · exact account.destination
  · rw [account.reported]
    have added : (Operation.add (.text "a") (.bytes (bytesOf [1]))).addReport =
        ⟨none, .added true, []⟩ := by
      simp only [Operation.addReport, kept]
    have wrong : (Operation.addStrict (.text "a") (.other "int")).addReport =
        ⟨some (.content (.wrongType "int")), .nothing, []⟩ := by
      simp only [Operation.addReport, refused, Operation.refusal]
    have loose : (Operation.add (.text "a") (.text half)).addReport =
        ⟨some (.loose ⟨0, 1, ⟨0xD800⟩⟩), .nothing, []⟩ := by
      simp only [Operation.addReport, halved, Operation.refusal]
      rfl
    change Operation.addReport _ :: Operation.addReport _ :: Operation.addReport _ :: _ = _
    rw [added, wrong, loose]
    rfl

end ZipContainer.Draft
