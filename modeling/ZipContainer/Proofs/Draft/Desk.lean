import Mathlib.Logic.Function.Basic
import ZipContainer.Proofs.Archive.Opening
import ZipContainer.Proofs.Draft.Runs
import ZipContainer.Proofs.FileTree.Extending
import ZipContainer.Session

/-!
# Desks

A desk holds any number of drafts and opened archives, all of which work in one workspace.  What is
done on it is a list of events: a draft is created, something is done with a draft, or an archive is
opened (`Desk.step`, `Desk.run`).  Events of different drafts may follow each other in any order.

* `Sound`: what every run keeps up.  The clock and the directories stay, and the destination of a draft
  is where one of its paths leads.
* `sameDraft_step`: two desks that agree on a draft still do after an event of this draft, which then
  reports the same on both, and which changes the files of both in the same way.
* `step_other`: an event leaves the drafts alone that it is not about, and all places but the
  destinations of the one that it is about.
-/

namespace ZipContainer

open Draft (Operation Report)

/-- Drafts and archives that work in one workspace, each under a key. -/
structure Desk (ι κ : Type) where
  workspace : Workspace
  drafts : ι → Option Draft
  archives : κ → Option Archive

/-- Something done on a desk.  Looking things up in an archive changes nothing, so it is no event. -/
inductive Event (ι κ : Type) where
  /-- Creates a draft, quietly if a refusal of the file system is only to be noted. -/
  | create (i : ι) (path : String) (isQuiet : Bool) (format : Format)
  | operate (i : ι) (op : Operation)
  /-- Opens an archive, quietly if failures that are to be expected are only to be noted. -/
  | openArchive (j : κ) (location : Location) (isQuiet : Bool) (format : Format)

namespace Event

variable {ι κ : Type}

/-- The event is about the draft. -/
def isOf [DecidableEq ι] (i : ι) : Event ι κ → Bool
  | .create k _ _ _ | .operate k _ => k = i
  | .openArchive _ _ _ _ => false

/-- The event opens the archive. -/
def opens [DecidableEq κ] (j : κ) : Event ι κ → Bool
  | .openArchive k _ _ _ => k = j
  | .create _ _ _ _ | .operate _ _ => false

end Event

namespace Draft

/-- Opens a destination for a new draft. -/
def creation (path : String) (isQuiet : Bool) (format : Format) : Action (Option Draft) :=
  if isQuiet then create? path format else some <$> create path format

/-- The new draft of a format at a place. -/
def new (path : String) (format : Format) (place : Place) : Draft :=
  ⟨path, format, some place, false, .empty⟩

/-- What an action reports that ends with a result and a log. -/
def Report.of {α : Type} (result : Except Failure α) (log : List Notice) : Report :=
  match result with
  | .ok _ => ⟨none, .nothing, log⟩
  | .error f => ⟨some f, .nothing, log⟩

/-- What creating a draft reports, if its destination cannot be opened. -/
def Report.refused (path : String) (isQuiet : Bool) (f : Failure) : Report :=
  if isQuiet && f.isFileFailure then ⟨none, .nothing, [.notWritable path f]⟩
  else ⟨some f, .nothing, []⟩

theorem creation_eq (path : String) (isQuiet : Bool) (format : Format) (w : Workspace) :
    creation path isQuiet format w =
      match w.files.openEmpty path with
      | .ok (files, place) => (.ok (some (new path format place)), { w with files := files })
      | .error f =>
        if isQuiet && f.isFileFailure then
          (.ok none, { w with log := .notWritable path f :: w.log })
        else (.error f, w) := by
  cases isQuiet with
  | false =>
      rw [creation, if_neg Bool.false_ne_true, Action.map_run, create_eq]
      cases w.files.openEmpty path <;> rfl
  | true =>
      rw [creation, if_pos rfl, create?, Action.tryCatch_run, Action.map_run, create_eq]
      cases w.files.openEmpty path with
      | ok opened => rfl
      | error f =>
          dsimp only [Except.map]
          cases f.isFileFailure <;> rfl

/-- **All that an operation does**, whatever the draft.  What becomes of the draft, what is returned and
what is reported are a matter of the draft and the clock; of the files at most the one at the
destination is written, with bytes that are a matter of the same. -/
theorem perform_eq (d : Draft) (op : Operation) (now : Moment) :
    ∃ (d' : Draft) (r : Report) (written : Option (Place × ByteArray)),
      (d'.destination = d.destination ∨ d'.destination = none) ∧
      (∀ place b, written = some (place, b) → d.destination = some place) ∧
      ∀ w : Workspace, w.clock = now → ∃ w',
        d.perform op w = ((d', r.failure), w') ∧ d.answer op w = r.answer ∧
        w'.log = r.notices ++ w.log ∧ w'.clock = now ∧
        w'.files =
          match written with
          | none => w.files
          | some (place, b) => w.files.overwrite place b := by
  cases takes : d.takesEntries with
  | false =>
      exact ⟨d, op.lateReport d.path, none, .inl rfl, nofun, fun w hw =>
        ⟨_, perform_late takes w, answer_late takes w, rfl, hw, rfl⟩⟩
  | true =>
      cases adding : op.isAdding with
      | true =>
          exact ⟨d.appendAll op.entry?.toList, op.addReport, none, .inl rfl, nofun, fun w hw =>
            ⟨_, perform_adding adding takes w, answer_adding adding takes w, rfl, hw, rfl⟩⟩
      | false =>
          obtain ⟨place, unfinished, opened⟩ := takesEntries_iff.mp takes
          refine ⟨{ d with isFinished := true, destination := none },
            op.endReport d.path (d.format.encode now d.contents.toList),
            some (place, payload (d.format.encode now d.contents.toList)), .inr rfl, ?_, ?_⟩
          · rintro _ _ ⟨⟩
            exact opened
          · rintro w rfl
            exact ⟨_, perform_ending adding unfinished opened w, answer_ending adding w, rfl,
              w.clock_count _ _, rfl⟩

end Draft

namespace Archive

/-- The bytes that an archive is opened from. -/
def bytesAt (files : FileTree) : Location → Except Failure ByteArray
  | .bytes b => .ok b
  | .bytesOf path | .file path => files.read path

/-- How opening an archive from bytes ends: with what the format makes of them, if it ends well; and
files and clock are as they were. -/
structure OpensAs (format : Format) (bytes : Except Failure ByteArray) (w : Workspace)
    (outcome : Except Failure (Option Archive) × Workspace) : Prop where
  files : outcome.2.files = w.files
  clock : outcome.2.clock = w.clock
  archive : ∀ a, outcome.1 = .ok (some a) →
    ∃ b es, bytes = .ok b ∧ format.decode b = .ok es ∧ a = ⟨b, .ofList es⟩

variable {format : Format} {w : Workspace}

theorem opensAs_ofBytes (b : ByteArray) (format : Format) (w : Workspace) :
    OpensAs format (.ok b) w ((some <$> ofBytes b format) w) := by
  rw [Action.map_run, ofBytes_run]
  split
  · exact ⟨rfl, rfl, nofun⟩
  · cases decoded : format.decode b with
    | error f => exact ⟨w.files_count _ _, w.clock_count _ _, nofun⟩
    | ok es =>
        refine ⟨w.files_count _ _, w.clock_count _ _, fun a ha => ?_⟩
        cases ha
        exact ⟨b, es, rfl, decoded, rfl⟩

theorem opensAs_ofFile (path : String) (format : Format) (w : Workspace) :
    OpensAs format (w.files.read path) w ((some <$> ofFile path format) w) := by
  rw [Action.map_run, ofFile_run]
  cases w.files.read path with
  | error f => exact ⟨rfl, rfl, nofun⟩
  | ok b =>
      have h := opensAs_ofBytes b format w
      rw [Action.map_run] at h
      exact h

/-- Expecting failures makes no difference to what is opened. -/
theorem OpensAs.attempt {bytes : Except Failure ByteArray} {opening : Action Archive}
    (h : OpensAs format bytes w ((some <$> opening) w)) (source : String)
    (isExpected : Failure → Bool) : OpensAs format bytes w (attempt source isExpected opening w) := by
  rw [Action.map_run] at h
  rw [attempt_run]
  rcases hopening : opening w with ⟨f | a, w'⟩ <;> rw [hopening] at h
  · dsimp only
    split
    · exact ⟨h.files, h.clock, nofun⟩
    · exact ⟨h.files, h.clock, nofun⟩
  · exact h

/-- **All that opening an archive does**, from wherever. -/
theorem opensAs_openFrom (location : Location) (isQuiet : Bool) (format : Format) (w : Workspace) :
    OpensAs format (bytesAt w.files location) w
      (Session.openFrom location isQuiet format w) := by
  have fromBytes (b : ByteArray) : OpensAs format (.ok b) w
      ((if isQuiet then ofBytes? b format else some <$> ofBytes b format) w) := by
    cases isQuiet with
    | false => exact opensAs_ofBytes b format w
    | true => exact (opensAs_ofBytes b format w).attempt _ _
  cases location with
  | bytes b => exact fromBytes b
  | bytesOf path =>
      rw [Session.openFrom, Action.bind_run, Action.get_run]
      dsimp only [bytesAt]
      cases w.files.read path with
      | error f => exact ⟨rfl, rfl, nofun⟩
      | ok b => exact fromBytes b
  | file path =>
      cases isQuiet with
      | false => exact opensAs_ofFile path format w
      | true => exact (opensAs_ofFile path format w).attempt _ _

end Archive

namespace Desk

variable {ι κ : Type}

/-- What an action makes, if it ends well and makes something. -/
def made {α : Type} : Except Failure (Option α) → Option α
  | .ok a => a
  | .error _ => none

/-- An empty desk. -/
def start (w : Workspace) : Desk ι κ := ⟨w, fun _ => none, fun _ => none⟩

/-- The workspace before an event: nothing is noted yet. -/
def fresh (D : Desk ι κ) : Workspace := { D.workspace with log := [] }

variable {D E : Desk ι κ} {w : Workspace} {es : List (Event ι κ)} {e : Event ι κ} {i k : ι} {j : κ}
  {path : String} {isQuiet : Bool} {format : Format} {op : Operation}

section Steps

variable [DecidableEq ι] [DecidableEq κ]

/-- One event, and what it reports.  Under every key a draft is created once; nothing can be done with
a draft that is not there. -/
def step (D : Desk ι κ) : Event ι κ → Desk ι κ × Report
  | .create i path isQuiet format =>
    match D.drafts i with
    | some _ => (D, ⟨none, .nothing, []⟩)
    | none =>
      let (result, w) := Draft.creation path isQuiet format D.fresh
      (⟨w, Function.update D.drafts i (made result), D.archives⟩, .of result w.log)
  | .operate i op =>
    match D.drafts i with
    | none => (D, ⟨none, .nothing, []⟩)
    | some d =>
      let ((d', failure), w) := d.perform op D.fresh
      (⟨w, Function.update D.drafts i (some d'), D.archives⟩,
        ⟨failure, d.answer op D.fresh, w.log⟩)
  | .openArchive j location isQuiet format =>
    let (result, w) := Session.openFrom location isQuiet format D.fresh
    (⟨w, D.drafts, Function.update D.archives j (made result)⟩, .of result w.log)

/-- Events one after the other. -/
def run (D : Desk ι κ) (es : List (Event ι κ)) : Desk ι κ :=
  es.foldl (fun D e => (D.step e).1) D

/-- What becomes of a draft: after every event that is about it, the draft and what the event
reports. -/
def trace (i : ι) (D : Desk ι κ) : List (Event ι κ) → List (Option Draft × Report)
  | [] => []
  | e :: es =>
    if e.isOf i then ((D.step e).1.drafts i, (D.step e).2) :: (D.step e).1.trace i es
    else (D.step e).1.trace i es

/-! ### Steps -/

theorem run_cons (D : Desk ι κ) (e : Event ι κ) (es : List (Event ι κ)) :
    D.run (e :: es) = (D.step e).1.run es := rfl

theorem run_append (D : Desk ι κ) (es es' : List (Event ι κ)) :
    D.run (es ++ es') = (D.run es).run es' := List.foldl_append

theorem step_create_taken {d : Draft} (h : D.drafts i = some d) :
    D.step (.create i path isQuiet format) = (D, ⟨none, .nothing, []⟩) := by
  simp only [step, h]

theorem step_create_opened (isQuiet : Bool) (format : Format) {files : FileTree} {place : Place}
    (h : D.drafts i = none)
    (opened : D.workspace.files.openEmpty path = .ok (files, place)) :
    D.step (.create i path isQuiet format) =
      (⟨{ D.fresh with files := files },
        Function.update D.drafts i (some (Draft.new path format place)), D.archives⟩,
        ⟨none, .nothing, []⟩) := by
  have created := Draft.creation_eq path isQuiet format D.fresh
  rw [show D.fresh.files = D.workspace.files from rfl, opened] at created
  simp only [step, h, created]
  rfl

theorem step_create_refused (isQuiet : Bool) (format : Format) {f : Failure}
    (h : D.drafts i = none)
    (refused : D.workspace.files.openEmpty path = .error f) :
    ∃ log, D.step (.create i path isQuiet format) =
      ({ D with workspace := { D.workspace with log := log } }, .refused path isQuiet f) := by
  have created := Draft.creation_eq path isQuiet format D.fresh
  rw [show D.fresh.files = D.workspace.files from rfl, refused] at created
  have unchanged : Function.update D.drafts i none = D.drafts :=
    Function.update_eq_self_iff.mpr h.symm
  cases hq : isQuiet && f.isFileFailure with
  | true =>
      simp only [hq, if_true] at created
      refine ⟨[.notWritable path f], ?_⟩
      simp only [step, h, created, made, unchanged, Report.refused, hq, if_true]
      rfl
  | false =>
      simp only [hq, Bool.false_eq_true, if_false] at created
      refine ⟨[], ?_⟩
      simp only [step, h, created, made, unchanged, Report.refused, hq, Bool.false_eq_true,
        if_false]
      rfl

theorem step_operate_none (h : D.drafts i = none) :
    D.step (.operate i op) = (D, ⟨none, .nothing, []⟩) := by
  simp only [step, h]

theorem step_operate {d d' : Draft} {failure : Option Failure} {w' : Workspace}
    (h : D.drafts i = some d) (performed : d.perform op D.fresh = ((d', failure), w')) :
    D.step (.operate i op) =
      (⟨w', Function.update D.drafts i (some d'), D.archives⟩,
        ⟨failure, d.answer op D.fresh, w'.log⟩) := by
  simp only [step, h, performed]

end Steps

/-! ### Soundness -/

/-- The draft is to be created on a path that leads to the place, and a file can be put there. -/
def Destined (w : Workspace) (es : List (Event ι κ)) (i : ι) (p : Place) : Prop :=
  ∃ path isQuiet format, .create i path isQuiet format ∈ es ∧ w.files.locate path = .ok p ∧
    w.files.node? p ≠ some .directory

/-- The state of a desk on which some of the events have happened, from the workspace on. -/
structure Sound (w : Workspace) (es : List (Event ι κ)) (D : Desk ι κ) : Prop where
  clock : D.workspace.clock = w.clock
  extending : w.files.Extends D.workspace.files
  destined : ∀ i d p, D.drafts i = some d → d.destination = some p → Destined w es i p

theorem Sound.start (w : Workspace) (es : List (Event ι κ)) : Sound w es (start w) where
  clock := rfl
  extending := .refl w.files
  destined _ _ _ h := nomatch h

/-- No directory stands where a draft is destined to. -/
theorem Sound.node?_ne (hD : Sound w es D) {p : Place} (hp : Destined w es i p) :
    D.workspace.files.node? p ≠ some .directory := by
  obtain ⟨-, -, -, -, -, hnode⟩ := hp
  exact fun h => hnode ((hD.extending.directories p).mpr h)

/-- What becomes of a draft in an event, and what the event reports, on two desks: the same, or the
draft is refused on both, where for the one the way ends and for the other it comes upon a file. -/
inductive Agrees : Option Draft × Report → Option Draft × Report → Prop where
  | same (x : Option Draft × Report) : Agrees x x
  | refused (path : String) (isQuiet : Bool) :
      Agrees (none, .refused path isQuiet (.file .notFound path))
        (none, .refused path isQuiet (.file .notDirectory path))

theorem Agrees.draft {x y : Option Draft × Report} (h : Agrees x y) : x.1 = y.1 := by
  cases h <;> rfl

/-- All is the same where a draft comes out. -/
theorem Agrees.eq {x y : Option Draft × Report} (h : Agrees x y) (hx : x.1 ≠ none) : x = y := by
  cases h with
  | same => rfl
  | refused => exact absurd rfl hx

/-- What an event of a draft does to two desks. -/
structure SameStep (w : Workspace) (es : List (Event ι κ)) (i : ι) (D E D' E' : Desk ι κ)
    (r r' : Report) : Prop where
  outcome : Agrees (D'.drafts i, r) (E'.drafts i, r')
  files : FileTree.Change (Destined w es i) D.workspace.files E.workspace.files
    D'.workspace.files E'.workspace.files
  destined : ∀ d p, D'.drafts i = some d → d.destination = some p → Destined w es i p
  clock : D'.workspace.clock = D.workspace.clock
  others : ∀ k, k ≠ i → D'.drafts k = D.drafts k

/-- The draft stays as it is, and nothing but the log changes. -/
theorem SameStep.kept (hD : Sound w es D) {r r' : Report}
    (outcome : Agrees (D.drafts i, r) (E.drafts i, r')) (log log' : List Notice) :
    SameStep w es i D E { D with workspace := { D.workspace with log := log } }
      { E with workspace := { E.workspace with log := log' } } r r' where
  outcome := outcome
  files := .nothing
  destined d p := hD.destined i d p
  clock := rfl
  others _ _ := rfl

/-- Where a path leads on a desk is where it led in the beginning. -/
theorem Sound.destined_of_locate (hD : Sound w es D) {p : Place}
    (he : .create i path isQuiet format ∈ es) (located : D.workspace.files.locate path = .ok p)
    (hnode : D.workspace.files.node? p ≠ some .directory) : Destined w es i p := by
  refine ⟨path, isQuiet, format, he, ?_, fun h => hnode ((hD.extending.directories p).mp h)⟩
  rcases hD.extending.locate path with heq | ⟨-, hfile⟩
  · exact heq ▸ located
  · rw [hfile] at located
    cases located

/-- Where a file can be opened in the beginning, it can be opened on a desk. -/
theorem Sound.openEmpty (hD : Sound w es D) {p : Place} (located : w.files.locate path = .ok p)
    (hp : w.files.node? p ≠ some .directory) :
    D.workspace.files.openEmpty path =
      .ok (D.workspace.files.set p (.file ByteArray.empty), p) :=
  FileTree.openEmpty_of_locate
    (FileTree.locate_of_keeps (fun q => (hD.extending.directories q).mp) located)
    fun h => hp ((hD.extending.directories p).mpr h)

variable [DecidableEq ι]

/-- The draft becomes another. -/
theorem SameStep.replaced {d : Draft} {wD wE : Workspace}
    (files : FileTree.Change (Destined w es i) D.workspace.files E.workspace.files wD.files wE.files)
    (destined : ∀ p, d.destination = some p → Destined w es i p)
    (clock : wD.clock = D.workspace.clock) (r : Report) :
    SameStep w es i D E ⟨wD, Function.update D.drafts i (some d), D.archives⟩
      ⟨wE, Function.update E.drafts i (some d), E.archives⟩ r r where
  outcome := by
    simp only [Function.update_self]
    exact .same _
  files := files
  destined d' p hd := by
    simp only [Function.update_self, Option.some.injEq] at hd
    exact hd ▸ destined p
  clock := clock
  others _ hk := Function.update_of_ne hk _ _

/-- An event is about a draft or opens an archive. -/
theorem isOf_or_openArchive (e : Event ι κ) :
    (∃ i, e.isOf i = true) ∨
      ∃ j location isQuiet format, e = .openArchive j location isQuiet format := by
  cases e with
  | create i _ _ _ | operate i _ => exact .inl ⟨i, decide_eq_true rfl⟩
  | openArchive j location isQuiet format => exact .inr ⟨j, location, isQuiet, format, rfl⟩

variable [DecidableEq κ]

/-- **An event of a draft does the same on two desks that agree on it.** -/
theorem sameDraft_step (he : e ∈ es) (hi : e.isOf i = true) (hD : Sound w es D)
    (hE : Sound w es E) (extending : D.workspace.files.Extends E.workspace.files)
    (same : D.drafts i = E.drafts i) :
    SameStep w es i D E (D.step e).1 (E.step e).1 (D.step e).2 (E.step e).2 := by
  cases e with
  | openArchive j location isQuiet format => cases hi
  | create k path isQuiet format =>
      obtain rfl : k = i := of_decide_eq_true hi
      cases h : D.drafts k with
      | some d =>
          rw [step_create_taken h, step_create_taken (same ▸ h)]
          exact .kept hD (same ▸ .same _) D.workspace.log E.workspace.log
      | none =>
          have h' := same ▸ h
          rcases extending.openEmpty path with ⟨p, located, hnode, opened, opened'⟩ | refused
          · have hp := hD.destined_of_locate he located hnode
            rw [step_create_opened _ _ h opened, step_create_opened _ _ h' opened']
            refine SameStep.replaced (D := D) (E := E) ?_ (fun q hq => ?_) ?_ _
            · exact .empty hp
            · cases hq
              exact hp
            · rfl
          · obtain ⟨f, f', refused, refused', agree⟩ : ∃ f f',
                D.workspace.files.openEmpty path = .error f ∧
                E.workspace.files.openEmpty path = .error f' ∧
                Agrees (D.drafts k, .refused path isQuiet f)
                  (E.drafts k, .refused path isQuiet f') := by
              rw [h, h']
              rcases refused with ⟨f, refused, refused'⟩ | ⟨refused, refused'⟩
              · exact ⟨f, f, refused, refused', .same _⟩
              · exact ⟨_, _, refused, refused', .refused path isQuiet⟩
            obtain ⟨log, hD'⟩ := step_create_refused isQuiet format h refused
            obtain ⟨log', hE'⟩ := step_create_refused isQuiet format h' refused'
            rw [hD', hE']
            exact .kept hD agree log log'
  | operate k op =>
      obtain rfl : k = i := of_decide_eq_true hi
      cases h : D.drafts k with
      | none =>
          rw [step_operate_none h, step_operate_none (same ▸ h)]
          exact .kept hD (same ▸ .same _) D.workspace.log E.workspace.log
      | some d =>
          obtain ⟨d', r, written, kept, place, performed⟩ := d.perform_eq op w.clock
          obtain ⟨wD, hperform, hanswer, hlog, hclock, hfiles⟩ := performed D.fresh hD.clock
          obtain ⟨wE, hperform', hanswer', hlog', -, hfiles'⟩ := performed E.fresh hE.clock
          rw [step_operate h hperform, step_operate (same ▸ h) hperform', hanswer, hanswer', hlog,
            hlog']
          refine SameStep.replaced (D := D) (E := E) ?_ (fun q hq => ?_)
            (hclock.trans hD.clock.symm) _
          · rw [hfiles, hfiles']
            cases written with
            | none => exact .nothing
            | some write =>
                exact .overwrite (hD.destined k d write.1 h (place write.1 write.2 rfl)) write.2
          · rcases kept with kept | kept
            · exact hD.destined k d q h (kept ▸ hq)
            · rw [kept] at hq
              cases hq

/-- Opening an archive changes nothing but the log, and the archive. -/
theorem step_openArchive (j : κ) (location : Location) (isQuiet : Bool) (format : Format) :
    (D.step (.openArchive j location isQuiet format)).1.drafts = D.drafts ∧
      (D.step (.openArchive j location isQuiet format)).1.workspace.files = D.workspace.files ∧
      (D.step (.openArchive j location isQuiet format)).1.workspace.clock = D.workspace.clock :=
  have opening := Archive.opensAs_openFrom location isQuiet format D.fresh
  ⟨rfl, opening.files, opening.clock⟩

/-- No event takes a file away, or makes or removes a directory. -/
theorem Sound.extends_step (hD : Sound w es D) (he : e ∈ es) :
    D.workspace.files.Extends (D.step e).1.workspace.files := by
  rcases isOf_or_openArchive e with ⟨i, hi⟩ | ⟨j, location, isQuiet, format, rfl⟩
  · exact (sameDraft_step he hi hD hD (.refl _) rfl).files.extends fun p => hD.node?_ne
  · rw [(step_openArchive j location isQuiet format).2.1]
    exact .refl _

/-- **Every event leaves a sound desk.** -/
theorem Sound.step (hD : Sound w es D) (he : e ∈ es) : Sound w es (D.step e).1 := by
  have extending := hD.extending.trans (hD.extends_step he)
  rcases isOf_or_openArchive e with ⟨i, hi⟩ | ⟨j, location, isQuiet, format, rfl⟩
  · have h := sameDraft_step he hi hD hD (.refl _) rfl
    refine ⟨h.clock.trans hD.clock, extending, fun k d p hd hp => ?_⟩
    by_cases hk : k = i
    · exact hk ▸ h.destined d p (hk ▸ hd) hp
    · exact hD.destined k d p (h.others k hk ▸ hd) hp
  · obtain ⟨hdrafts, -, hclock⟩ := step_openArchive (D := D) j location isQuiet format
    exact ⟨hclock.trans hD.clock, extending, fun i d p hd => hD.destined i d p (hdrafts ▸ hd)⟩

theorem Sound.run {rest : List (Event ι κ)} (hD : Sound w es D) (sub : ∀ e ∈ rest, e ∈ es) :
    Sound w es (D.run rest) := by
  induction rest generalizing D with
  | nil => exact hD
  | cons e rest ih =>
      exact ih (hD.step (sub e List.mem_cons_self)) fun e' he' => sub e' (List.mem_cons_of_mem e he')

/-- **An event leaves alone what it is not about**: other drafts, and the places where its draft is
not destined to. -/
theorem step_other (hD : Sound w es D) (he : e ∈ es) (hi : e.isOf i = false) :
    (D.step e).1.drafts i = D.drafts i ∧
      ∀ p, (∀ k, e.isOf k = true → ¬ Destined w es k p) →
        (D.step e).1.workspace.files.node? p = D.workspace.files.node? p := by
  rcases isOf_or_openArchive e with ⟨k, hk⟩ | ⟨j, location, isQuiet, format, rfl⟩
  · have h := sameDraft_step he hk hD hD (.refl _) rfl
    have hne : i ≠ k := by
      rintro rfl
      exact Bool.noConfusion (hi.symm.trans hk)
    exact ⟨h.others i hne, fun p hp => h.files.node?_eq (fun q => hD.node?_ne) (hp k hk)⟩
  · obtain ⟨hdrafts, hfiles, -⟩ := step_openArchive (D := D) j location isQuiet format
    exact ⟨by rw [hdrafts], fun p _ => by rw [hfiles]⟩

end Desk

end ZipContainer
