import Mathlib.Data.List.Forall2
import ZipContainer.Proofs.Draft.Desk
import ZipContainer.Proofs.Draft.Fidelity

/-!
# Drafts do not disturb each other

A run of any events on a desk is compared with the run of those events that are about one draft
(`drafts_independent`).  The two runs are related after every event (`AgreeOn`): an event of the draft
happens on both desks and does the same there, and any other event happens on the one desk only and
spares the draft (`AgreeOn.own`, `AgreeOn.other`).

So far it does not matter where the drafts are written to.  The bytes at a destination are the same as
well if no other draft is destined to that place (`AgreeOn.node?_run`).

An opened archive is not touched by anything but opening another in its stead (`archives_run`).
-/

namespace ZipContainer.Desk

variable {ι κ : Type} {D E : Desk ι κ} {w : Workspace} {es rest : List (Event ι κ)} {e : Event ι κ}
  {i : ι} {j : κ} {p : Place}

/-! ### Two desks -/

/-- Two desks on which some of the events have happened, on the second perhaps more, agree on a
draft. -/
structure AgreeOn (w : Workspace) (es : List (Event ι κ)) (i : ι) (D E : Desk ι κ) : Prop where
  left : Sound w es D
  right : Sound w es E
  extending : D.workspace.files.Extends E.workspace.files
  draft : D.drafts i = E.drafts i

theorem AgreeOn.refl (hD : Sound w es D) (i : ι) : AgreeOn w es i D D :=
  ⟨hD, hD, .refl _, rfl⟩

/-- What a path leads to on a desk is what stands where it led in the beginning. -/
theorem Sound.read_eq_ok_iff (hD : Sound w es D) {path : String} {b : ByteArray} :
    D.workspace.files.read path = .ok b ↔
      ∃ p, w.files.locate path = .ok p ∧ D.workspace.files.node? p = some (.file b) := by
  rw [FileTree.read_eq_ok_iff]
  refine exists_congr fun p => ⟨fun h => ⟨?_, h.node⟩, fun h => ⟨?_, h.2⟩⟩
  · rcases hD.extending.locate path with heq | ⟨-, hfile⟩
    · exact heq ▸ h.locate
    · exact nomatch hfile.symm.trans h.locate
  · exact FileTree.locate_of_keeps (fun q => (hD.extending.directories q).mp) h.1

variable [DecidableEq ι] [DecidableEq κ]

theorem AgreeOn.own (h : AgreeOn w es i D E) (he : e ∈ es) (hi : e.isOf i = true) :
    AgreeOn w es i (D.step e).1 (E.step e).1 :=
  have same := sameDraft_step he hi h.left h.right h.extending h.draft
  ⟨h.left.step he, h.right.step he,
    same.files.extends_congr (fun _ => h.left.node?_ne) h.extending, same.outcome.draft⟩

theorem AgreeOn.other (h : AgreeOn w es i D E) (he : e ∈ es) (hi : e.isOf i = false) :
    AgreeOn w es i D (E.step e).1 :=
  ⟨h.left, h.right.step he, h.extending.trans (h.right.extends_step he),
    h.draft.trans (step_other h.right he hi).1.symm⟩

/-- **Desks that agree on a draft still do after the events of a run**, on the one only those of the
draft. -/
theorem AgreeOn.run (h : AgreeOn w es i D E) (sub : ∀ e ∈ rest, e ∈ es) :
    AgreeOn w es i (D.run (rest.filter (·.isOf i))) (E.run rest) ∧
      List.Forall₂ Agrees (D.trace i (rest.filter (·.isOf i))) (E.trace i rest) := by
  induction rest generalizing D E with
  | nil => exact ⟨h, .nil⟩
  | cons e rest ih =>
      have he := sub e List.mem_cons_self
      have sub' : ∀ e ∈ rest, e ∈ es := fun e' he' => sub e' (List.mem_cons_of_mem e he')
      cases hi : e.isOf i with
      | true =>
          have same := sameDraft_step he hi h.left h.right h.extending h.draft
          obtain ⟨agree, trace⟩ := ih (h.own he hi) sub'
          rw [List.filter_cons_of_pos hi]
          simp only [Desk.trace, hi, if_true]
          exact ⟨agree, .cons same.outcome trace⟩
      | false =>
          rw [List.filter_cons_of_neg (by simp [hi])]
          simp only [Desk.trace, hi, Bool.false_eq_true, if_false]
          exact ih (h.other he hi) sub'

/-- **Where no other draft is destined to, the runs leave the same.** -/
theorem AgreeOn.node?_run (h : AgreeOn w es i D E) (sub : ∀ e ∈ rest, e ∈ es)
    (alone : ∀ k, Destined w es k p → k = i)
    (same : D.workspace.files.node? p = E.workspace.files.node? p) :
    (D.run (rest.filter (·.isOf i))).workspace.files.node? p =
      (E.run rest).workspace.files.node? p := by
  induction rest generalizing D E with
  | nil => exact same
  | cons e rest ih =>
      have he := sub e List.mem_cons_self
      have sub' : ∀ e ∈ rest, e ∈ es := fun e' he' => sub e' (List.mem_cons_of_mem e he')
      cases hi : e.isOf i with
      | true =>
          have step := sameDraft_step he hi h.left h.right h.extending h.draft
          rw [List.filter_cons_of_pos hi]
          exact ih (h.own he hi) sub' (step.files.node?_congr (fun _ => h.left.node?_ne)
            (fun _ => h.right.node?_ne) same)
      | false =>
          rw [List.filter_cons_of_neg (by simp [hi])]
          refine ih (h.other he hi) sub' (same.trans (Eq.symm ?_))
          refine (step_other h.right he hi).2 p fun k hk hp => ?_
          rw [alone k hp, hi] at hk
          cases hk

/-! ### Opened archives -/

theorem step_archives (D : Desk ι κ) (h : e.opens j = false) :
    (D.step e).1.archives j = D.archives j := by
  cases e with
  | create i path isQuiet format | operate i op =>
      simp only [step]
      split <;> rfl
  | openArchive k location isQuiet format =>
      have other : j ≠ k := fun heq => of_decide_eq_false h heq.symm
      exact Function.update_of_ne other _ _

/-- **An opened archive stays what it is**, until another is opened in its stead. -/
theorem archives_run (D : Desk ι κ) (h : ∀ e ∈ rest, e.opens j = false) :
    (D.run rest).archives j = D.archives j := by
  induction rest generalizing D with
  | nil => rfl
  | cons e rest ih =>
      exact (ih _ fun e' he' => h e' (List.mem_cons_of_mem e he')).trans
        (step_archives D (h e List.mem_cons_self))

/-- An archive shows the entries that the format found in the bytes it was opened from. -/
theorem archives_opened {location : Location} {isQuiet : Bool} {format : Format} {a : Archive}
    (h : (D.step (.openArchive j location isQuiet format)).1.archives j = some a) :
    ∃ b listed, Archive.bytesAt D.workspace.files location = .ok b ∧
      format.decode b = .ok listed ∧ a.data = b ∧ a.Shows listed := by
  have opening := Archive.opensAs_openFrom location isQuiet format D.fresh
  have opened : made (Session.openFrom location isQuiet format D.fresh).1 = some a :=
    (Function.update_self j _ D.archives).symm.trans h
  cases hresult : (Session.openFrom location isQuiet format D.fresh).1 with
  | error f =>
      rw [hresult] at opened
      cases opened
  | ok a' =>
      rw [hresult] at opened
      obtain ⟨b, listed, bytes, decoded, rfl⟩ := opening.archive a (hresult.trans (congrArg _ opened))
      exact ⟨b, listed, bytes, decoded, rfl, Archive.shows_ofList b listed⟩

/-! ### Independence -/

/-- No other draft is destined to where the draft is. -/
def Alone (w : Workspace) (es : List (Event ι κ)) (i : ι) : Prop :=
  ∀ k p, Destined w es i p → Destined w es k p → k = i

/-- **Drafts do not disturb each other, and no draft disturbs an opened archive.**  Any number of
drafts are created, worked on and ended, and archives are opened, all in any order.

What becomes of a draft at each of its events, and what these return and report, is what it would be
if its own events alone happened.  The one difference there can be is between two refusals to create
it, which may be for another failure of the file system: where its own events alone find no file on
the way, the others may have put one there.  So there is none if it is created at once.  If no other
draft is destined to the same place, the draft leaves the same bytes there.

An archive that was opened is the same at the end, whatever happened since.  It has the bytes that it
was opened from and shows the entries that were found in them. -/
theorem drafts_independent (w : Workspace) (es : List (Event ι κ)) :
    (∀ i, let own := es.filter (·.isOf i)
      List.Forall₂ Agrees ((start w).trace i own) ((start w).trace i es) ∧
      ((∀ x ∈ (start w).trace i own, x.1 ≠ none) → (start w).trace i own = (start w).trace i es) ∧
      ((start w).run own).drafts i = ((start w).run es).drafts i ∧
      (Alone w es i → ∀ path isQuiet format, .create i path isQuiet format ∈ es → ∀ b,
        ((start w).run own).workspace.files.read path = .ok b ↔
          ((start w).run es).workspace.files.read path = .ok b)) ∧
    ∀ before j location isQuiet format after a,
      es = before ++ .openArchive j location isQuiet format :: after →
      (∀ e ∈ after, e.opens j = false) →
      ((start w).run (before ++ [.openArchive j location isQuiet format])).archives j = some a →
      ((start w).run es).archives j = some a ∧
        ∃ b listed, Archive.bytesAt ((start w).run before).workspace.files location = .ok b ∧
          format.decode b = .ok listed ∧ a.data = b ∧ a.Shows listed := by
  constructor
  · intro i own
    have start := AgreeOn.refl (.start w es) i
    obtain ⟨agree, trace⟩ := start.run fun e => id
    refine ⟨trace, fun created => ?_, agree.draft, fun alone path isQuiet format he b => ?_⟩
    · have both := (List.forall₂_and_left _ _).mpr ⟨created, trace⟩
      exact List.forall₂_eq_eq_eq ▸ both.imp fun x y h => h.2.eq h.1
    · rw [agree.left.read_eq_ok_iff, agree.right.read_eq_ok_iff]
      refine exists_congr fun p => and_congr_right fun located => ?_
      by_cases hnode : w.files.node? p = some .directory
      · rw [(agree.left.extending.directories p).mp hnode,
          (agree.right.extending.directories p).mp hnode]
      · have destined : Destined w es i p := ⟨path, isQuiet, format, he, located, hnode⟩
        rw [start.node?_run (fun e => id) (fun k => alone k p destined) rfl]
  · rintro before j location isQuiet format after a rfl unopened opened
    rw [run_append] at opened
    rw [run_append, run_cons]
    exact ⟨(archives_run _ unopened).trans opened, archives_opened opened⟩

/-- Two drafts at a time, the one on a file that an archive was opened from: each leaves what its
format made, and the archive still shows what the file held. -/
theorem reopened_file_rewritten :
    let listed : List Entry := [⟨"old", bytesOf [1]⟩]
    let format (b : UInt8) : Format := .scripted (.ok listed) (.ok (bytesOf [b])) none
    let w : Workspace :=
      ⟨FileTree.empty.set ["a"] (.file Zip.emptyArchive), ⟨2020, 2, 3, 4, 5, 6⟩, #[], []⟩
    let es : List (Event Bool Unit) := [.openArchive () (.file "a") true (format 0),
      .create true "b" false (format 2), .create false "a" false (format 1),
      .operate true (.add (.text "x") (.text "y")), .operate false .giveUp,
      .operate true (.leave none), .operate false .finish]
    let D : Desk Bool Unit := (start w).run es
    D.workspace.files.read "a" = .ok (bytesOf [1]) ∧ D.workspace.files.read "b" = .ok (bytesOf [2]) ∧
      ∃ a, D.archives () = some a ∧ a.data = Zip.emptyArchive ∧ a.Shows listed := by
  intro listed format w es D
  obtain ⟨alike, stays⟩ := drafts_independent w es
  have destined (i : Bool) (p : Place) (h : Destined w es i p) : p = if i then ["b"] else ["a"] := by
    obtain ⟨path, isQuiet, format, he, located, -⟩ := h
    simp only [es, List.mem_cons, Event.create.injEq, reduceCtorEq, List.not_mem_nil, or_false,
      false_or] at he
    obtain ⟨rfl, rfl, -⟩ | ⟨rfl, rfl, -⟩ := he <;> exact (Except.ok.inj located).symm
  have alone (i : Bool) : Alone w es i := by
    intro k p hi hk
    cases i <;> cases k <;> first | rfl | exact nomatch (destined _ p hi).symm.trans (destined _ p hk)
  refine ⟨?_, ?_, ?_⟩
  · refine ((alike false).2.2.2 (alone false) "a" false (format 1) ?_ _).mp ?_
    · simp [es]
    · rfl
  · refine ((alike true).2.2.2 (alone true) "b" false (format 2) ?_ _).mp ?_
    · simp [es]
    · rfl
  · obtain ⟨opened, b, listed', bytes, decoded, data, shows⟩ :=
      stays [] () (.file "a") true (format 0) es.tail ⟨Zip.emptyArchive, .ofList listed⟩ rfl
        (by decide) rfl
    cases bytes
    cases decoded
    exact ⟨_, opened, data, shows⟩

end ZipContainer.Desk
