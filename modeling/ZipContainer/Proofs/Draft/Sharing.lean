import ZipContainer.Proofs.Draft.Independence

/-!
# Drafts that share a destination

Nothing keeps two drafts from the same destination.  Each cuts the file when it is created, and
writes to the start of it when it is ended, but does not cut it then.  So if one of them is ended after
the other, it leaves the end of a longer archive behind its own, unless it was created in between
(`shared_destination`).

What an event does at a place is one of three things: a new draft cuts what is there
(`node?_step_create`), ending a draft that takes entries writes over it (`step_ending`), and everything
else leaves it alone (`node?_run_of_idle`).
-/

namespace ZipContainer

open Draft (Operation accepted payload)

namespace Event

variable {ι κ : Type}

/-- The event ends a draft. -/
def isEnding : Event ι κ → Bool
  | .operate _ op => !op.isAdding
  | .create _ _ _ _ | .openArchive _ _ _ _ => false

end Event

namespace Desk

variable {ι κ : Type} {D : Desk ι κ} {w : Workspace}
  {es rest : List (Event ι κ)} {e : Event ι κ} {i j : ι} {p : Place} {path : String}
  {format : Format} {op : Operation} {ops : List Operation} {d : Draft}

/-- The draft was created and takes no more entries. -/
def Ended (D : Desk ι κ) (i : ι) : Prop := ∃ d, D.drafts i = some d ∧ d.takesEntries = false

theorem Ended.ne_none (h : Ended D i) : D.drafts i ≠ none := by
  obtain ⟨d, hd, -⟩ := h
  rw [hd]
  exact nofun

/-! ### Begun drafts -/

variable [DecidableEq ι]

/-- What is done with a draft that is still open: it is created on a path, and entries are added. -/
structure Begun (rest : List (Event ι κ)) (i : ι) (path : String) (format : Format)
    (ops : List Operation) : Prop where
  events : ∃ isQuiet,
    rest.filter (·.isOf i) = .create i path isQuiet format :: ops.map (.operate i)
  adding : ∀ op ∈ ops, op.isAdding = true

/-- Until it is ended no event of a draft ends it. -/
theorem Begun.isEnding_eq_false (h : Begun rest i path format ops) (he : e ∈ rest)
    (hi : e.isOf i = true) : e.isEnding = false := by
  obtain ⟨isQuiet, events⟩ := h.events
  have own : e ∈ rest.filter (·.isOf i) := List.mem_filter.mpr ⟨he, hi⟩
  rw [events, List.mem_cons, List.mem_map] at own
  rcases own with rfl | ⟨op, hop, rfl⟩
  · rfl
  · rw [Event.isEnding, h.adding op hop]
    rfl

theorem Begun.tail (h : Begun (e :: rest) i path format ops) (he : e.isOf i = false) :
    Begun rest i path format ops := by
  refine ⟨h.events.imp fun isQuiet events => ?_, h.adding⟩
  rwa [List.filter_cons_of_neg (by simp [he])] at events

/-- A draft that was begun in one of two runs was begun in the second, or has been in the first. -/
theorem Begun.of_append {a b : List (Event ι κ)} (h : Begun (a ++ b) i path format ops) :
    a.any (·.isOf i) = false ∧ Begun b i path format ops ∨
      a.any (·.isOf i) = true ∧ ∃ ops', Begun a i path format ops' := by
  obtain ⟨isQuiet, events⟩ := h.events
  rw [List.filter_append, List.append_eq_cons_iff] at events
  rcases events with ⟨none, events⟩ | ⟨more, some, events⟩
  · left
    refine ⟨List.any_eq_false.mpr (List.filter_eq_nil_iff.mp none), ⟨isQuiet, events⟩, h.adding⟩
  · right
    obtain ⟨ops', later, rfl, rfl, -⟩ := List.map_eq_append_iff.mp events
    have first : .create i path isQuiet format ∈ a.filter (·.isOf i) := some ▸ List.mem_cons_self
    exact ⟨List.any_eq_true.mpr ⟨_, List.mem_filter.mp first⟩, ops', ⟨isQuiet, some⟩,
      fun op hop => h.adding op (List.mem_append_left _ hop)⟩

variable [DecidableEq κ]

/-! ### Ended drafts -/

/-- A draft stays, and one that takes no more entries stays as it is. -/
theorem drafts_step_of_some (hD : Sound w es D) (he : e ∈ es) (h : D.drafts j = some d) :
    ∃ d', (D.step e).1.drafts j = some d' ∧ (d.takesEntries = false → d' = d) := by
  cases hj : e.isOf j with
  | false => exact ⟨d, (step_other hD he hj).1.trans h, fun _ => rfl⟩
  | true =>
      cases e with
      | openArchive _ _ _ _ => cases hj
      | create k path isQuiet format =>
          obtain rfl : k = j := of_decide_eq_true hj
          rw [step_create_taken h]
          exact ⟨d, h, fun _ => rfl⟩
      | operate k op =>
          obtain rfl : k = j := of_decide_eq_true hj
          obtain ⟨⟨⟨d', failure⟩, w'⟩, performed⟩ : ∃ r, d.perform op D.fresh = r := ⟨_, rfl⟩
          rw [step_operate h performed]
          refine ⟨d', Function.update_self k _ _, fun late => ?_⟩
          rw [Draft.perform_late late] at performed
          cases performed
          rfl

theorem Ended.step (h : Ended D j) (hD : Sound w es D) (he : e ∈ es) : Ended (D.step e).1 j := by
  obtain ⟨d, hd, late⟩ := h
  obtain ⟨d', hd', same⟩ := drafts_step_of_some hD he hd
  exact ⟨d', hd', same late ▸ late⟩

theorem Ended.run (h : Ended D j) (hD : Sound w es D) (sub : ∀ e ∈ rest, e ∈ es) :
    Ended (D.run rest) j := by
  induction rest generalizing D with
  | nil => exact h
  | cons e rest ih =>
      have he := sub e List.mem_cons_self
      exact ih (h.step hD he) (hD.step he) fun e' he' => sub e' (List.mem_cons_of_mem e he')

/-! ### Idle events -/

/-- What the events of a draft do that do not end it, or come after its end: nothing to the files,
unless it is a new draft whose file is opened. -/
theorem files_step_of_idle (hj : e.isOf j = true) (idle : Ended D j ∨ e.isEnding = false) :
    (D.step e).1.workspace.files = D.workspace.files ∨
      D.drafts j = none ∧ ∃ p, D.workspace.files.node? p ≠ some .directory ∧
        (D.step e).1.workspace.files = D.workspace.files.set p (.file ByteArray.empty) := by
  cases e with
  | openArchive _ _ _ _ => cases hj
  | create k path isQuiet format =>
      obtain rfl : k = j := of_decide_eq_true hj
      cases h : D.drafts k with
      | some d => exact .inl (by rw [step_create_taken h])
      | none =>
          cases hopen : D.workspace.files.openEmpty path with
          | error f =>
              obtain ⟨log, refused⟩ := step_create_refused isQuiet format h hopen
              exact .inl (by rw [refused])
          | ok opened =>
              obtain ⟨-, hnode, hfiles⟩ := FileTree.openEmpty_eq_ok hopen
              refine .inr ⟨rfl, opened.2, hnode, ?_⟩
              rw [step_create_opened _ _ h hopen, hfiles]
  | operate k op =>
      obtain rfl : k = j := of_decide_eq_true hj
      left
      cases h : D.drafts k with
      | none => rw [step_operate_none h]
      | some d =>
          cases takes : d.takesEntries with
          | false => rw [step_operate h (Draft.perform_late takes D.fresh)]; rfl
          | true =>
              rcases idle with ⟨d', hd', late⟩ | adding
              · obtain rfl : d = d' := Option.some.inj (h.symm.trans hd')
                exact Bool.noConfusion (takes.symm.trans late)
              · have adding : op.isAdding = true := by simpa [Event.isEnding] using adding
                rw [step_operate h (Draft.perform_adding adding takes D.fresh)]
                rfl

/-- A place that no event writes to stays as it is, unless a new draft cuts it. -/
theorem node?_step_of_idle (hD : Sound w es D) (he : e ∈ es)
    (idle : ∀ j, e.isOf j = true → Destined w es j p → Ended D j ∨ e.isEnding = false) :
    (D.step e).1.workspace.files.node? p = D.workspace.files.node? p ∨
      (D.step e).1.workspace.files.node? p = some (.file ByteArray.empty) ∧
        ∃ j, e.isOf j = true ∧ Destined w es j p ∧ D.drafts j = none := by
  by_cases hp : ∃ j, e.isOf j = true ∧ Destined w es j p
  · obtain ⟨j, hj, hp⟩ := hp
    rcases files_step_of_idle hj (idle j hj hp) with same | ⟨fresh, q, hq, cut⟩
    · exact .inl (by rw [same])
    · rw [cut, FileTree.node?_set_file hq]
      split
      · exact .inr ⟨rfl, j, hj, hp, fresh⟩
      · exact .inl rfl
  · rcases isOf_or_openArchive e with ⟨j, hj⟩ | ⟨j, location, isQuiet, format, rfl⟩
    · have step := sameDraft_step he hj hD hD (.refl _) rfl
      exact .inl (step.files.node?_eq (fun q => hD.node?_ne) fun h => hp ⟨j, hj, h⟩)
    · exact .inl (by rw [(step_openArchive j location isQuiet format).2.1])

/-- **A place that no event of a run writes to stays as it is**, unless a new draft cuts it. -/
theorem node?_run_of_idle (hD : Sound w es D) (sub : ∀ e ∈ rest, e ∈ es)
    (idle : ∀ e ∈ rest, ∀ j, e.isOf j = true → Destined w es j p →
      Ended D j ∨ e.isEnding = false) :
    (D.run rest).workspace.files.node? p = D.workspace.files.node? p ∨
      (D.run rest).workspace.files.node? p = some (.file ByteArray.empty) ∧
        ∃ e ∈ rest, ∃ j, e.isOf j = true ∧ Destined w es j p ∧ D.drafts j = none := by
  induction rest generalizing D with
  | nil => exact .inl rfl
  | cons e rest ih =>
      have he := sub e List.mem_cons_self
      have sub' : ∀ e ∈ rest, e ∈ es := fun e' he' => sub e' (List.mem_cons_of_mem e he')
      have first := node?_step_of_idle hD he (idle e List.mem_cons_self)
      have later := ih (hD.step he) sub' fun e' he' j hj hp =>
        (idle e' (List.mem_cons_of_mem e he') j hj hp).imp_left fun ended => ended.step hD he
      rcases later with same | ⟨cut, e', he', j, hj, hp, fresh⟩
      · rcases first with first | ⟨first, j, hj, hp, fresh⟩
        · exact .inl (same.trans first)
        · exact .inr ⟨same.trans first, e, List.mem_cons_self, j, hj, hp, fresh⟩
      · refine .inr ⟨cut, e', List.mem_cons_of_mem e he', j, hj, hp, ?_⟩
        cases h : D.drafts j with
        | none => rfl
        | some d =>
            obtain ⟨d', hd', -⟩ := drafts_step_of_some hD he h
            exact nomatch hd'.symm.trans fresh

/-- Where every draft is ended, nothing changes any more. -/
theorem node?_run_of_ended (hD : Sound w es D) (sub : ∀ e ∈ rest, e ∈ es)
    (ended : ∀ j, Destined w es j p → Ended D j) :
    (D.run rest).workspace.files.node? p = D.workspace.files.node? p := by
  refine (node?_run_of_idle hD sub fun _ _ j _ hp => .inl (ended j hp)).resolve_right ?_
  rintro ⟨-, e, -, j, -, hp, fresh⟩
  exact (ended j hp).ne_none fresh

/-! ### Files of begun drafts -/

theorem drafts_run_adding (h : D.drafts i = some d) (takes : d.takesEntries = true)
    (adding : ∀ op ∈ ops, op.isAdding = true) :
    (D.run (ops.map (.operate i))).drafts i = some (d.appendAll (accepted ops)) := by
  induction ops generalizing D d with
  | nil => exact h
  | cons op ops ih =>
      have first := step_operate h
        (Draft.perform_adding (adding op List.mem_cons_self) takes D.fresh)
      have later := ih (D := (D.step (.operate i op)).1) (d := d.appendAll op.entry?.toList)
        (by rw [first]; exact Function.update_self i _ _) takes
        fun op' hop' => adding op' (List.mem_cons_of_mem op hop')
      refine later.trans ?_
      rw [accepted, accepted, List.filterMap_cons]
      cases op.entry? <;> rfl

/-- Before a draft's first event it is as it was. -/
theorem drafts_run_of_filter (hD : Sound w es D) (sub : ∀ e ∈ rest, e ∈ es)
    (h : rest.filter (·.isOf i) = []) : (D.run rest).drafts i = D.drafts i := by
  have agree := ((AgreeOn.refl hD i).run sub).1.draft
  rw [h] at agree
  exact agree.symm

/-- **What a draft has become that was begun among any other events.** -/
theorem Begun.drafts_run (h : Begun rest i path format ops) (hD : Sound w es D)
    (sub : ∀ e ∈ rest, e ∈ es) (fresh : D.drafts i = none)
    (located : w.files.locate path = .ok p) (hp : w.files.node? p ≠ some .directory) :
    (D.run rest).drafts i = some ((Draft.new path format p).appendAll (accepted ops)) := by
  obtain ⟨isQuiet, events⟩ := h.events
  have agree := ((AgreeOn.refl hD i).run sub).1.draft
  rw [events, run_cons, step_create_opened _ _ fresh (hD.openEmpty located hp)] at agree
  refine agree.symm.trans (drafts_run_adding ?_ rfl h.adding)
  exact Function.update_self i _ _

/-- A new draft cuts its file. -/
theorem node?_step_create (hD : Sound w es D) (fresh : D.drafts i = none)
    (located : w.files.locate path = .ok p) (hp : w.files.node? p ≠ some .directory)
    (isQuiet : Bool) (format : Format) :
    (D.step (.create i path isQuiet format)).1.workspace.files.node? p =
      some (.file ByteArray.empty) := by
  rw [step_create_opened isQuiet format fresh (hD.openEmpty located hp)]
  have notDirectory := fun h => hp ((hD.extending.directories p).mpr h)
  exact (FileTree.node?_set_file notDirectory _ p).trans (if_pos rfl)

/-- **The file of a draft that was begun is empty**, if no other draft writes to it meanwhile. -/
theorem Begun.node?_run (h : Begun rest i path format ops) (hD : Sound w es D)
    (sub : ∀ e ∈ rest, e ∈ es) (fresh : D.drafts i = none)
    (located : w.files.locate path = .ok p) (hp : w.files.node? p ≠ some .directory)
    (idle : ∀ e ∈ rest, ∀ j, j ≠ i → e.isOf j = true → Destined w es j p →
      Ended D j ∨ e.isEnding = false) :
    (D.run rest).workspace.files.node? p = some (.file ByteArray.empty) := by
  obtain ⟨isQuiet, events⟩ := h.events
  obtain ⟨pre, post, rfl, before, -, -⟩ := List.filter_eq_cons_iff.mp events
  have subPre : ∀ e ∈ pre, e ∈ es := fun e he => sub e (List.mem_append_left _ he)
  have subPost : ∀ e ∈ post, e ∈ es := fun e he =>
    sub e (List.mem_append_right _ (List.mem_cons_of_mem _ he))
  have first : .create i path isQuiet format ∈ es :=
    sub _ (List.mem_append_right _ List.mem_cons_self)
  have noneBefore : pre.filter (·.isOf i) = [] :=
    List.filter_eq_nil_iff.mpr fun e he => by simpa using before e he
  have hpre := hD.run subPre
  have fresh' := (drafts_run_of_filter hD subPre noneBefore).trans fresh
  have cut := node?_step_create hpre fresh' located hp isQuiet format
  rw [run_append, run_cons]
  refine (node?_run_of_idle (hpre.step first) subPost fun e he j hj hp' => ?_).elim
    (fun same => same.trans cut) And.left
  have member : e ∈ pre ++ .create i path isQuiet format :: post :=
    List.mem_append_right _ (List.mem_cons_of_mem _ he)
  by_cases hji : j = i
  · exact .inr (h.isEnding_eq_false member (hji ▸ hj))
  · exact (idle e member j hji hj hp').imp_left
      fun ended => (ended.run hD subPre).step hpre first

/-! ### Ending -/

/-- **Ending a draft writes to the start of its file**, and leaves what stands beyond. -/
theorem step_ending (hD : Sound w es D) (h : D.drafts i = some d) (unfinished : d.isFinished = false)
    (opened : d.destination = some p) (ending : op.isAdding = false) :
    let b := payload (d.format.encode w.clock d.contents.toList)
    Ended (D.step (.operate i op)).1 i ∧
      (D.step (.operate i op)).1.workspace.files.node? p =
        some (.file (b ++ FileTree.beyond b.size (D.workspace.files.node? p))) := by
  intro b
  have clock : D.fresh.clock = w.clock := hD.clock
  have performed := Draft.perform_ending ending unfinished opened D.fresh
  rw [clock] at performed
  rw [step_operate h performed]
  refine ⟨⟨_, Function.update_self i _ _, rfl⟩, ?_⟩
  have notDirectory := hD.node?_ne (hD.destined i d p h opened)
  dsimp only
  rw [FileTree.overwrite_eq]
  exact (FileTree.node?_set_file notDirectory _ p).trans (if_pos rfl)

/-- What ending a draft does that was begun. -/
theorem Begun.step_ending (h : Begun rest i path format ops) (hD : Sound w es D)
    (sub : ∀ e ∈ rest, e ∈ es) (fresh : D.drafts i = none)
    (located : w.files.locate path = .ok p) (hp : w.files.node? p ≠ some .directory)
    (ending : op.isAdding = false) :
    let b := payload (format.encode w.clock (accepted ops))
    Ended ((D.run rest).step (.operate i op)).1 i ∧
      ((D.run rest).step (.operate i op)).1.workspace.files.node? p =
        some (.file (b ++ FileTree.beyond b.size ((D.run rest).workspace.files.node? p))) := by
  have became := h.drafts_run hD sub fresh located hp
  have ended := Desk.step_ending (hD.run sub) became rfl rfl ending
  have contents : ((Draft.new path format p).appendAll (accepted ops)).contents.toList =
      accepted ops := Contents.toList_ofList (accepted ops)
  rw [contents] at ended
  exact ended

theorem append_eq_left_iff {b b' : ByteArray} : b ++ b' = b ↔ b' = ByteArray.empty := by
  constructor
  · intro h
    have size := congrArg ByteArray.size h
    rw [ByteArray.size_append] at size
    exact ByteArray.size_eq_zero_iff.mp (Nat.add_eq_left.mp size)
  · rintro rfl
    exact ByteArray.append_empty

/-- **What a draft comes upon that is begun around an event**: what the event left, if it was begun
before, and an empty file else.  All other drafts of the place are ended by then. -/
theorem Begun.node?_run_around {a b : List (Event ι κ)} (h : Begun (a ++ e :: b) i path format ops)
    (hD : Sound w es D) (sub : ∀ e' ∈ a ++ e :: b, e' ∈ es) (fresh : D.drafts i = none)
    (located : w.files.locate path = .ok p) (hp : w.files.node? p ≠ some .directory)
    (hi : e.isOf i = false)
    (others : ∀ j, j ≠ i → Destined w es j p → Ended ((D.run a).step e).1 j) :
    (D.run (a ++ e :: b)).workspace.files.node? p =
      if a.any (·.isOf i) then ((D.run a).step e).1.workspace.files.node? p
      else some (.file ByteArray.empty) := by
  have subA : ∀ e' ∈ a, e' ∈ es := fun e' he' => sub e' (List.mem_append_left _ he')
  have subB : ∀ e' ∈ b, e' ∈ es := fun e' he' =>
    sub e' (List.mem_append_right _ (List.mem_cons_of_mem _ he'))
  have he : e ∈ es := sub e (List.mem_append_right _ List.mem_cons_self)
  have hA := hD.run subA
  have same := (step_other hA he hi).1
  rw [run_append, run_cons]
  rcases h.of_append with ⟨later, begun⟩ | ⟨earlier, ops', begun⟩
  · have fresh' := drafts_run_of_filter hD subA
      (List.filter_eq_nil_iff.mpr (List.any_eq_false.mp later))
    rw [if_neg (by simp [later])]
    exact (begun.tail hi).node?_run (hA.step he) subB (same.trans (fresh'.trans fresh)) located hp
      fun _ _ j hji _ hp => .inl (others j hji hp)
  · have here := begun.drafts_run hD subA fresh located hp
    rw [if_pos earlier]
    refine (node?_run_of_idle (hA.step he) subB fun e' he' j hj hp => ?_).resolve_right ?_
    · by_cases hji : j = i
      · exact .inr (h.isEnding_eq_false (List.mem_append_right _ (List.mem_cons_of_mem _ he'))
          (hji ▸ hj))
      · exact .inl (others j hji hp)
    · rintro ⟨-, e', -, j, -, hp, none⟩
      by_cases hji : j = i
      · rw [hji, same, here] at none
        cases none
      · exact (others j hji hp).ne_none none

/-- **What two drafts leave at a destination that they share.**  Both are created on paths that lead
to the same place, entries are added to them and they are ended, in any order, the first of them
before the second; other drafts are written to other places.  Whatever else happens meanwhile and
afterwards, the place then holds the archive of the second draft, or the smallest archive if that
could not be encoded.  If the second was created before the first was ended, this is followed by the
end of the archive of the first, as far as that is longer.  So just the archive of the second is there
exactly if it was created after the first was ended, or its archive is not shorter. -/
theorem shared_destination {w : Workspace} {es a b c : List (Event ι κ)} {i k : ι} {p : Place}
    {pathᵢ pathₖ : String} {formatᵢ formatₖ : Format} {opsᵢ opsₖ : List Operation}
    {lastᵢ lastₖ : Operation} (different : i ≠ k)
    (events : es = a ++ .operate i lastᵢ :: b ++ .operate k lastₖ :: c)
    (begunᵢ : Begun a i pathᵢ formatᵢ opsᵢ)
    (begunₖ : Begun (a ++ .operate i lastᵢ :: b) k pathₖ formatₖ opsₖ)
    (endingᵢ : lastᵢ.isAdding = false) (endingₖ : lastₖ.isAdding = false)
    (leadsᵢ : w.files.locate pathᵢ = .ok p) (leadsₖ : w.files.locate pathₖ = .ok p)
    (notDirectory : w.files.node? p ≠ some .directory)
    (others : ∀ j, Destined w es j p → j = i ∨ j = k) :
    let bᵢ := payload (formatᵢ.encode w.clock (accepted opsᵢ))
    let bₖ := payload (formatₖ.encode w.clock (accepted opsₖ))
    let left := if a.any (·.isOf k) then bᵢ.extract bₖ.size bᵢ.size else ByteArray.empty
    ((start w).run es).workspace.files.read pathᵢ = .ok (bₖ ++ left) ∧
      ((start w).run es).workspace.files.read pathₖ = .ok (bₖ ++ left) ∧
      (bₖ ++ left = bₖ ↔ a.any (·.isOf k) = false ∨ bᵢ.size ≤ bₖ.size) := by
  intro bᵢ bₖ left
  have sound := Sound.start w es
  have subᵢ : ∀ e ∈ a, e ∈ es := fun e he => by simp [events, he]
  have subₖ : ∀ e ∈ a ++ .operate i lastᵢ :: b, e ∈ es := fun e he =>
    events ▸ List.mem_append_left _ he
  have subB : ∀ e ∈ b, e ∈ es := fun e he => by simp [events, he]
  have inᵢ : .operate i lastᵢ ∈ es := by simp [events]
  have inₖ : .operate k lastₖ ∈ es := by simp [events]
  have soundᵢ := (sound.run subᵢ).step inᵢ
  -- The first draft is ended while its file is empty.
  have empty := begunᵢ.node?_run sound subᵢ rfl leadsᵢ notDirectory fun e he j hji hj hp =>
    .inr (begunₖ.isEnding_eq_false (List.mem_append_left _ he)
      ((others j hp).resolve_left hji ▸ hj))
  obtain ⟨endedᵢ, wroteᵢ⟩ := begunᵢ.step_ending sound subᵢ rfl leadsᵢ notDirectory endingᵢ
  rw [empty, FileTree.beyond_empty, ByteArray.append_empty] at wroteᵢ
  -- The second is ended on an empty file, if it was created since, and else on this archive.
  have upon := begunₖ.node?_run_around sound subₖ rfl leadsₖ notDirectory (decide_eq_false different)
    fun j hjk hp => (others j hp).resolve_right hjk ▸ endedᵢ
  obtain ⟨endedₖ, wroteₖ⟩ := begunₖ.step_ending sound subₖ rfl leadsₖ notDirectory endingₖ
  have beyond : FileTree.beyond bₖ.size
      (((start w).run (a ++ .operate i lastᵢ :: b)).workspace.files.node? p) = left := by
    rw [upon, wroteᵢ, apply_ite (FileTree.beyond bₖ.size), FileTree.beyond_empty]
    rfl
  rw [beyond] at wroteₖ
  -- Afterwards both are ended.
  have leaves : ((start w : Desk ι κ).run es).workspace.files.node? p =
      some (.file (bₖ ++ left)) := by
    rw [events, run_append, run_cons]
    refine (node?_run_of_ended ((sound.run subₖ).step inₖ) ?_ fun j hp => ?_).trans wroteₖ
    · exact fun e he => by simp [events, he]
    · rcases others j hp with rfl | rfl
      · rw [run_append]
        exact (endedᵢ.run soundᵢ subB).step (soundᵢ.run subB) inₖ
      · exact endedₖ
  have soundEnd : Sound w es ((start w).run es) := sound.run fun e => id
  refine ⟨soundEnd.read_eq_ok_iff.mpr ⟨p, leadsᵢ, leaves⟩,
    soundEnd.read_eq_ok_iff.mpr ⟨p, leadsₖ, leaves⟩, ?_⟩
  rw [append_eq_left_iff]
  cases earlier : a.any (·.isOf k) with
  | false => simp [left, earlier]
  | true => simp [left, earlier, ByteArray.extract_eq_empty_iff]

open scoped Zstandard in
/-- An entry of forty bytes is archived in a file, and then one of a single byte by a draft that was
created before that: the file holds neither archive. -/
theorem longer_archive_shows_behind :
    let w : Workspace := ⟨.empty, ⟨2020, 2, 3, 4, 5, 6⟩, #[], []⟩
    let format := Zip.format .stored none
    let long : Entry := ⟨"a", bytesOf (List.replicate 40 97)⟩
    let short : Entry := ⟨"b", bytesOf [98]⟩
    let es : List (Event Bool Unit) := [.create false "f" false format, .create true "./f" true format,
      .operate false (.addStrict (.text "a") (.bytes long.content)), .operate false .finish,
      .operate true (.add (.text "./b") (.bytes short.content)), .operate true (.leave none)]
    ∃ bᵢ bₖ b, Zip.encode .stored w.clock [long] = .ok bᵢ ∧
      Zip.encode .stored w.clock [short] = .ok bₖ ∧
      ((start w).run es).workspace.files.read "f" = .ok b ∧ b ≠ bᵢ ∧ b ≠ bₖ := by
  intro w format long short es
  have encodedᵢ : Zip.encode .stored w.clock [long] = _ := Zip.encode_eq_ok
    ⟨by decide, by decide, by decide +kernel, by decide +kernel, by decide +kernel, by decide +kernel⟩
  have encodedₖ : Zip.encode .stored w.clock [short] = _ := Zip.encode_eq_ok
    ⟨by decide, by decide, by decide +kernel, by decide +kernel, by decide +kernel, by decide +kernel⟩
  let opsᵢ : List Operation := [.addStrict (.text "a") (.bytes long.content)]
  let opsₖ : List Operation := [.add (.text "./b") (.bytes short.content)]
  have acceptedᵢ : accepted opsᵢ = [long] := by
    simp only [opsᵢ, accepted, List.filterMap_cons, Operation.entry?,
      Draft.entryFor_text (show EntryPath.normalize "a" = .ok "a" from rfl)]
    rfl
  have acceptedₖ : accepted opsₖ = [short] := by
    simp only [opsₖ, accepted, List.filterMap_cons, Operation.entry?,
      Draft.entryFor_text (show EntryPath.normalize "./b" = .ok "b" from rfl)]
    rfl
  have events : es = es.take 3 ++ .operate false .finish :: [es[4]] ++
      .operate true (.leave none) :: [] := rfl
  have begunᵢ : Begun (es.take 3) false "f" format opsᵢ := ⟨⟨false, rfl⟩, by decide⟩
  have begunₖ : Begun (es.take 3 ++ .operate false .finish :: [es[4]]) true "./f" format opsₖ :=
    ⟨⟨true, rfl⟩, by decide⟩
  have left := shared_destination (w := w) (p := ["f"]) (by decide) events begunᵢ begunₖ rfl rfl rfl
    rfl (by decide) fun j _ => by cases j <;> simp
  have payloadᵢ := congrArg payload encodedᵢ
  have payloadₖ := congrArg payload encodedₖ
  rw [acceptedᵢ, acceptedₖ] at left
  dsimp only [format, Zip.format] at left
  rw [payloadᵢ, payloadₖ] at left
  obtain ⟨read, -, complete⟩ := left
  refine ⟨_, _, _, encodedᵢ, encodedₖ, read, ?_, fun h => ?_⟩
  · decide +kernel
  · exact absurd (complete.mp h) (by decide +kernel)

end Desk

end ZipContainer
