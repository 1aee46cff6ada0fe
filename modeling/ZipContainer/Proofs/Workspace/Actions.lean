import ZipContainer.Workspace

/-!
# Actions as functions of the workspace

An action is a function from the workspace it begins in to its result and the workspace it ends
in.  What follows says so for every way in which actions are put together, so that an action is
opened by rewriting with these equations.
-/

namespace ZipContainer.Action

variable {α β : Type}

theorem pure_run (a : α) (w : Workspace) : (pure a : Action α) w = (.ok a, w) := rfl

theorem get_run (w : Workspace) : (get : Action Workspace) w = (.ok w, w) := rfl

theorem modify_run (g : Workspace → Workspace) (w : Workspace) :
    (modify g : Action PUnit) w = (.ok ⟨⟩, g w) := rfl

theorem lift_run (x : StateM Workspace α) (w : Workspace) :
    (liftM x : Action α) w = (.ok (x w).1, (x w).2) := rfl

theorem note_run (n : Notice) (w : Workspace) :
    note n w = (⟨⟩, { w with log := n :: w.log }) := rfl

/-- What follows an action happens if the action succeeds. -/
theorem bind_run (x : Action α) (f : α → Action β) (w : Workspace) :
    (x >>= f) w =
      match x w with
      | (.ok a, w') => f a w'
      | (.error e, w') => (.error e, w') := by
  show (match x w with | (r, w') => ExceptT.bindCont f r w') = _
  rcases x w with ⟨e | a, w'⟩ <;> rfl

theorem map_run (f : α → β) (x : Action α) (w : Workspace) :
    (f <$> x) w = ((x w).1.map f, (x w).2) := by
  show (x >>= fun a => pure (f a)) w = _
  rw [bind_run]
  rcases x w with ⟨e | a, w'⟩ <;> rfl

/-- A failure is handled in the workspace that it left. -/
theorem tryCatch_run (x : Action α) (handle : Failure → Action α) (w : Workspace) :
    (tryCatch x handle) w =
      match x w with
      | (.ok a, w') => (.ok a, w')
      | (.error e, w') => handle e w' := by
  show ExceptT.tryCatch x handle w = _
  simp only [ExceptT.tryCatch, ExceptT.mk, bind, StateT.bind]
  rcases x w with ⟨e | a, w'⟩ <;> rfl

end ZipContainer.Action

namespace ZipContainer

@[simp] theorem Workspace.clock_count (w : Workspace) (f : Format) (call : Calls → Calls) :
    (w.count f call).clock = w.clock := by
  unfold Workspace.count; split <;> rfl

@[simp] theorem Workspace.files_count (w : Workspace) (f : Format) (call : Calls → Calls) :
    (w.count f call).files = w.files := by
  unfold Workspace.count; split <;> rfl

@[simp] theorem Workspace.log_count (w : Workspace) (f : Format) (call : Calls → Calls) :
    (w.count f call).log = w.log := by
  unfold Workspace.count; split <;> rfl

/-- Files and counts have nothing to do with each other. -/
theorem Workspace.count_files (w : Workspace) (files : FileTree) (f : Format)
    (call : Calls → Calls) :
    Workspace.count { w with files := files } f call = { w.count f call with files := files } := by
  unfold Workspace.count; split <;> rfl

theorem Format.runEncode_run (f : Format) (es : List Entry) (w : Workspace) :
    f.runEncode es w =
      (f.encode w.clock es, w.count f fun c => { c with encoded := es :: c.encoded }) := by
  rw [← w.clock_count f fun c => { c with encoded := es :: c.encoded }]
  rfl

end ZipContainer
