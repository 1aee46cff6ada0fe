import ZipContainer.Proofs.Archive.Opening

/-!
# Formats that fail

What becomes of a failure of a format, whatever the format and whatever the failure.  `warning?`
says with which words opening reports it; some failures have none.  Those come through: of the
failures that are not about archives, only the ones that any reader of data may meet are taken for
failures to decode (`warning?_eq_none_iff`).

`format_failures_reported` says what each way of opening makes of a format that fails.  Opening that
yields nothing where it fails has either yielded nothing and written one warning, or ends in the
very failure of the format and has written none (`Reports`).
-/

namespace ZipContainer.Archive

/-- How opening words its warning of a failure of the format: by the most specific kind that the
failure has among archive failures.  One that is not about archives is that of an invalid container,
if it is of a kind that any reader may meet, and has no warning otherwise. -/
def warning? (source : String) (f : Failure) : Option String :=
  match f with
  | .unsupported _ _ => some ("Unsupported entry encoding in " ++ source ++ ": " ++ f.message)
  | .member _ _ => some ("Entry decode failed in " ++ source ++ ": " ++ f.message)
  | .container _ => some ("Invalid container " ++ source ++ ": " ++ f.message)
  | .encode _ | .path _ | .operation _ | .archive _ =>
    some ("Cannot read " ++ source ++ ": " ++ f.message)
  | _ =>
    if f.isReadingFailure then
      some ("Invalid container " ++ source ++ ": " ++
        ("Codec failed to decode archive: " ++ f.message))
    else none

/-- What opening comes to for a failure of the format: the result, and what is added to the log. -/
structure Reports (source : String) (f : Failure) (w : Workspace)
    (ended : Except Failure (Option Archive) × Workspace) : Prop where
  /-- There is a warning and no archive, or the failure comes through. -/
  result : ended.1 =
    match warning? source f with
    | some _ => .ok none
    | none => .error f
  /-- Besides what the format itself notes, the log has the warning, if there is one, once. -/
  log : ∃ added, ended.2.log = added ++ w.log ∧
    (added.filter (·.origin = .archive)).map (fun n => (n.isWarning, n.message)) =
      ((warning? source f).map fun text => (true, text)).toList

variable {f : Failure} {source path : String} {data : ByteArray} {format : Format} {w : Workspace}

/-! ### Which failures are reported -/

/-- **The failures that come through**, exactly. -/
theorem warning?_eq_none_iff (source : String) (f : Failure) :
    warning? source f = none ↔ f.isArchiveFailure = false ∧ f.isReadingFailure = false := by
  cases f with
  | outside kind text =>
      cases kind <;> simp [warning?, Failure.isArchiveFailure, Failure.isReadingFailure]
  | _ => simp [warning?, Failure.isArchiveFailure, Failure.isReadingFailure]

/-- Opening expects what is reported as an archive failure. -/
theorem isArchiveFailure_reported (f : Failure) :
    (reported f).isArchiveFailure = (f.isArchiveFailure || f.isReadingFailure) := by
  unfold reported
  cases harchive : f.isArchiveFailure with
  | true => exact harchive
  | false =>
      cases hreading : f.isReadingFailure with
      | true => rfl
      | false => exact harchive

/-- A refusal of the file system is never reported as one, since any reader may meet it. -/
theorem isFileFailure_reported (f : Failure) : (reported f).isFileFailure = false := by
  cases f with
  | outside kind text => cases kind <;> rfl
  | _ => rfl

/-- The warning is worded as the notice of what is reported. -/
theorem warning?_eq_message (source : String)
    (h : (f.isArchiveFailure || f.isReadingFailure) = true) :
    warning? source f = some (Notice.notOpened source (reported f)).message := by
  cases f with
  | outside kind text => cases kind <;> first | rfl | cases h
  | content fault | writeMethod shown | file fault name => rfl
  | emptyName | wordRange | fieldRange => cases h
  | _ => rfl

/-! ### What opening makes of them -/

/-- The notes of a format are its own. -/
theorem filter_origin_zstandardMember (names : List Text) :
    ((names.map Notice.zstandardMember).reverse.filter (·.origin = .archive)) = [] := by
  rw [List.filter_eq_nil_iff]
  intro n hn
  obtain ⟨name, -, rfl⟩ := List.mem_map.mp (List.mem_reverse.mp hn)
  exact Bool.false_ne_true

/-- Opening from bytes fails with what is reported of the failure of the format. -/
theorem ofBytes_of_failed (archive : Zip.isArchive data = true)
    (failed : format.decode data = .error f) (w : Workspace) :
    ofBytes data format w = (.error (reported f), format.decoded data w) := by
  rw [ofBytes_run, archive, failed]
  rfl

/-- An attempt reports the failure of the format, whatever else of the file system it expects. -/
theorem reports_attempt {isExpected : Failure → Bool} {opening : Action Archive}
    (hexpected : ∀ f, f.isFileFailure = false → isExpected f = f.isArchiveFailure)
    (hopening : opening w = (.error (reported f), format.decoded data w)) :
    Reports source f w (attempt source isExpected opening w) := by
  have notes := filter_origin_zstandardMember (format.noteworthy data)
  rw [attempt_run, hopening]
  dsimp only
  rw [hexpected _ (isFileFailure_reported f), isArchiveFailure_reported]
  cases hkind : f.isArchiveFailure || f.isReadingFailure with
  | true =>
      have words := warning?_eq_message source hkind
      refine ⟨by rw [words]; rfl, .notOpened source (reported f) :: _, rfl, ?_⟩
      rw [List.filter_cons_of_pos (by rfl), notes, words]
      rfl
  | false =>
      rw [Bool.or_eq_false_iff] at hkind
      have silent := (warning?_eq_none_iff source f).mpr hkind
      have unchanged : reported f = f := by
        rw [reported, hkind.1, hkind.2]
        rfl
      refine ⟨by rw [silent, unchanged]; rfl, _, rfl, ?_⟩
      rw [notes, silent]
      rfl

/-- **What becomes of a format that fails**, for every format and every failure.  On data that begin
like an archive, opening from bytes fails with the same failure if it is about archives, as an
invalid container if it is of a kind that any reader may meet, and with the same failure again if
it is neither.  Opening that may yield nothing writes the one warning for the failure and yields
nothing, from bytes as from a file that holds the data; but a failure that is neither has no warning
and comes through. -/
theorem format_failures_reported (format : Format) (archive : Zip.isArchive data = true)
    (failed : format.decode data = .error f) (w : Workspace) :
    (ofBytes data format w).1 = .error
      (if f.isArchiveFailure then f
        else if f.isReadingFailure then .container (.formatFailed f.message)
        else f) ∧
    Reports unnamedSource f w (ofBytes? data format w) ∧
    (∀ path, w.files.read path = .ok data →
      (ofFile path format w).1 = (ofBytes data format w).1 ∧
        Reports path f w (ofFile? path format w)) ∧
    ∀ source, warning? source f = none ↔
      f.isArchiveFailure = false ∧ f.isReadingFailure = false := by
  have opening := ofBytes_of_failed archive failed w
  refine ⟨by rw [opening, reported], reports_attempt (fun _ _ => rfl) opening,
    fun path hread => ?_, fun source => warning?_eq_none_iff source f⟩
  have fromFile : ofFile path format w = ofBytes data format w := by
    rw [ofFile_run, hread]
  refine ⟨by rw [fromFile], reports_attempt (fun f hfile => ?_) (fromFile.trans opening)⟩
  rw [hfile, Bool.or_false]

/-- A format that fails with a bad value yields no archive and one warning; one that fails with a
missing key ends opening in that failure, and no warning is written. -/
theorem missing_key_comes_through :
    ∃ (data : ByteArray) (w : Workspace) (value key : Format),
      value.decode data = .error (.outside .value "boom") ∧
      key.decode data = .error (.outside .key "boom") ∧
      (ofBytes? data value w).1 = .ok none ∧
      (∃ added, (ofBytes? data value w).2.log = added ++ w.log ∧
        (added.filter (·.origin = .archive)).map (fun n => (n.isWarning, n.message)) =
          [(true, "Invalid container <bytes>: Codec failed to decode archive: boom")]) ∧
      (ofBytes? data key w).1 = .error (.outside .key "boom") ∧
      w.files.read "a" = .ok data ∧
      (ofFile? "a" key w).1 = .error (.outside .key "boom") ∧
      (ofBytes data key w).1 = .error (.outside .key "boom") := by
  let w : Workspace := ⟨⟨[(["a"], .file Zip.emptyArchive)]⟩, ⟨2020, 2, 3, 4, 5, 6⟩, #[], []⟩
  let value : Format := .scripted (.error (.outside .value "boom")) (.ok ByteArray.empty) none
  let key : Format := .scripted (.error (.outside .key "boom")) (.ok ByteArray.empty) none
  have archive : Zip.isArchive Zip.emptyArchive = true := by decide
  have stored (b : ByteArray) : (FileTree.mk [(["a"], .file b)]).read "a" = .ok b := rfl
  obtain ⟨-, reports, -, -⟩ := format_failures_reported value archive rfl w
  obtain ⟨through, reports', fromFile, -⟩ :=
    format_failures_reported key archive rfl w
  exact ⟨Zip.emptyArchive, w, value, key, rfl, rfl, reports.result, reports.log, reports'.result,
    stored _, (fromFile "a" (stored _)).2.result, through⟩

end ZipContainer.Archive
