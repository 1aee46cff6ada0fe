import ZipContainer.FileTree
import ZipContainer.Format

/-!
# Workspaces

What archives and drafts act on: files, a clock, the log, and the counts of calls of formats. An
action on a workspace may fail; what it did before stays done.
-/

namespace ZipContainer

/-- Something worth a line in the log. -/
inductive Notice where
  /-- A Zstandard member is unpacked. -/
  | zstandardMember (name : Text)
  /-- An archive cannot be opened. -/
  | notOpened (source : String) (cause : Failure)
  /-- A draft refuses an entry. -/
  | rejected (path : EntryPath.Argument) (cause : Failure)
  /-- A destination cannot be opened for writing. -/
  | notWritable (path : String) (cause : Failure)
  /-- A draft that is given up cannot be finished. -/
  | notFinished (path : String) (cause : Failure)
  deriving DecidableEq

namespace Notice

/-- Who writes a notice. -/
inductive Origin where
  | format
  | archive
  | draft
  deriving DecidableEq, Repr

/-- Who writes the notice. -/
def origin : Notice → Origin
  | .zstandardMember _ => .format
  | .notOpened _ _ => .archive
  | .rejected _ _ | .notWritable _ _ | .notFinished _ _ => .draft

/-- The notice is a warning and not only a detail. -/
def isWarning : Notice → Bool
  | .zstandardMember _ | .rejected _ _ => false
  | .notOpened _ _ | .notWritable _ _ | .notFinished _ _ => true

/-- What opening failed at, by the most specific kind of the cause. -/
def openingFailed : Failure → String
  | .unsupported _ _ => "Unsupported entry encoding in "
  | .member _ _ => "Entry decode failed in "
  | .container _ => "Invalid container "
  | _ => "Cannot read "

/-- The wording of a notice. -/
def message : Notice → String
  | .zstandardMember name => "decoding zstd member " ++ name.string ++ " via zstandard"
  | .notOpened source cause => openingFailed cause ++ source ++ ": " ++ cause.message
  | .rejected path cause => "Rejected entry " ++ path.shown ++ ": " ++ cause.message
  | .notWritable path cause => "Cannot open " ++ path ++ " for writing: " ++ cause.message
  | .notFinished path cause =>
    "Finalize on collection failed for " ++ path ++ ": " ++ cause.message

end Notice

/-- The calls of a format: how often it decoded, and what it was given to encode, the last list
first. -/
structure Calls where
  decoded : Nat
  encoded : List (List Entry)
  deriving DecidableEq

/-- What actions work on. -/
structure Workspace where
  files : FileTree
  clock : Moment
  calls : Array Calls
  /-- The notices, the last one first. -/
  log : List Notice

/-- Something done in a workspace, which may fail. -/
abbrev Action (α : Type) := ExceptT Failure (StateM Workspace) α

/-- Writes a notice. -/
def note (n : Notice) : StateM Workspace Unit :=
  modify fun w => { w with log := n :: w.log }

/-- Counts a call of a format. -/
def Workspace.count (w : Workspace) (f : Format) (call : Calls → Calls) : Workspace :=
  match f.counter with
  | none => w
  | some n => { w with calls := w.calls.modify n call }

namespace Format

/-- Decodes data, counts the call and writes the notices. -/
def runDecode (f : Format) (data : ByteArray) : Action (List Entry) := do
  modify (·.count f fun c => { c with decoded := c.decoded + 1 })
  for name in f.noteworthy data do
    note (.zstandardMember name)
  ExceptT.mk (pure (f.decode data))

/-- Encodes entries at the time of the clock and counts the call. -/
def runEncode (f : Format) (entries : List Entry) : StateM Workspace (Except Failure ByteArray) := do
  modify (·.count f fun c => { c with encoded := entries :: c.encoded })
  return f.encode (← get).clock entries

end Format

end ZipContainer
