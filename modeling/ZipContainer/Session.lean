import ZipContainer.Package
import ZipContainer.Proofs.Deflate.RoundTrip
import ZipContainer.Zip.View
import ZipContainer.Zstandard.Frame

/-!
# Sessions

A sequence of steps on archives and drafts that are known by names. A session owns a workspace;
every step gives an answer and the notices that were written during it.

A name stands for one archive or draft at a time. A draft that no name stands for any more is
given up, unless a block is open on it; then the end of the block finishes it.

Members are deflated by the library's own compressor, and Zstandard data decoded by its own decoder.
-/

namespace ZipContainer

open scoped Zstandard

/-- What a name stands for. -/
inductive Handle where
  | archive (a : Archive)
  /-- A draft, by its number. -/
  | draft (number : Nat)

/-- The state of a session: the workspace, the names, the drafts, the numbers of those on which a
block is open, and under which numbers the calls of scripted formats are counted. -/
structure Session where
  workspace : Workspace
  handles : List (String × Handle)
  drafts : Array Draft
  held : List Nat
  counters : List (String × Nat)

/-- A format as a step asks for it. -/
inductive FormatChoice where
  | usual
  | zip (method : Zip.MethodChoice) (limit : Option Int)
  /-- A format of the given name that answers every call in a fixed way. -/
  | scripted (name : String) (decoded : Except Failure (List Entry))
      (encoded : Except Failure ByteArray)

/-- Where an archive is opened from. -/
inductive Location where
  | bytes (b : ByteArray)
  /-- The bytes of a file, read beforehand. -/
  | bytesOf (path : String)
  | file (path : String)

mutual

/-- A step: a time to set the clock to, if any, and what to do. -/
inductive Step where
  | mk (clock : Option Moment) (command : Command)

/-- What a step does. -/
inductive Command where
  /-- Writes a file. -/
  | put (path : String) (b : ByteArray)
  /-- Shows the bytes of a file. -/
  | show (path : String)
  /-- Shows the archive in a file. -/
  | view (path : String)
  | has (path : String)
  | makeDirectory (path : String)
  /-- Shows the calls of a scripted format. -/
  | calls (format : String)
  /-- Opens an archive; quietly, if failures that are to be expected are only noted. -/
  | open (id : String) (location : Location) (isQuiet : Bool) (format : FormatChoice)
  | paths (id : String)
  | size (id : String)
  | contains (id : String) (path : Text)
  | data (id : String)
  | document (id : String)
  | get (id : String) (path : Text)
  | copyInto (id : String) (path : Text) (target : Archive.Target)
  | findSuffix (id : String) (suffix : Text)
  | add (id : String) (path : EntryPath.Argument) (content : Content)
  | addStrict (id : String) (path : EntryPath.Argument) (content : Content)
  | create (id path : String) (isQuiet : Bool) (format : FormatChoice)
  | state (id : String)
  | finish (id : String)
  /-- Runs steps in a block on a draft, which is finished at the end; the block may end in a
  failure of its own. -/
  | block (id : String) (steps : List Step) (failure : Option Failure)
  | drop (id : String)
  | writePackage (path : String) (document : Content)
      (resources : List (EntryPath.Argument × Content)) (format : FormatChoice)

end

/-- What is shown of a draft: the number of entries, whether it is finished, and whether its
destination is open. -/
structure DraftState where
  size : Nat
  isFinished : Bool
  isOpen : Bool
  deriving DecidableEq, Repr

/-- What is shown of a draft. -/
def Draft.state (d : Draft) : DraftState := ⟨d.size, d.isFinished, d.isOpen⟩

mutual

/-- What a step answers. -/
inductive Answer where
  | done
  | nothing
  | flag (b : Bool)
  | count (n : Nat)
  | bytes (b : ByteArray)
  | texts (ts : List Text)
  | entry (e : Entry)
  | view (v : Zip.View)
  | calls (decoded : Nat) (encoded : Option (List Entry))
  | opened (size : Nat)
  | copied (isDone : Bool) (target : Archive.Target)
  /-- An archive takes no entries. -/
  | notAdded (size : Nat)
  | added (isAdded : Bool) (s : DraftState)
  | stored (e : Entry) (s : DraftState)
  | state (s : DraftState)
  | block (steps : List Outcome) (failure : Option Failure) (s : DraftState)

/-- How a step ends: with an answer, with a failure, or because nothing has the name; and the
notices written meanwhile, the first one first. -/
inductive Outcome where
  | answered (a : Answer) (log : List Notice)
  | failed (f : Failure) (log : List Notice)
  | unknownName (log : List Notice)

end

namespace Session

/-- A session in an empty directory. -/
def start (clock : Moment) : Session :=
  ⟨⟨.empty, clock, #[], []⟩, [], #[], [], []⟩

/-- How a command ends. -/
inductive Ending where
  | answered (a : Answer)
  | failed (f : Failure)
  | unknownName

/-- A command's effect on the session. -/
abbrev Run (α : Type) := StateM Session α

/-- Does something in the workspace. -/
def inWorkspace {α : Type} (x : StateM Workspace α) : Run α := fun s =>
  let (a, w) := x s.workspace
  (a, { s with workspace := w })

/-- What a name stands for. -/
def handle? (s : Session) (id : String) : Option Handle := s.handles.lookup id

/-- Gives up a draft that no name stands for and no block is open on. -/
def collect (number : Nat) : Run Unit := do
  let s ← get
  let isNamed := s.handles.any fun h =>
    match h.2 with
    | .draft n => n = number
    | .archive _ => false
  if !isNamed && !s.held.contains number then
    match s.drafts[number]? with
    | none => return ()
    | some d =>
      let d ← inWorkspace d.giveUp
      modify fun s => { s with drafts := s.drafts.setIfInBounds number d }

/-- Frees a name. -/
def release (id : String) : Run Unit := do
  let s ← get
  set { s with handles := s.handles.filter fun h => h.1 ≠ id }
  match s.handle? id with
  | some (.draft number) => collect number
  | _ => return ()

/-- Gives a name to something. -/
def assign (id : String) (h : Handle) : Run Unit :=
  modify fun s => { s with handles := (id, h) :: s.handles }

/-- Builds a format; a scripted one starts with no calls counted. -/
def buildFormat : FormatChoice → Run (Except Failure Format)
  | .usual => return .ok (.default Deflate.compressor)
  | .zip method limit => return (method.method Deflate.compressor).map (Zip.format · limit)
  | .scripted name decoded encoded => do
    let s ← get
    let number := s.workspace.calls.size
    set { s with
      workspace := { s.workspace with calls := s.workspace.calls.push ⟨0, []⟩ }
      counters := (name, number) :: s.counters }
    return .ok (.scripted decoded encoded (some number))

/-- The outcome of an action as the ending of a command. -/
def ending {α : Type} (f : α → Answer) : Except Failure α → Ending
  | .ok a => .answered (f a)
  | .error e => .failed e

/-- Puts the result of an operation on the files into effect. -/
def changeFiles (change : FileTree → Except Failure FileTree) : Run Ending := do
  let s ← get
  match change s.workspace.files with
  | .error f => return .failed f
  | .ok files =>
    set { s with workspace := { s.workspace with files := files } }
    return .answered .done

/-- Answers from the archive of a name. -/
def withArchive (id : String) (f : Archive → Answer) : Run Ending := do
  match (← get).handle? id with
  | some (.archive a) => return .answered (f a)
  | _ => return .unknownName

/-- Answers from the archive or the entries of the draft of a name. -/
def withContents (id : String) (f : Contents → Answer) : Run Ending := do
  let s ← get
  match s.handle? id with
  | none => return .unknownName
  | some (.archive a) => return .answered (f a.contents)
  | some (.draft number) =>
    match s.drafts[number]? with
    | none => return .unknownName
    | some d => return .answered (f d.contents)

/-- Works on the draft of a name, which it replaces. -/
def withDraft (id : String) (f : Nat → Draft → Run (Draft × Ending)) : Run Ending := do
  let s ← get
  match s.handle? id with
  | some (.draft number) =>
    match s.drafts[number]? with
    | none => return .unknownName
    | some d =>
      let (d, e) ← f number d
      modify fun s => { s with drafts := s.drafts.setIfInBounds number d }
      return e
  | _ => return .unknownName

/-- Opens an archive from where it is. -/
def openFrom (location : Location) (isQuiet : Bool) (format : Format) : Action (Option Archive) := do
  match location with
  | .bytes b => if isQuiet then Archive.ofBytes? b format else some <$> Archive.ofBytes b format
  | .bytesOf path =>
    match (← get).files.read path with
    | .error f => throw f
    | .ok b => if isQuiet then Archive.ofBytes? b format else some <$> Archive.ofBytes b format
  | .file path =>
    if isQuiet then Archive.ofFile? path format else some <$> Archive.ofFile path format

/-- Opens an archive under a name. -/
def openArchive (id : String) (location : Location) (isQuiet : Bool) (choice : FormatChoice) :
    Run Ending := do
  match ← buildFormat choice with
  | .error f => return .failed f
  | .ok format =>
    release id
    match ← inWorkspace (openFrom location isQuiet format) with
    | .error f => return .failed f
    | .ok none => return .answered .nothing
    | .ok (some a) =>
      assign id (.archive a)
      return .answered (.opened a.size)

/-- Creates a draft under a name. -/
def create (id path : String) (isQuiet : Bool) (choice : FormatChoice) : Run Ending := do
  match ← buildFormat choice with
  | .error f => return .failed f
  | .ok format =>
    release id
    let creation : Action (Option Draft) :=
      if isQuiet then Draft.create? path format else some <$> Draft.create path format
    match ← inWorkspace creation with
    | .error f => return .failed f
    | .ok none => return .answered .nothing
    | .ok (some d) =>
      let number := (← get).drafts.size
      modify fun s => { s with drafts := s.drafts.push d }
      assign id (.draft number)
      return .answered (.state d.state)

/-- Adds an entry to a draft; an archive takes none. -/
def add (id : String) (path : EntryPath.Argument) (content : Content) : Run Ending := do
  match (← get).handle? id with
  | some (.archive a) => return .answered (.notAdded a.size)
  | _ =>
    withDraft id fun _ d => do
      match ← inWorkspace (d.add path content) with
      | .ok (isAdded, d) => return (d, .answered (.added isAdded d.state))
      | .error f => return (d, .failed f)

/-- The calls of the format that was last built under a name. -/
def callsOf (s : Session) (format : String) : Answer :=
  match (s.counters.lookup format).bind (s.workspace.calls[·]?) with
  | some c => .calls c.decoded c.encoded.head?
  | none => .calls 0 none

/-- The entry as an answer, if there is one. -/
def entryAnswer : Option Entry → Answer
  | some e => .entry e
  | none => .nothing

/-- The bytes as an answer, if there are any. -/
def bytesAnswer : Option ByteArray → Answer
  | some b => .bytes b
  | none => .nothing

/-- The end of a step: what was noted since the step before. -/
def close (e : Ending) : Run Outcome := do
  let s ← get
  set { s with workspace := { s.workspace with log := [] } }
  let log := s.workspace.log.reverse
  match e with
  | .answered a => return .answered a log
  | .failed f => return .failed f log
  | .unknownName => return .unknownName log

/-- The end of a block on a draft. -/
def leaveBlock (number : Nat) (outcomes : List Outcome) (failure : Option Failure) :
    Run Ending := do
  match (← get).drafts[number]? with
  | none => return .unknownName
  | some d =>
    let (d, failure) ← inWorkspace (d.leave failure)
    modify fun s => { s with
      drafts := s.drafts.setIfInBounds number d
      held := s.held.erase number }
    collect number
    return .answered (.block outcomes failure d.state)

mutual

/-- Runs a step. -/
def runStep : Step → Run Outcome
  | .mk clock command => do
    match clock with
    | none => pure ()
    | some now => modify fun s => { s with workspace := { s.workspace with clock := now } }
    let e ← runCommand command
    close e

/-- Runs steps in order. -/
def runSteps : List Step → Run (List Outcome)
  | [] => return []
  | step :: rest => do
    let outcome ← runStep step
    let outcomes ← runSteps rest
    return outcome :: outcomes

/-- Runs a command. -/
def runCommand : Command → Run Ending
  | .put path b => changeFiles (·.write path b)
  | .show path => return ending .bytes ((← get).workspace.files.read path)
  | .view path => return ending .view (((← get).workspace.files.read path).bind Zip.view)
  | .has path => return .answered (.flag ((← get).workspace.files.has path))
  | .makeDirectory path => changeFiles (·.makeDirectory path)
  | .calls format => return .answered ((← get).callsOf format)
  | .open id location isQuiet format => openArchive id location isQuiet format
  | .paths id => withContents id fun t => .texts t.paths
  | .size id => withContents id fun t => .count t.size
  | .contains id path => withContents id fun t => .flag (t.contains path)
  | .data id => withArchive id fun a => .bytes a.data
  | .document id => withArchive id fun a => bytesAnswer (Package.document? a)
  | .get id path => withArchive id fun a => bytesAnswer (a.get? path)
  | .copyInto id path target => withArchive id fun a =>
    let (isDone, target) := a.copyInto path target
    .copied isDone target
  | .findSuffix id suffix => withArchive id fun a => entryAnswer (a.findSuffix? suffix)
  | .add id path content => add id path content
  | .addStrict id path content => withDraft id fun _ d => do
    match d.addStrict path content with
    | .ok (e, d) => return (d, .answered (.stored e d.state))
    | .error f => return (d, .failed f)
  | .create id path isQuiet format => create id path isQuiet format
  | .state id => withDraft id fun _ d => return (d, .answered (.state d.state))
  | .finish id => withDraft id fun _ d => do
    let (d, result) ← inWorkspace d.finish
    return (d, ending (fun _ => .state d.state) result)
  | .block id steps failure => do
    match (← get).handle? id with
    | some (.draft number) =>
      modify fun s => { s with held := number :: s.held }
      let outcomes ← runSteps steps
      leaveBlock number outcomes failure
    | _ => return .unknownName
  | .drop id => do
    match (← get).handle? id with
    | none => return .unknownName
    | some _ =>
      release id
      return .answered .done
  | .writePackage path document resources choice => do
    match ← buildFormat choice with
    | .error f => return .failed f
    | .ok format =>
      return ending (fun _ => .done)
        (← inWorkspace (Package.write path document resources format))

end

/-- Runs a session from an empty directory. -/
def run (clock : Moment) (steps : List Step) : List Outcome :=
  (runSteps steps (start clock)).1

end Session

end ZipContainer
