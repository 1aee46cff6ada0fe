import ZipContainer.Workspace

/-!
# Drafts

A draft collects entries for an archive. Its destination is opened at once, and is written when
the draft is finished; from then on the draft takes no more entries. Whatever goes wrong in
writing, the destination then holds an archive, if need be one without entries.
-/

namespace ZipContainer

/-- An archive that is being put together: its destination as it was given and as it is open, the
format, and the entries. -/
structure Draft where
  path : String
  format : Format
  destination : Option Place
  isFinished : Bool
  contents : Contents

namespace Draft

/-- Opens a destination for a new draft. -/
def create (path : String) (format : Format) : Action Draft := do
  let w ← get
  match w.files.openEmpty path with
  | .error f => throw f
  | .ok (files, place) =>
    set { w with files := files }
    return ⟨path, format, some place, false, .empty⟩

/-- Opens a destination for a new draft, or writes a notice if the file system refuses it. -/
def create? (path : String) (format : Format) : Action (Option Draft) :=
  tryCatch (some <$> create path format) fun f => do
    if f.isFileFailure then
      note (.notWritable path f)
      return none
    else throw f

/-- The bytes of a content; a text is encoded as UTF-8. -/
def bytesOfContent : Content → Except Failure ByteArray
  | .bytes b => .ok b
  | .text t => t.encode.mapError .loose
  | .released => .error .released
  | .other typeName => .error (.content (.wrongType typeName))

/-- Adds an entry under the canonical form of a path. -/
def addStrict (d : Draft) (path : EntryPath.Argument) (content : Content) :
    Except Failure (Entry × Draft) := do
  if d.isFinished || d.destination.isNone then throw (.operation .finished)
  let name ← path.normalize.mapError .path
  let bytes ← bytesOfContent content
  let e : Entry := ⟨name, bytes⟩
  return (e, { d with contents := d.contents.append e })

/-- The failure is a refusal of the entry rather than a misuse. -/
def isRejection : Failure → Bool
  | .path _ | .operation _ => true
  | _ => false

/-- Adds an entry unless it is refused; a refusal is only noted. -/
def add (d : Draft) (path : EntryPath.Argument) (content : Content) : Action (Bool × Draft) :=
  match d.addStrict path content with
  | .ok (_, d) => return (true, d)
  | .error f =>
    if isRejection f then do
      note (.rejected path f)
      return (false, d)
    else throw f

/-- Writes the archive to the destination and closes it. If the format fails, an archive without
entries is written instead. Nothing happens to a draft that is finished. -/
def finish (d : Draft) : StateM Workspace (Draft × Except Failure Unit) := do
  if d.isFinished then return (d, .ok ())
  match d.destination with
  | none => return (d, .ok ())
  | some place =>
    let finished : Draft := { d with isFinished := true, destination := none }
    let result ← d.format.runEncode d.contents.toList
    let payload := match result with
      | .ok payload => payload
      | .error _ => Zip.emptyArchive
    modify fun w => { w with files := w.files.overwrite place payload }
    return (finished, result.map fun _ => ())

/-- Finishes a draft that is given up; a failure is only noted. -/
def giveUp (d : Draft) : StateM Workspace Draft := do
  let (finished, result) ← d.finish
  match result with
  | .ok () => return finished
  | .error f =>
    note (.notFinished d.path f)
    return finished

/-- Leaves a block of work on a draft, which finishes it. A failure to finish it takes the place of
the failure that the block ended in. -/
def leave (d : Draft) (failure : Option Failure) : StateM Workspace (Draft × Option Failure) := do
  let (finished, result) ← d.finish
  match result with
  | .ok () => return (finished, failure)
  | .error f => return (finished, some f)

/-- Adds entries in order until one is refused. -/
def addAll (d : Draft) : List (EntryPath.Argument × Content) → Draft × Option Failure
  | [] => (d, none)
  | (path, content) :: rest =>
    match d.addStrict path content with
    | .ok (_, d) => d.addAll rest
    | .error f => (d, some f)

/-- The number of entries. -/
def size (d : Draft) : Nat := d.contents.size

/-- The destination is open. -/
def isOpen (d : Draft) : Bool := d.destination.isSome

end Draft

end ZipContainer
