import ZipContainer.Workspace

/-!
# Opened archives

An archive is decoded as a whole when it is opened, so that no later look-up fails.

A format reports what is wrong with an archive by archive failures. Failures that any reader of
data may meet are reported as those of the format; others pass.
-/

namespace ZipContainer

/-- An opened archive: the bytes it was opened from and its entries. -/
structure Archive where
  data : ByteArray
  contents : Contents

namespace Archive

/-- A failure of a format as opening reports it. -/
def reported (f : Failure) : Failure :=
  if f.isArchiveFailure then f
  else if f.isReadingFailure then .container (.formatFailed f.message)
  else f

/-- Opens the archive in a byte string. -/
def ofBytes (data : ByteArray) (format : Format) : Action Archive := do
  if !Zip.isArchive data then throw (.container .notArchive)
  let entries ← tryCatch (format.runDecode data) fun f => throw (reported f)
  return ⟨data, .ofList entries⟩

/-- Opens the archive in a file. -/
def ofFile (path : String) (format : Format) : Action Archive := do
  match (← get).files.read path with
  | .error f => throw f
  | .ok data => ofBytes data format

/-- How a notice names the source of an archive that is no file. -/
def unnamedSource : String := "<bytes>"

/-- Opens an archive, or writes a notice if that fails in an expected way. -/
def attempt (source : String) (isExpected : Failure → Bool) (opening : Action Archive) :
    Action (Option Archive) :=
  tryCatch (some <$> opening) fun f => do
    if isExpected f then
      note (.notOpened source f)
      return none
    else throw f

/-- Opens the archive in a byte string, if it is one. -/
def ofBytes? (data : ByteArray) (format : Format) : Action (Option Archive) :=
  attempt unnamedSource Failure.isArchiveFailure (ofBytes data format)

/-- Opens the archive in a file, if there is one. -/
def ofFile? (path : String) (format : Format) : Action (Option Archive) :=
  attempt path (fun f => f.isArchiveFailure || f.isFileFailure) (ofFile path format)

/-- The number of entries. -/
def size (a : Archive) : Nat := a.contents.size

/-- The paths of the entries in order. -/
def paths (a : Archive) : List Text := a.contents.paths

/-- Some entry has the path. -/
def contains (a : Archive) (path : Text) : Bool := a.contents.contains path

/-- The content of the first entry with the path. -/
def get? (a : Archive) (path : Text) : Option ByteArray :=
  (a.contents.get? path).map Entry.content

/-- The first entry whose path ends with the suffix. -/
def findSuffix? (a : Archive) (suffix : Text) : Option Entry :=
  a.contents.findSuffix? suffix

/-- What a caller offers to be filled: a buffer of bytes, or something that is none. -/
inductive Target where
  | buffer (b : ByteArray)
  | other
  deriving DecidableEq

/-- Replaces the content of a buffer by that of the first entry with the path. A target that is no
buffer, and one for a path that no entry has, stay as they are. -/
def copyInto (a : Archive) (path : Text) (target : Target) : Bool × Target :=
  match target, a.get? path with
  | .buffer _, some content => (true, .buffer content)
  | _, _ => (false, target)

end Archive

end ZipContainer
