import ZipContainer.EntryPath
import ZipContainer.Zip.Fault

/-!
# Failures

Everything that can go wrong, as causes; `Failure.message` is their wording.

The failures fall into three groups. Those about archives are `isArchiveFailure`: they are what
readers expect of a format. Those of kinds that any reader of data may meet, such as a bad value
or the end of the input, are `isReadingFailure`. The rest is neither.
-/

namespace ZipContainer

/-- Why data are no archive that can be opened. -/
inductive ContainerFault where
  | notArchive
  | missingSignature
  /-- The directory needs a later version of the format, given in tenths. -/
  | version (needed : Nat)
  | directory (fault : Zip.DirectoryFault)
  /-- An entry is larger than the limit. -/
  | tooLarge (path : Text) (limit : Int)
  /-- A format failed in a way that is not its own to report. -/
  | formatFailed (reason : String)
  /-- A refusal in the words of whoever raised it. -/
  | custom (text : String)
  deriving DecidableEq

/-- The wording of a container fault. -/
def ContainerFault.message : ContainerFault → String
  | .notArchive => "Data is not a ZIP archive"
  | .missingSignature => "Missing ZIP signature"
  | .version n =>
    "Unsupported ZIP directory: zip file version " ++ toString (n / 10) ++ "." ++
      toString (n % 10)
  | .directory f => "Unreadable central directory: " ++ f.message
  | .tooLarge path limit => path.string ++ ": entry exceeds " ++ toString limit ++ " bytes"
  | .formatFailed reason => "Codec failed to decode archive: " ++ reason
  | .custom text => text

/-- The wording of what goes wrong where a view of bytes is used that has been released. -/
def releasedText : String := "operation forbidden on released memoryview object"

/-- Why entries cannot be written as an archive. -/
inductive EncodeFault where
  /-- The clock shows a year before the first that can be stored. -/
  | beforeFirstYear
  /-- A name or a text has no UTF-8. -/
  | loose (fault : Text.Loose)
  /-- A content is a view that has been released. -/
  | released
  /-- A refusal in the words of whoever raised it. -/
  | custom (text : String)
  deriving DecidableEq

/-- The wording of an encode fault. -/
def EncodeFault.message : EncodeFault → String
  | .beforeFirstYear => "ZIP encode failed: ZIP does not support timestamps before 1980"
  | .loose f => "ZIP encode failed: " ++ f.message
  | .released => "ZIP encode failed: " ++ releasedText
  | .custom text => text

/-- What a draft refuses to do. -/
inductive OperationFault where
  | finished
  /-- A refusal in the words of whoever raised it. -/
  | custom (text : String)
  deriving DecidableEq

/-- The wording of a refused operation. -/
def OperationFault.message : OperationFault → String
  | .finished => "Writer is already finalized"
  | .custom text => text

/-- What is wrong with the type of a content. -/
inductive ContentFault where
  /-- Neither bytes nor a text where an entry is added. -/
  | wrongType (typeName : String)
  /-- A text where bytes are needed and nothing says how to encode it. -/
  | textWithoutEncoding
  /-- Not convertible to bytes. -/
  | notBytes (typeName : String)
  /-- Without a length. -/
  | noLength (typeName : String)
  /-- No buffer of bytes. -/
  | noBuffer (typeName : String)
  deriving DecidableEq

/-- The wording of a content fault. -/
def ContentFault.message : ContentFault → String
  | .wrongType t => "Entry content must be bytes or str, not " ++ t
  | .textWithoutEncoding => "string argument without an encoding"
  | .notBytes t => "cannot convert '" ++ t ++ "' object to bytes"
  | .noLength t => "object of type '" ++ t ++ "' has no len()"
  | .noBuffer t => "memoryview: a bytes-like object is required, not '" ++ t ++ "'"

/-- What the file system refuses. -/
inductive FileFault where
  | notFound
  | exists
  | notDirectory
  | isDirectory
  | nameTooLong
  deriving DecidableEq, Repr

/-- The number and the usual wording of a refusal of the file system. -/
def FileFault.describe : FileFault → Nat × String
  | .notFound => (2, "No such file or directory")
  | .exists => (17, "File exists")
  | .notDirectory => (20, "Not a directory")
  | .isDirectory => (21, "Is a directory")
  | .nameTooLong => (36, "File name too long")

/-- Kinds of failures that are not about archives. -/
inductive OutsideKind where
  | value
  | unicode
  | type
  | runtime
  | notImplemented
  | recursion
  | system
  | endOfInput
  | index
  | key
  | lookup
  | overflow
  | divisionByZero
  | arithmetic
  | assertion
  | attribute
  | memory
  | general
  deriving DecidableEq, Repr

/-- Any failure. -/
inductive Failure where
  /-- The data are no archive that can be opened. -/
  | container (fault : ContainerFault)
  /-- The entries cannot be written. -/
  | encode (fault : EncodeFault)
  /-- A member cannot be decoded. -/
  | member (path : Text) (fault : Zip.MemberFault)
  /-- A member is packed in a way that cannot be read. -/
  | unsupported (path : Text) (fault : Zip.Unsupported)
  | path (fault : EntryPath.Fault)
  | operation (fault : OperationFault)
  /-- An archive failure of no particular kind. -/
  | archive (text : String)
  /-- A member has an empty name. -/
  | emptyName
  /-- A number does not fit into a machine word. -/
  | wordRange
  /-- A number or a length does not fit into its field. -/
  | fieldRange
  | content (fault : ContentFault)
  /-- A text has no UTF-8. -/
  | loose (fault : Text.Loose)
  /-- Members cannot be written by a method; the method is given as it was asked for. -/
  | writeMethod (shown : String)
  | file (fault : FileFault) (name : String)
  /-- A failure that is not about archives. -/
  | outside (kind : OutsideKind) (text : String)
  deriving DecidableEq

namespace Failure

/-- The failure to use a view that has been released. -/
def released : Failure := .outside .value releasedText

/-- The wording of a failure. Range failures have no fixed wording of their own; a mark stands
for it. -/
def message : Failure → String
  | .container f => f.message
  | .encode f => f.message
  | .member p f => p.string ++ ": " ++ f.message
  | .unsupported p f => p.string ++ ": " ++ f.message
  | .path f => f.message
  | .operation f => f.message
  | .archive text => text
  | .emptyName => "string index out of range"
  | .wordRange => "[OverflowError]"
  | .fieldRange => "[struct.error]"
  | .content f => f.message
  | .loose f => f.message
  | .writeMethod shown => "unsupported write method: " ++ shown
  | .file f name =>
    "[Errno " ++ toString f.describe.1 ++ "] " ++ f.describe.2 ++ ": " ++ Text.quote name
  | .outside .key text => Text.quote text
  | .outside _ text => text

/-- The failure is about archives. -/
def isArchiveFailure : Failure → Bool
  | .container _ | .encode _ | .member _ _ | .unsupported _ _ | .path _ | .operation _
  | .archive _ => true
  | _ => false

/-- The failure comes from the file system. -/
def isFileFailure : Failure → Bool
  | .file _ _ | .outside .system _ => true
  | _ => false

/-- The failure is of a kind that any reader of data may meet. -/
def isReadingFailure : Failure → Bool
  | .content _ | .loose _ | .writeMethod _ | .file _ _ => true
  | .outside kind _ =>
    match kind with
    | .value | .unicode | .type | .runtime | .notImplemented | .recursion | .system
    | .endOfInput => true
    | _ => false
  | _ => false

end Failure

end ZipContainer
