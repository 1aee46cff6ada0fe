import ZipContainer.Contents
import ZipContainer.Zip.ZstandardMember

/-!
# Decoding of archives

An archive decodes to its members in the order of its directory; records whose names end in a
slash stand for directories and are passed over. The first member that cannot be read is the
failure of the whole.
-/

namespace ZipContainer.Zip

/-- The signatures with which an archive can begin. -/
def archiveSignatures : List (List UInt8) := [localSignature, endSignature, spannedSignature]

/-- The data begin like an archive. -/
def isArchive (data : ByteArray) : Bool :=
  archiveSignatures.any (startsAt data 0)

/-- The reading of a record comes to unpack a Zstandard member. -/
def reachesZstandard (limit : Option Int) (r : Record) : Bool :=
  r.name ≠ "" && !r.isDirectory && withinLimit limit r.size && r.method = Method.zstandard.code

section

variable [Zstandard.Decoder]

/-- Reads a member whose stated size is within the limit. -/
def readMember (data : ByteArray) (limit : Option Int) (r : Record) (bound : Int) :
    Except Failure ByteArray :=
  if !withinLimit limit r.size then
    .error (tooLarge limit r)
  else if r.method = Method.zstandard.code then readZstandard data r
  else readPacked data limit r bound

/-- Reads what a record stands for: an entry, or nothing if it is a directory. -/
def entryOf (data : ByteArray) (limit : Option Int) (member : Record × Int) :
    Except Failure (Option Entry) :=
  let (r, bound) := member
  if r.name = "" then .error .emptyName
  else if r.isDirectory then .ok none
  else (readMember data limit r bound).map fun content => some ⟨r.name, content⟩

/-- Reads entries in order until one fails. -/
def readEntries (data : ByteArray) (limit : Option Int) (members : List (Record × Int)) :
    Except Failure (List Entry) :=
  (members.mapM (entryOf data limit)).map (·.filterMap id)

/-- Decodes an archive. -/
def decode (data : ByteArray) (limit : Option Int) : Except Failure (List Entry) :=
  if !isArchive data then .error (.container .missingSignature)
  else
    match readDirectory data with
    | .error f => .error f
    | .ok d => readEntries data limit d.records

/-- The members up to the first that cannot be read. -/
def reached (data : ByteArray) (limit : Option Int) (members : List (Record × Int)) :
    List (Record × Int) :=
  let isRead (m : Record × Int) : Bool := (entryOf data limit m).isOk
  members.takeWhile isRead ++ (members.dropWhile isRead).take 1

/-- The names of the Zstandard members that decoding an archive comes to. -/
def zstandardMembers (data : ByteArray) (limit : Option Int) : List Text :=
  match readDirectory data with
  | .error _ => []
  | .ok d =>
    if isArchive data && d.records.any (reachesZstandard limit ·.1) then
      (reached data limit d.records).filterMap fun m =>
        if reachesZstandard limit m.1 then some m.1.name else none
    else []

end

end ZipContainer.Zip
