import ZipContainer.Failure

/-!
# File trees

A tree of files and directories below one directory, with the operations that opening, writing
and listing archives need. Files are never renamed or removed, so an open file is known by its
place in the tree.

Writing to an open file begins at its start and does not cut it: what was longer before keeps
its end.
-/

namespace ZipContainer

/-- A place in a tree: the names on the way to it. -/
abbrev Place := List String

/-- What stands at a place. -/
inductive Node where
  | file (content : ByteArray)
  | directory
  deriving DecidableEq

/-- The nodes below one directory. -/
structure FileTree where
  nodes : List (Place × Node)

namespace FileTree

/-- The tree without nodes. -/
def empty : FileTree := ⟨[]⟩

/-- What stands at a place; the root is a directory. -/
def node? (t : FileTree) (p : Place) : Option Node :=
  if p = [] then some .directory else t.nodes.lookup p

/-- Puts a node at a place. -/
def set (t : FileTree) (p : Place) (n : Node) : FileTree :=
  ⟨(p, n) :: t.nodes.filter fun m => m.1 ≠ p⟩

/-- The greatest size of a name and of a path. -/
def maxName : Nat := 255
@[inherit_doc maxName] def maxPath : Nat := 4095

/-- The names on the way that a path describes. -/
def components (path : String) : List String :=
  ((Text.pieces (· = '/') path.toList).filter (· ≠ [])).map String.ofList

/-- A path with a slash at its end asks for a directory. -/
def asksDirectory (path : String) : Bool := path.toList.getLast? = some '/'

/-- Follows names from a directory on. All but the last have to lead to directories. -/
def follow (t : FileTree) : Place → List String → Except FileFault Place
  | here, [] => .ok here
  | here, name :: rest =>
    if name = "." then follow t here rest
    else if name = ".." then follow t here.dropLast rest
    else if maxName < name.utf8ByteSize then .error .nameTooLong
    else
      let next := here ++ [name]
      if rest = [] then .ok next
      else
        match t.node? next with
        | none => .error .notFound
        | some (.file _) => .error .notDirectory
        | some .directory => follow t next rest

/-- Follows names from the root on, if the path that they are taken from can be a path. -/
def lead (t : FileTree) (path : String) (names : List String) : Except Failure Place :=
  if path.toList.contains '\x00' then .error (.outside .value "embedded null byte")
  else if path = "" then .error (.file .notFound path)
  else if maxPath < path.utf8ByteSize then .error (.file .nameTooLong path)
  else (t.follow [] names).mapError (.file · path)

/-- A place where a directory has to stand. -/
def directoryAt (t : FileTree) (p : Place) : Except FileFault Place :=
  match t.node? p with
  | none => .error .notFound
  | some (.file _) => .error .notDirectory
  | some .directory => .ok p

/-- The place that a path leads to. -/
def locate (t : FileTree) (path : String) : Except Failure Place := do
  let p ← t.lead path (components path)
  if asksDirectory path then (t.directoryAt p).mapError (.file · path) else return p

/-- The content of the file at a path. -/
def read (t : FileTree) (path : String) : Except Failure ByteArray := do
  match t.node? (← t.locate path) with
  | none => throw (.file .notFound path)
  | some .directory => throw (.file .isDirectory path)
  | some (.file content) => return content

/-- Opens the file at a path for writing: it is there and empty. No file is made where the path asks
for a directory, and what stands at its last name is not looked at then. -/
def openEmpty (t : FileTree) (path : String) : Except Failure (FileTree × Place) := do
  if asksDirectory path then
    let _ ← t.lead path ((components path).dropLast ++ ["."])
    throw (.file .isDirectory path)
  let p ← t.locate path
  match t.node? p with
  | some .directory => throw (.file .isDirectory path)
  | _ => return (t.set p (.file ByteArray.empty), p)

/-- Writes bytes to the start of an open file. -/
def overwrite (t : FileTree) (p : Place) (b : ByteArray) : FileTree :=
  match t.node? p with
  | some (.file old) => t.set p (.file (b ++ old.extract b.size old.size))
  | _ => t.set p (.file b)

/-- Writes a whole file. -/
def write (t : FileTree) (path : String) (b : ByteArray) : Except Failure FileTree := do
  let (t, p) ← t.openEmpty path
  return t.overwrite p b

/-- Makes a directory. -/
def makeDirectory (t : FileTree) (path : String) : Except Failure FileTree := do
  let p ← t.locate path
  if (t.node? p).isSome then throw (.file .exists path)
  return t.set p .directory

/-- Something stands at the path. -/
def has (t : FileTree) (path : String) : Bool :=
  match t.locate path with
  | .ok p => (t.node? p).isSome
  | .error _ => false

end FileTree

end ZipContainer
