import Std.Data.HashMap
import ZipContainer.Failure

/-!
# Tables of contents

The entries of an archive in order, with an index from each path to its first entry. A path may
occur more than once: every entry keeps its place, and a look-up finds the first.

A table is made of entries that it is offered (`Offer`). It takes an offer in steps (`put`), and
the first of them may fail, since the content of an entry has to be turned into bytes.
-/

namespace ZipContainer

/-- A stored file: a path and its bytes. -/
structure Entry where
  path : Text
  content : ByteArray
  deriving DecidableEq

/-- What callers hand over as the content of an entry. -/
inductive Content where
  | bytes (b : ByteArray)
  | text (t : Text)
  /-- A view of bytes that has been released, so that they cannot be had any more. -/
  | released
  /-- Neither bytes nor a text; only the name of its type matters. -/
  | other (typeName : String)

/-- The bytes of a content as a table takes it; nothing is encoded here. -/
def Content.frozen : Content → Except Failure ByteArray
  | .bytes b => .ok b
  | .text _ => .error (.content .textWithoutEncoding)
  | .released => .error .released
  | .other typeName => .error (.content (.notBytes typeName))

/-- An entry as it is offered to a table: a path, and the bytes of the content or why it has none. -/
structure Offer where
  path : Text
  bytes : Except Failure ByteArray

/-- The entries of an archive in order, and where each path first occurs. -/
structure Contents where
  entries : Array Entry
  firstAt : Std.HashMap Text Nat

namespace Contents

/-- The table without entries. -/
def empty : Contents := ⟨#[], ∅⟩

/-- The number of entries. -/
def size (t : Contents) : Nat := t.entries.size

/-- Puts an entry at the end. Its path keeps the place it was first seen at. -/
def append (t : Contents) (e : Entry) : Contents where
  entries := t.entries.push e
  firstAt := t.firstAt.insertIfNew e.path t.entries.size

/-- Work on a table in steps, which may fail; what was done before stays done. -/
abbrev Work (α : Type) := ExceptT Failure (StateM Contents) α

/-- What work comes to that begins with a table: its result and the table, or just its failure. -/
def Work.outcome {α : Type} (work : Work α) (t : Contents) : Except Failure (α × Contents) :=
  match work t with
  | (.ok a, t) => .ok (a, t)
  | (.error f, _) => .error f

/-- Takes an offer: the content has to have bytes; then the index learns the path, unless it knows it,
and the entry goes to the end. -/
def put (offer : Offer) : Work Entry := do
  let bytes ← ExceptT.mk (pure offer.bytes)
  let e : Entry := ⟨offer.path, bytes⟩
  modify fun t => { t with firstAt := t.firstAt.insertIfNew e.path t.entries.size }
  modify fun t => { t with entries := t.entries.push e }
  return e

/-- Takes offers in order until one fails. -/
def putAll : List Offer → Work Unit
  | [] => return
  | offer :: rest => do
    let _ ← put offer
    putAll rest

/-- The table of offers, all of which have to be taken. -/
def ofOffers (offers : List Offer) : Except Failure Contents :=
  ((putAll offers).outcome empty).map Prod.snd

/-- Puts an entry at the end, if its content is bytes. -/
def appendContent (t : Contents) (path : Text) (content : Content) :
    Except Failure (Entry × Contents) :=
  (put ⟨path, content.frozen⟩).outcome t

/-- The table of paths with contents, all of which have to be bytes. -/
def ofContents (pairs : List (Text × Content)) : Except Failure Contents :=
  ofOffers (pairs.map fun (path, content) => ⟨path, content.frozen⟩)

/-- The table of a list of entries. -/
def ofList (es : List Entry) : Contents :=
  es.foldl append empty

/-- The entries in order. -/
def toList (t : Contents) : List Entry := t.entries.toList

/-- The paths in order, with repetitions. -/
def paths (t : Contents) : List Text :=
  t.toList.map Entry.path

/-- Some entry has the path. -/
def contains (t : Contents) (path : Text) : Bool :=
  t.firstAt.contains path

/-- The first entry with the path. -/
def get? (t : Contents) (path : Text) : Option Entry :=
  t.firstAt[path]?.bind (t.entries[·]?)

/-- The first entry whose path ends with the suffix. -/
def findSuffix? (t : Contents) (suffix : Text) : Option Entry :=
  t.toList.find? fun e => suffix.toList.isSuffixOf e.path.toList

@[simp] theorem toList_empty : empty.toList = [] := rfl

@[simp] theorem toList_append (t : Contents) (e : Entry) :
    (t.append e).toList = t.toList ++ [e] := by
  simp [toList, append]

@[simp] theorem size_append (t : Contents) (e : Entry) : (t.append e).size = t.size + 1 := by
  simp [size, append]

theorem toList_foldl_append (es : List Entry) (t : Contents) :
    (es.foldl append t).toList = t.toList ++ es := by
  induction es generalizing t with
  | nil => simp
  | cons e es ih => simp [ih]

@[simp] theorem toList_ofList (es : List Entry) : (ofList es).toList = es := by
  simp [ofList, toList_foldl_append]

end Contents

end ZipContainer
