import ZipContainer.Text.Pieces
import ZipContainer.Text.Quoted

/-!
# Entry paths

The canonical form of the path under which an entry is stored.

A path is cut into segments at every `/` and `\`; empty segments and `.` are dropped, and `..`
takes away the nearest name before it that is still there. What remains is joined by `/`. A path
is refused when it holds a NUL, when it is absolute (it begins with a separator or with a drive
letter), when a `..` finds no name to take away, and when no name remains.
-/

namespace ZipContainer.EntryPath

/-- Why a path is refused. -/
inductive Fault where
  /-- The path is not a text. -/
  | notText
  /-- The path holds a NUL, at which archive readers cut names. -/
  | nul (path : Text)
  | absolute (path : Text)
  /-- Some `..` climbs above the root of the archive. -/
  | escapes (path : Text)
  /-- No name remains. -/
  | empty (path : Text)
  /-- A refusal in the words of whoever raised it. -/
  | custom (text : String)
  deriving DecidableEq, Repr

/-- The wording of a refusal. -/
def Fault.message : Fault → String
  | .notText => "Path must be a string"
  | .nul p => "NUL byte in path: " ++ Text.quote p
  | .absolute p => "Absolute path not allowed: " ++ Text.quote p
  | .escapes p => "Path escapes archive root: " ++ Text.quote p
  | .empty p => "Empty path: " ++ Text.quote p
  | .custom text => text

/-- The points that separate segments. -/
def isSeparator (p : Point) : Bool :=
  p = .slash || p = .backslash

/-- The ASCII letters. -/
def isDriveLetter (p : Point) : Bool :=
  ('a'.toNat ≤ p.toNat && p.toNat ≤ 'z'.toNat) || ('A'.toNat ≤ p.toNat && p.toNat ≤ 'Z'.toNat)

/-- The path begins with a separator or with a drive letter and a colon. -/
def isAbsolute : List Point → Bool
  | [] => false
  | [p] => isSeparator p
  | p :: q :: _ => isSeparator p || (isDriveLetter p && q = .colon)

/-- The segment that stays where it is. -/
def here : List Point := ['.']

/-- The segment that climbs. -/
def up : List Point := ['.', '.']

/-- The segments of a path: its pieces but for the empty ones and `.`. -/
def segments (ps : List Point) : List (List Point) :=
  (Text.pieces isSeparator ps).filter fun s => s ≠ [] && s ≠ here

/-- Takes one segment onto the stack of names that are still there, the nearest first. -/
def enter (stack : List (List Point)) (segment : List Point) : Option (List (List Point)) :=
  if segment = up then
    match stack with
    | [] => none
    | _ :: rest => some rest
  else some (segment :: stack)

/-- The names that remain of a list of segments; none when some `..` finds no name. -/
def resolve (segs : List (List Point)) : Option (List (List Point)) :=
  (segs.foldlM enter []).map List.reverse

/-- The canonical form of a path. -/
def normalize (path : Text) : Except Fault Text :=
  let ps := path.toList
  if ps.contains .nul then .error (.nul path)
  else if isAbsolute ps then .error (.absolute path)
  else match resolve (segments ps) with
    | none => .error (.escapes path)
    | some [] => .error (.empty path)
    | some names => .ok ⟨List.intercalate [.slash] names⟩

/-- A path as callers hand it over: a text, or some other value of which only the printed form
matters. -/
inductive Argument where
  | text (path : Text)
  | other (shown : String)
  deriving DecidableEq, Repr

/-- The argument as a message shows it. -/
def Argument.shown : Argument → String
  | .text p => Text.quote p
  | .other s => s

/-- The canonical form of an argument; only a text has one. -/
def Argument.normalize : Argument → Except Fault Text
  | .text p => EntryPath.normalize p
  | .other _ => .error .notText

/-- The argument can be stored under. -/
def Argument.isSafe (a : Argument) : Bool :=
  a.normalize.isOk

end ZipContainer.EntryPath
