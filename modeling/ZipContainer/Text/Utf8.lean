import ZipContainer.Text.Hexadecimal

/-!
# Strict UTF-8

Decoding of UTF-8 that names the first fault. A fault is the byte that cannot begin a character,
the valid beginning of a character that the next byte does not continue, or the valid beginning
of a character at which the data end.

`decode_toUTF8` says that the encoding of every text decodes to it.
-/

namespace ZipContainer.Text.Utf8

/-- What is wrong with the bytes of a fault. -/
inductive Defect where
  | invalidStart
  | invalidContinuation
  | unexpectedEnd
  deriving DecidableEq, Repr

/-- The first bytes that are no character: where they stand, how many, the first of them, and
what is wrong. -/
structure Fault where
  position : Nat
  length : Nat
  byte : UInt8
  defect : Defect
  deriving DecidableEq, Repr

/-- The wording of a defect. -/
def Defect.message : Defect → String
  | .invalidStart => "invalid start byte"
  | .invalidContinuation => "invalid continuation byte"
  | .unexpectedEnd => "unexpected end of data"

/-- The wording of a fault: a single byte is shown, several are given by their positions. -/
def Fault.message (f : Fault) : String :=
  let place :=
    if f.length = 1 then
      "byte 0x" ++ String.ofList (hexDigits 2 f.byte.toNat) ++ " in position " ++
        toString f.position
    else "bytes in position " ++ toString f.position ++ "-" ++
      toString (f.position + f.length - 1)
  "'utf-8' codec can't decode " ++ place ++ ": " ++ f.defect.message

/-- How many bytes follow a byte that begins a character; none for a byte that begins no
character. -/
def following (b : UInt8) : Option Nat :=
  if b < 0x80 then some 0
  else if b < 0xC2 then none
  else if b < 0xE0 then some 1
  else if b < 0xF0 then some 2
  else if b < 0xF5 then some 3
  else none

/-- The bytes that may stand second after a given first one: those that would spell a character
too long, a surrogate or a number beyond the last character are excluded. -/
def allowsSecond (first second : UInt8) : Bool :=
  let lo : UInt8 := if first = 0xE0 then 0xA0 else if first = 0xF0 then 0x90 else 0x80
  let hi : UInt8 := if first = 0xED then 0x9F else if first = 0xF4 then 0x8F else 0xBF
  lo ≤ second && second ≤ hi

/-- Reads on within a character of which `seen` bytes are valid and `needed` bytes are to
follow: either they do, or the defect and the number of valid bytes. -/
def continuation (seen : Nat) : Nat → List UInt8 → Except (Defect × Nat) Unit
  | 0, _ => .ok ()
  | _ + 1, [] => .error (.unexpectedEnd, seen)
  | needed + 1, b :: bs =>
    if 0x80 ≤ b && b ≤ 0xBF then continuation (seen + 1) needed bs
    else .error (.invalidContinuation, seen)

/-- Reads the character that begins with a given byte: how many bytes follow, or the defect and
how many bytes it covers. -/
def character (first : UInt8) (rest : List UInt8) : Except (Defect × Nat) Nat :=
  match following first with
  | none => .error (.invalidStart, 1)
  | some 0 => .ok 0
  | some (k + 1) =>
    match rest with
    | [] => .error (.unexpectedEnd, 1)
    | second :: more =>
      if allowsSecond first second then
        (continuation 2 k more).map fun _ => k + 1
      else .error (.invalidContinuation, 1)

/-- The first fault from position `pos` on; `skip` bytes belong to the character just read. -/
def faultFrom (pos : Nat) : Nat → List UInt8 → Option Fault
  | _, [] => none
  | skip + 1, _ :: bs => faultFrom (pos + 1) skip bs
  | 0, b :: bs =>
    match character b bs with
    | .error (d, n) => some ⟨pos, n, b, d⟩
    | .ok n => faultFrom (pos + 1) n bs

/-- The first fault of a byte string. -/
def fault? (b : ByteArray) : Option Fault :=
  faultFrom 0 0 b.data.toList

/-- The text that bytes encode, or their first fault. -/
def decode (b : ByteArray) : Except Fault String :=
  match String.fromUTF8? b with
  | some s => .ok s
  | none => .error ((fault? b).getD ⟨0, 0, 0, .invalidStart⟩)

theorem decode_toUTF8 (s : String) : decode s.toUTF8 = .ok s := by
  have h : String.fromUTF8? s.toUTF8 = some s := by
    have valid : s.toUTF8.IsValidUTF8 := s.isValidUTF8
    rw [String.fromUTF8?, dif_pos valid]
    rfl
  rw [decode, h]

end ZipContainer.Text.Utf8
