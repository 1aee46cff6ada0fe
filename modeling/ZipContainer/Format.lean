import ZipContainer.Zip.Decode
import ZipContainer.Zip.Encode

/-!
# Formats

A format turns the bytes of an archive into entries and back. Archives and drafts work with any
format; the usual one is ZIP.
-/

namespace ZipContainer

/-- A way to read and to write archives. -/
structure Format where
  decode : ByteArray → Except Failure (List Entry)
  /-- Writes entries at a given local time. -/
  encode : Moment → List Entry → Except Failure ByteArray
  /-- The names of members whose unpacking is worth a notice. -/
  noteworthy : ByteArray → List Text
  /-- The number under which calls are counted, if they are. -/
  counter : Option Nat

namespace Zip

/-- The limit on the sizes of entries that is in force unless another is asked for. -/
def defaultLimit : Int := 268435456

/-- ZIP, with members written by a method and read up to a limit on their size. -/
def format [Zstandard.Decoder] (method : WriteMethod) (limit : Option Int) : Format where
  decode data := Zip.decode data limit
  encode now entries := Zip.encode method now entries
  noteworthy data := zstandardMembers data limit
  counter := none

/-- A write method as it is asked for: by its number, or by a value that is none. -/
inductive MethodChoice where
  | code (n : Int)
  | other (shown : String)
  deriving DecidableEq, Repr

/-- The method that is asked for; members can only be written by some. -/
def MethodChoice.method (compressor : Deflate.Compressor) :
    MethodChoice → Except Failure WriteMethod
  | .code n =>
    match WriteMethod.ofCode? compressor n with
    | some m => .ok m
    | none => .error (.writeMethod (toString n))
  | .other shown => .error (.writeMethod shown)

end Zip

/-- The format that is used unless another is asked for. -/
def Format.default [Zstandard.Decoder] (compressor : Deflate.Compressor) : Format :=
  Zip.format (.default compressor) (some Zip.defaultLimit)

/-- A format that answers every call in a fixed way. -/
def Format.scripted (decoded : Except Failure (List Entry)) (encoded : Except Failure ByteArray)
    (counter : Option Nat) : Format where
  decode _ := decoded
  encode _ _ := encoded
  noteworthy _ := []
  counter := counter

end ZipContainer
