import ZipContainer.Text.Quoted
import ZipContainer.Text.Utf8
import ZipContainer.Bytes
import ZipContainer.Text.CodePage437

/-!
# Directory records

What the central directory of an archive says about one member, and how a message describes it.
-/

namespace ZipContainer.Zip

/-- The compression methods with a number of their own. -/
inductive Method where
  | stored
  | deflated
  | bzip2
  | lzma
  | zstandard
  deriving DecidableEq, Repr

namespace Method

/-- The number of a method in a record. -/
def code : Method → Nat
  | .stored => 0
  | .deflated => 8
  | .bzip2 => 12
  | .lzma => 14
  | .zstandard => 93

/-- The method with a number, if members packed by it can be read. -/
def ofCode? : Nat → Option Method
  | 0 => some .stored
  | 8 => some .deflated
  | 12 => some .bzip2
  | 14 => some .lzma
  | 93 => some .zstandard
  | _ => none

/-- All methods whose members can be read. -/
def all : List Method := [.stored, .deflated, .bzip2, .lzma, .zstandard]

end Method

/-- The flag bits of a record that matter to readers. -/
inductive Flag where
  | encrypted
  | compressedPatch
  | strongEncryption
  | utf8Name
  deriving DecidableEq, Repr

/-- The position of a flag among the sixteen. -/
def Flag.bit : Flag → Nat
  | .encrypted => 0
  | .compressedPatch => 5
  | .strongEncryption => 6
  | .utf8Name => 11

/-- The flag is set in a flag word. -/
def Flag.isSet (f : Flag) (word : Nat) : Bool :=
  word.testBit f.bit

/-- One record of a central directory, its sizes and offset taken from the 64-bit extra field
where that is in force, and its offset counted from the start of the data. -/
structure Record where
  madeBy : Nat
  system : Nat
  needs : Nat
  flags : Nat
  method : Nat
  time : Nat
  date : Nat
  crc : UInt32
  compressedSize : Nat
  size : Nat
  internal : Nat
  external : Nat
  /-- Where the member's local header begins; before the data for a damaged directory. -/
  offset : Int
  /-- The name as it is stored. -/
  fullName : Text
  extra : ByteArray
  comment : ByteArray
  deriving DecidableEq

/-- A name up to its first NUL. -/
def cutName (t : Text) : Text := ⟨t.toList.takeWhile (· ≠ .nul)⟩

/-- The text of a stored name: UTF-8 where the flags say so, code page 437 otherwise. -/
def nameText (flags : Nat) (stored : ByteArray) : Except Text.Utf8.Fault Text :=
  if Flag.utf8Name.isSet flags then (Text.Utf8.decode stored).map Text.ofString
  else .ok (Text.CodePage437.decode stored.data.toList)

namespace Record

/-- The name under which the member is known. -/
def name (r : Record) : Text := cutName r.fullName

/-- The record stands for a directory: its name ends in a slash. -/
def isDirectory (r : Record) : Bool :=
  r.name.toList.getLast? = some .slash

/-- The record has the flag. -/
def hasFlag (r : Record) (f : Flag) : Bool := f.isSet r.flags

/-- The usual name of a method number, or the number. -/
def methodName (method : Nat) : String :=
  match method with
  | 1 => "shrink"
  | 2 | 3 | 4 | 5 => "reduce"
  | 6 => "implode"
  | 7 => "tokenize"
  | 8 => "deflate"
  | 9 => "deflate64"
  | 10 => "implode"
  | 12 => "bzip2"
  | 14 => "lzma"
  | 18 => "terse"
  | 19 => "lz77"
  | 97 => "wavpack"
  | 98 => "ppmd"
  | n => toString n

/-- The letter of a file type, the top four bits of a file mode. -/
def fileTypeLetter (mode : Nat) : Char :=
  match mode / 0x1000 with
  | 0x1 => 'p'
  | 0x2 => 'c'
  | 0x4 => 'd'
  | 0x6 => 'b'
  | 0x8 => '-'
  | 0xA => 'l'
  | 0xC => 's'
  | _ => '?'

/-- Read, write and execute letters of one class of users; `special` is the letter of the
class's special bit, which takes the place of the execute letter. -/
def permissionLetters (bits : Nat) (isSpecial : Bool) (special : Char) : List Char :=
  [if bits.testBit 2 then 'r' else '-',
   if bits.testBit 1 then 'w' else '-',
   if isSpecial then (if bits.testBit 0 then special else special.toUpper)
   else if bits.testBit 0 then 'x' else '-']

/-- A file mode as a directory listing shows it. -/
def modeLetters (mode : Nat) : String :=
  String.ofList <| fileTypeLetter mode ::
    (permissionLetters (mode / 64 % 8) (mode.testBit 11) 's' ++
     permissionLetters (mode / 8 % 8) (mode.testBit 10) 's' ++
     permissionLetters (mode % 8) (mode.testBit 9) 't')

/-- The record as a message shows it; parts with their usual values are left out. -/
def describe (r : Record) : String :=
  let mode := r.external / 0x10000
  let low := r.external % 0x10000
  let part (shown : Bool) (text : String) : String := if shown then text else ""
  "<ZipInfo filename=" ++ Text.quote r.name ++
    part (r.method ≠ 0) (" compress_type=" ++ methodName r.method) ++
    part (mode ≠ 0) (" filemode='" ++ modeLetters mode ++ "'") ++
    part (low ≠ 0) (" external_attr=0x" ++ Text.hexNumeral low) ++
    part (!r.isDirectory || r.size ≠ 0) (" file_size=" ++ toString r.size) ++
    part ((!r.isDirectory || r.compressedSize ≠ 0) &&
      (r.method ≠ 0 || r.size ≠ r.compressedSize))
      (" compress_size=" ++ toString r.compressedSize) ++ ">"

end Record

end ZipContainer.Zip
