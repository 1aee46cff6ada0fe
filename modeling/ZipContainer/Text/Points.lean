import ZipContainer.Text.Hexadecimal

/-!
# Texts

A text is a sequence of code points. Other than the characters of a string these may be
surrogates, which stand for half a character and have no UTF-8. A text without surrogates is a
string (`Text.IsUnicode`, `Text.string`) and has the UTF-8 of that string; any other is refused
where bytes are needed, for the first of its surrogates (`Text.encode`).
-/

namespace ZipContainer

/-- A code point. -/
structure Point where
  code : Fin 0x110000
  deriving DecidableEq, Hashable, Repr

namespace Point

/-- The number of a code point. -/
def toNat (p : Point) : Nat := p.code.val

/-- The code point of a character. -/
@[coe] def ofChar (c : Char) : Point :=
  ⟨⟨c.toNat, by
    have valid := c.valid
    unfold UInt32.isValidChar Nat.isValidChar at valid
    unfold Char.toNat
    omega⟩⟩

instance : Coe Char Point := ⟨ofChar⟩

/-- The points that names and paths are cut at. -/
def nul : Point := '\x00'
@[inherit_doc nul] def slash : Point := '/'
@[inherit_doc nul] def backslash : Point := '\\'
@[inherit_doc nul] def colon : Point := ':'

/-- The code point that a byte gives the number of. -/
def ofByte (b : UInt8) : Point :=
  ⟨⟨b.toNat, Nat.lt_trans b.toNat_lt (by decide)⟩⟩

/-- The point is half a character. -/
def isSurrogate (p : Point) : Bool := 0xD800 ≤ p.toNat && p.toNat < 0xE000

/-- The character of a code point; a surrogate is shown as one that cannot be. -/
def toChar (p : Point) : Char :=
  if p.isSurrogate then '\ufffd' else Char.ofNat p.toNat

@[simp] theorem toNat_ofChar (c : Char) : (ofChar c).toNat = c.toNat := rfl

/-- The numbers of points that are no surrogates are those of characters. -/
theorem isSurrogate_eq_false_iff {p : Point} :
    p.isSurrogate = false ↔ p.toNat.isValidChar := by
  have inRange : p.toNat < 0x110000 := p.code.isLt
  rw [isSurrogate, Bool.and_eq_false_iff, decide_eq_false_iff_not, decide_eq_false_iff_not,
    Nat.isValidChar]
  omega

@[simp] theorem isSurrogate_ofChar (c : Char) : (ofChar c).isSurrogate = false :=
  isSurrogate_eq_false_iff.mpr c.valid

@[simp] theorem toChar_ofChar (c : Char) : (ofChar c).toChar = c := by
  rw [toChar, isSurrogate_ofChar, toNat_ofChar, Char.ofNat_toNat]
  rfl

/-- A point that is no surrogate has the number of its character. -/
theorem toNat_toChar {p : Point} (h : p.isSurrogate = false) : p.toChar.toNat = p.toNat := by
  rw [toChar, h, if_neg Bool.false_ne_true, Char.ofNat, dif_pos (isSurrogate_eq_false_iff.mp h)]
  rfl

@[inherit_doc toNat_toChar]
theorem ofChar_toChar {p : Point} (h : p.isSurrogate = false) : ofChar p.toChar = p :=
  congrArg Point.mk (Fin.ext (toNat_toChar h))

/-- The points of ASCII are no surrogates. -/
theorem isSurrogate_of_lt {p : Point} (h : p.toNat < 0x80) : p.isSurrogate = false :=
  isSurrogate_eq_false_iff.mpr (.inl (Nat.lt_trans h (by decide)))

/-- Only one point is shown as NUL. -/
theorem eq_nul_of_toChar {p : Point} (h : p.toChar = '\x00') : p = nul := by
  cases surrogate : p.isSurrogate with
  | false => rw [← ofChar_toChar surrogate, h, nul]
  | true =>
      rw [toChar, if_pos surrogate] at h
      exact absurd h (by decide)

end Point

/-- A text. -/
structure Text where
  toList : List Point
  deriving DecidableEq, Hashable, Repr

namespace Text

/-- The text of a string. -/
@[coe] def ofString (s : String) : Text := ⟨s.toList.map Point.ofChar⟩

instance : Coe String Text := ⟨ofString⟩

instance : Append Text := ⟨fun t t' => ⟨t.toList ++ t'.toList⟩⟩

/-- The string of a text; surrogates are shown as a character that stands for none. -/
def string (t : Text) : String := String.ofList (t.toList.map Point.toChar)

/-- There are no surrogates in the text. -/
def IsUnicode (t : Text) : Prop := ∀ p ∈ t.toList, p.isSurrogate = false

instance (t : Text) : Decidable t.IsUnicode :=
  inferInstanceAs (Decidable (∀ p ∈ t.toList, p.isSurrogate = false))

/-- The bytes of a text in UTF-8, with the string that shows it in its place. -/
def toUTF8 (t : Text) : ByteArray := t.string.toUTF8

/-- The first surrogates of a text: where they stand, how many follow each other, and the first of
them. -/
structure Loose where
  position : Nat
  length : Nat
  point : Point
  deriving DecidableEq, Repr

/-- Why surrogates are refused. A single one is shown, several are given by their positions. -/
def Loose.message (l : Loose) : String :=
  let place :=
    if l.length = 1 then
      " '\\u" ++ String.ofList (hexDigits 4 l.point.toNat) ++ "' in position " ++ toString l.position
    else
      "s in position " ++ toString l.position ++ "-" ++ toString (l.position + l.length - 1)
  "'utf-8' codec can't encode character" ++ place ++ ": surrogates not allowed"

/-- The first surrogates, if there are any. -/
def loose? (t : Text) : Option Loose :=
  (t.toList.find? Point.isSurrogate).map fun p =>
    let position := t.toList.findIdx Point.isSurrogate
    ⟨position, ((t.toList.drop position).takeWhile Point.isSurrogate).length, p⟩

/-- The bytes of a text in UTF-8, or the first surrogates. -/
def encode (t : Text) : Except Loose ByteArray :=
  match t.loose? with
  | none => .ok t.toUTF8
  | some l => .error l

@[simp] theorem toList_append (t t' : Text) : (t ++ t').toList = t.toList ++ t'.toList := rfl

@[simp] theorem string_ofString (s : String) : (s : Text).string = s := by
  have back : Point.toChar ∘ Point.ofChar = id := funext Point.toChar_ofChar
  rw [string, ofString, List.map_map, back, List.map_id, String.ofList_toList]

theorem isUnicode_ofString (s : String) : (s : Text).IsUnicode := by
  intro p hp
  obtain ⟨c, -, rfl⟩ := List.mem_map.mp hp
  exact Point.isSurrogate_ofChar c

/-- **A text without surrogates is its string.** -/
theorem ofString_string {t : Text} (h : t.IsUnicode) : (t.string : Text) = t := by
  have back : ∀ p ∈ t.toList, (Point.ofChar ∘ Point.toChar) p = id p := fun p hp =>
    Point.ofChar_toChar (h p hp)
  rw [ofString, string, String.toList_ofList, List.map_map, List.map_congr_left back, List.map_id]

/-- Surrogates are found exactly where there are any. -/
theorem loose?_eq_none_iff {t : Text} : t.loose? = none ↔ t.IsUnicode := by
  simp [loose?, IsUnicode]

/-- **A text has bytes exactly if it has no surrogates.** -/
theorem encode_eq_ok_iff {t : Text} {b : ByteArray} :
    t.encode = .ok b ↔ t.IsUnicode ∧ t.toUTF8 = b := by
  rw [encode, ← loose?_eq_none_iff]
  cases t.loose? <;> simp

theorem encode_of_isUnicode {t : Text} (h : t.IsUnicode) : t.encode = .ok t.toUTF8 :=
  encode_eq_ok_iff.mpr ⟨h, rfl⟩

example : (⟨[Point.ofChar 'a', ⟨0xD800⟩, ⟨0xDFFF⟩]⟩ : Text).loose?.map Loose.message =
    some "'utf-8' codec can't encode characters in position 1-2: surrogates not allowed" := by
  decide +kernel

end Text

end ZipContainer
