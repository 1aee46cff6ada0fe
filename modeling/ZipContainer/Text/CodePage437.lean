/-!
# Code page 437

The single-byte encoding of member names that are not marked as UTF-8: the lower half is ASCII.
-/

namespace ZipContainer.Text.CodePage437

/-- The characters of the bytes from `0x80` on. -/
def upperHalf : Array Char :=
  #['Ç', 'ü', 'é', 'â', 'ä', 'à', 'å', 'ç', 'ê', 'ë', 'è', 'ï',
    'î', 'ì', 'Ä', 'Å', 'É', 'æ', 'Æ', 'ô', 'ö', 'ò', 'û', 'ù',
    'ÿ', 'Ö', 'Ü', '¢', '£', '¥', '₧', 'ƒ', 'á', 'í', 'ó', 'ú',
    'ñ', 'Ñ', 'ª', 'º', '¿', '⌐', '¬', '½', '¼', '¡', '«', '»',
    '░', '▒', '▓', '│', '┤', '╡', '╢', '╖', '╕', '╣', '║', '╗',
    '╝', '╜', '╛', '┐', '└', '┴', '┬', '├', '─', '┼', '╞', '╟',
    '╚', '╔', '╩', '╦', '╠', '═', '╬', '╧', '╨', '╤', '╥', '╙',
    '╘', '╒', '╓', '╫', '╪', '┘', '┌', '█', '▄', '▌', '▐', '▀',
    'α', 'ß', 'Γ', 'π', 'Σ', 'σ', 'µ', 'τ', 'Φ', 'Θ', 'Ω', 'δ',
    '∞', 'φ', 'ε', '∩', '≡', '±', '≥', '≤', '⌠', '⌡', '÷', '≈',
    '°', '∙', '·', '√', 'ⁿ', '²', '■', '\u00a0']

/-- The character a byte stands for. -/
def decodeByte (b : UInt8) : Char :=
  if b < 0x80 then Char.ofNat b.toNat
  else upperHalf.getD (b.toNat - 0x80) '?'

/-- The text that bytes stand for; every byte string is one. -/
def decode (bs : List UInt8) : String :=
  String.ofList (bs.map decodeByte)

example : upperHalf.size = 128 := rfl

/-- On ASCII bytes the code page is ASCII. -/
theorem decodeByte_ascii {b : UInt8} (h : b < 0x80) : decodeByte b = Char.ofNat b.toNat := by
  simp [decodeByte, h]

end ZipContainer.Text.CodePage437
