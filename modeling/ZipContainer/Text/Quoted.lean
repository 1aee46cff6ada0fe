import ZipContainer.Text.Printable

/-!
# Quoted text

How messages show a text or a byte string: between quotes, with escapes for what cannot be shown.

The quote is `'`, unless the text holds `'` and no `"`. A backslash and the chosen quote are
escaped by a backslash; tab, line feed and carriage return are `\t`, `\n` and `\r`; every other
code point that is not printable is `\xhh`, `\uhhhh` or `\Uhhhhhhhh` in lower-case hexadecimal.
A byte string is shown as `b` and the same, where the bytes outside `0x20` to `0x7e` count as not
printable.
-/

namespace ZipContainer.Text

/-- The quote that encloses a text. -/
def quoteFor (ps : List Point) : Char :=
  if ps.contains '\'' && !ps.contains '"' then '"' else '\''

/-- The hexadecimal escape of a code point: the shortest of the three forms that holds it. -/
def escapeCode (n : Nat) : List Char :=
  if n < 0x100 then '\\' :: 'x' :: hexDigits 2 n
  else if n < 0x10000 then '\\' :: 'u' :: hexDigits 4 n
  else '\\' :: 'U' :: hexDigits 8 n

/-- The form of one code point between the quotes `q`, where `shown` tells which stand for
themselves. -/
def quotePoint (shown : Point → Bool) (q : Char) (p : Point) : List Char :=
  if p = q ∨ p = '\\' then ['\\', p.toChar]
  else if p = '\t' then ['\\', 't']
  else if p = '\n' then ['\\', 'n']
  else if p = '\r' then ['\\', 'r']
  else if shown p then [p.toChar]
  else escapeCode p.toNat

/-- Encloses code points in quotes. -/
def enclose (shown : Point → Bool) (ps : List Point) : List Char :=
  let q := quoteFor ps
  q :: ps.flatMap (quotePoint shown q) ++ [q]

/-- The quoted form of a text. -/
def quote (t : Text) : String :=
  String.ofList (enclose printable t.toList)

/-- The bytes that stand for themselves in a quoted byte string. -/
def visibleByte (p : Point) : Bool :=
  0x20 ≤ p.toNat && p.toNat ≤ 0x7e

/-- The quoted form of a byte string. -/
def quoteBytes (b : ByteArray) : String :=
  String.ofList ('b' :: enclose visibleByte (b.data.toList.map Point.ofByte))

example : quote "it's" = "\"it's\"" := by decide +kernel

example : quote "a\"b'\n\u200b" = "'a\"b\\'\\n\\u200b'" := by decide +kernel

end ZipContainer.Text
