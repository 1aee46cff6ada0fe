/-!
# Hexadecimal digits

Lower-case hexadecimal numerals of fixed and of least width.
-/

namespace ZipContainer.Text

/-- One lower-case hexadecimal digit. -/
def hexDigit (n : Nat) : Char :=
  Char.ofNat (if n < 10 then 48 + n else 87 + n)

/-- The low `w` hexadecimal digits of `n`, most significant first. -/
def hexDigits : Nat → Nat → List Char
  | 0, _ => []
  | w + 1, n => hexDigits w (n / 16) ++ [hexDigit (n % 16)]

/-- A number below `16 ^ 4` in as few hexadecimal digits as it needs. -/
def hexNumeral (n : Nat) : String :=
  String.ofList (hexDigits (if n < 0x10 then 1 else if n < 0x100 then 2
    else if n < 0x1000 then 3 else 4) n)

end ZipContainer.Text
