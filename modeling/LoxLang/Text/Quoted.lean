import LoxLang.Text.Printable

/-!
# Quoted text

**Format.** A text is written between single quotes, or between double quotes when it holds a
single quote and no double one.  A backslash and the chosen quote take a backslash in front; a
line feed, a carriage return and a tabulator have letters of their own; any other character that
does not print is written as its code point in two, four or eight lower-case hexadecimal digits.
-/

namespace LoxLang
namespace Text

/-- The quote that a text is written between. -/
def quoteOf (cs : List Char) : Char :=
  if cs.contains '\'' && !cs.contains '"' then '"' else '\''

/-- The lower-case hexadecimal digits of a number, with zeros in front up to a width. -/
def hex (width n : Nat) : List Char :=
  let digits := Nat.toDigits 16 n
  List.replicate (width - digits.length) '0' ++ digits

/-- The code point of a character, behind the letter that tells how many digits it has. -/
def codePoint (c : Char) : List Char :=
  if c.toNat < 0x100 then '\\' :: 'x' :: hex 2 c.toNat
  else if c.toNat < 0x10000 then '\\' :: 'u' :: hex 4 c.toNat
  else '\\' :: 'U' :: hex 8 c.toNat

/-- One character as it is written between two quotes. -/
def escape (quote c : Char) : List Char :=
  if c = quote ∨ c = '\\' then ['\\', c]
  else if c = '\n' then ['\\', 'n']
  else if c = '\r' then ['\\', 'r']
  else if c = '\t' then ['\\', 't']
  else if isPrintable c then [c]
  else codePoint c

/-- A text in its quoted form. -/
def quoted (s : String) : String :=
  let quote := quoteOf s.toList
  String.ofList (quote :: s.toList.flatMap (escape quote) ++ [quote])

example : quoted "it's" = "\"it's\"" := by decide +kernel
example : quoted "a\\\n'\"" = "'a\\\\\\n\\'\"'" := by decide +kernel
example : quoted "\u00a0\u2028é" = "'\\xa0\\u2028é'" := by decide +kernel

end Text
end LoxLang
