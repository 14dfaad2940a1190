import LoxLang.Decimal.Shortest

/-!
# Written numbers

**Layouts.** A layout says how the shortest digits of a double are laid out: from which to which
exponent the point stands among the digits, the mark of the exponent, whether a whole number keeps
a fraction of zero, and the texts of the values that have no digits.  An exponent has a sign and
at least two digits.  There are two layouts: `output` for printed numbers and `dump` for number
literals in a dump of tokens.

**Reading.** A literal is digits with or without a point among them; `ofLiteral` is the double
nearest to it, infinite where the range ends.
-/

namespace LoxLang
namespace Decimal

/-- How the digits of a number are laid out. -/
structure Layout where
  /-- The least exponent of the leading digit that is written with zeros. -/
  positionalFrom : Int
  /-- The least exponent above it that is written behind the mark. -/
  positionalBelow : Int
  /-- The mark of an exponent. -/
  mark : Char
  /-- Whether a whole number is written with a fraction of zero. -/
  wholeFraction : Bool
  /-- The text of what is not a number. -/
  notANumber : String
  /-- The text of infinity, without its sign. -/
  infinite : String

/-- Printed numbers: whole ones without a fraction, exponents behind a capital mark. -/
def output : Layout := ⟨-4, 16, 'E', false, "NaN", "Infinity"⟩

/-- Number literals in a dump: whole ones keep a fraction of zero, exponents behind a small mark. -/
def dump : Layout := ⟨-4, 16, 'e', true, "nan", "inf"⟩

namespace Layout

/-- Digits with the point behind the digit of exponent zero; `k` is the exponent of the last. -/
def positional (layout : Layout) (digits : List Char) (k : Int) : List Char :=
  let whole := digits.length + k
  if 0 ≤ k then
    digits ++ List.replicate k.toNat '0' ++ if layout.wholeFraction then ['.', '0'] else []
  else if 0 < whole then
    digits.take whole.toNat ++ '.' :: digits.drop whole.toNat
  else
    '0' :: '.' :: List.replicate (-whole).toNat '0' ++ digits

/-- One digit, the others behind a point, and the exponent of the first. -/
def scientific (layout : Layout) (digits : List Char) (exponent : Int) : List Char :=
  let fraction := if digits.length ≤ 1 then [] else '.' :: digits.drop 1
  let places := Nat.toDigits 10 exponent.natAbs
  let sign := if exponent < 0 then '-' else '+'
  digits.take 1 ++ fraction ++ layout.mark :: sign ::
    (if places.length < 2 then '0' :: places else places)

/-- A finite number without its sign. -/
def magnitude (layout : Layout) (bits : Nat) : List Char :=
  if bits = 0 then layout.positional ['0'] 0
  else
    let (m, q) := decode bits
    let (d, k) := shortest m q
    let digits := Nat.toDigits 10 d
    let exponent := digits.length + k - 1
    if layout.positionalFrom ≤ exponent ∧ exponent < layout.positionalBelow then
      layout.positional digits k
    else
      layout.scientific digits exponent

/-- The text of a double. -/
def write (layout : Layout) (x : Float) : String :=
  let bits := x.toBits.toNat
  let rest := bits % Nat.pow 2 63
  let sign := if bits < Nat.pow 2 63 then "" else "-"
  if infinityBits < rest then layout.notANumber
  else if rest = infinityBits then sign ++ layout.infinite
  else sign ++ String.ofList (layout.magnitude rest)

end Layout

/-- The value of a digit. -/
def digitValue (c : Char) : Nat := c.toNat - '0'.toNat

/-- The number that digits write. -/
def ofDigits (digits : List Char) : Nat :=
  digits.foldl (fun n c => 10 * n + digitValue c) 0

/-- The double nearest to a literal. -/
def ofLiteral (text : List Char) : Float :=
  let whole := text.takeWhile (· ≠ '.')
  let fraction := (text.dropWhile (· ≠ '.')).drop 1
  nearest (ofDigits (whole ++ fraction)) (Nat.pow 10 fraction.length)

end Decimal
end LoxLang
