/-!
# The shortest decimal of a binary number

**Input.** A positive double is `m · 2 ^ q` with a whole significand `m`.  The reals that round to
it form an interval around it: half a unit up, and half a unit down, or a quarter of one at the
lower end of a binade.  The ends belong to it when `m` is even.

**Algorithm.** On the grid of the multiples of `10 ^ k` only the two neighbours of the number can
be the nearest ones, so a grid meets the interval only if one of its two neighbours does.  The grids
are tried from the coarsest on; the first one with a hit wins, of two hits the nearer, and of two
equally near ones the even digit.  All comparisons are of natural numbers.

**Reading.** `Decimal.nearest` goes the other way: the double nearest to a quotient of two natural
numbers, ties to the even significand.
-/

namespace LoxLang
namespace Decimal

section Encoding

/-- The number of values that share a sign and an exponent: the hidden bit of a significand. -/
def hiddenBit : Nat := Nat.pow 2 52

/-- The least exponent of the last place of a double. -/
def leastExponent : Int := -1074

/-- The encoding of positive infinity. -/
def infinityBits : Nat := 0x7FF0000000000000

/-- Significand and exponent of the finite positive double with an encoding. -/
def decode (bits : Nat) : Nat × Int :=
  let exponent := bits / hiddenBit
  let fraction := bits % hiddenBit
  if exponent = 0 then (fraction, leastExponent)
  else (hiddenBit + fraction, leastExponent + exponent - 1)

/-- The encoding of `m · 2 ^ q`; a significand that has a bit too many carries into the exponent,
and what exceeds the range is infinite. -/
def encode (m : Nat) (q : Int) : Nat :=
  min infinityBits ((q - leastExponent).toNat * hiddenBit + m)

end Encoding

section Reading

/-- `num / den`, rounded to a whole number, a half to the even neighbour. -/
def roundHalfEven (num den : Nat) : Nat :=
  let whole := num / den
  let rest := num % den
  if 2 * rest < den ∨ (2 * rest = den ∧ whole % 2 = 0) then whole else whole + 1

/-- The quotient of `num / den` by `2 ^ q`, rounded. -/
def roundAt (num den : Nat) (q : Int) : Nat :=
  roundHalfEven (num * Nat.pow 2 (-q).toNat) (den * Nat.pow 2 q.toNat)

/-- The last place at which `num / den` has at least 53 bits, or the least one there is. -/
def lastPlace (num den : Nat) : Int :=
  let guess : Int := (num.log2 : Int) - den.log2 - 52
  let tooHigh := num * Nat.pow 2 (-guess).toNat < hiddenBit * (den * Nat.pow 2 guess.toNat)
  max leastExponent (if tooHigh then guess - 1 else guess)

/-- The double nearest to `num / den`. -/
def nearest (num den : Nat) : Float :=
  if num = 0 then 0.0
  else
    let q := lastPlace num den
    Float.ofBits (UInt64.ofNat (encode (roundAt num den q) q))

end Reading

section Writing

/-- A number and the ends of the interval that rounds to it, over one denominator. -/
structure Interval where
  value : Nat
  lower : Nat
  upper : Nat
  scale : Nat
  closed : Bool

/-- The interval of `m · 2 ^ q`, in quarters of the last place. -/
def Interval.of (m : Nat) (q : Int) : Interval :=
  let quarters := q - 2
  let up := Nat.pow 2 quarters.toNat
  let narrow := m = hiddenBit ∧ leastExponent < q
  { value := 4 * m * up
    lower := (4 * m - if narrow then 1 else 2) * up
    upper := (4 * m + 2) * up
    scale := Nat.pow 2 (-quarters).toNat
    closed := m % 2 = 0 }

/-- Whether `d · 10 ^ k` lies in the interval; `num` and `den` are `10 ^ k` as a quotient. -/
def Interval.meets (i : Interval) (num den d : Nat) : Bool :=
  let x := d * num * i.scale
  if i.closed then i.lower * den ≤ x && x ≤ i.upper * den
  else i.lower * den < x && x < i.upper * den

/-- The multiple of `10 ^ k` in the interval that is nearest to the number. -/
def Interval.hit? (i : Interval) (k : Int) : Option Nat :=
  let num := Nat.pow 10 k.toNat
  let den := Nat.pow 10 (-k).toNat
  let below := i.value * den / (num * i.scale)
  let lowHit := i.meets num den below
  let highHit := i.meets num den (below + 1)
  if lowHit && highHit then
    some (roundHalfEven (i.value * den) (num * i.scale))
  else if lowHit then some below
  else if highHit then some (below + 1)
  else none

/-- The first hit on the grids `10 ^ k`, `10 ^ (k - 1)`, …, at most `count` of them. -/
def Interval.firstHit (i : Interval) : Nat → Int → Nat × Int
  | 0, k => (i.value / i.scale, k)
  | count + 1, k =>
    match i.hit? k with
    | some d => (d, k)
    | none => i.firstHit count (k - 1)

/-- The exponent of a power of ten that is not below `2 ^ n`, the least one or the next, for any `n`
that the range of doubles needs. -/
def powerAbove (n : Int) : Int :=
  n * 30103 / 100000 + 1

/-- The fewest digits `d` with an exponent `k` such that `d · 10 ^ k` rounds to `m · 2 ^ q`.  From
the power of ten above the number, twenty grids reach seventeen digits. -/
def shortest (m : Nat) (q : Int) : Nat × Int :=
  (Interval.of m q).firstHit 20 (powerAbove (m.log2 + q + 1))

end Writing

example : shortest 1 (-1074) = (5, -324) := by decide +kernel
example : shortest 2 (-1074) = (1, -323) := by decide +kernel
example : shortest (hiddenBit + 0x999999999999A) (-56) = (1, -1) := by decide +kernel
example : shortest (2 ^ 53 - 1) 971 = (17976931348623157, 292) := by decide +kernel
example : decode 1 = (1, -1074) := by decide +kernel
example : encode (2 ^ 53) (-52) = encode (2 ^ 52) (-51) := by decide +kernel

end Decimal
end LoxLang
