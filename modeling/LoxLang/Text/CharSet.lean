/-!
# Sets of characters given by ranges

A character class of a standard is written down as a list of ranges of code points, both ends
included.  Membership is decided by comparing the code point with the ends.
-/

namespace LoxLang
namespace Text

/-- Ranges of code points, both ends included. -/
abbrev CharSet := List (Nat × Nat)

namespace CharSet

/-- Whether one of the ranges holds the character. -/
def contains (set : CharSet) (c : Char) : Bool :=
  set.any fun range => range.1 ≤ c.toNat && c.toNat ≤ range.2

theorem contains_iff {set : CharSet} {c : Char} :
    set.contains c = true ↔ ∃ range ∈ set, range.1 ≤ c.toNat ∧ c.toNat ≤ range.2 := by
  simp [contains]

end CharSet

end Text
end LoxLang
