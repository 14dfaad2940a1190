import LoxLang.Text.CharSet

/-!
# White space

**The class.** White space between tokens, and at the ends of an output line that is compared
with an expectation, is the bidirectional white space of Unicode: the separators of lines,
paragraphs, segments and words.

**Results.**
* `isBlank_of_isWhitespace`: what core counts as white space is white space here.
* `strip_eq_nil_iff`: a text is stripped to nothing when it is all white space.
-/

namespace LoxLang
namespace Text

/-- White space as ranges of code points. -/
def blanks : CharSet :=
  [(0x0009, 0x000D), (0x001C, 0x0020), (0x0085, 0x0085), (0x00A0, 0x00A0), (0x1680, 0x1680),
   (0x2000, 0x200A), (0x2028, 0x2029), (0x202F, 0x202F), (0x205F, 0x205F), (0x3000, 0x3000)]

/-- Whether a character is white space. -/
def isBlank (c : Char) : Bool :=
  blanks.contains c

/-- The text without the white space at its two ends. -/
def strip (cs : List Char) : List Char :=
  ((cs.dropWhile isBlank).reverse.dropWhile isBlank).reverse

theorem isBlank_of_isWhitespace {c : Char} (h : c.isWhitespace = true) : isBlank c = true := by
  simp only [Char.isWhitespace, Bool.or_eq_true, decide_eq_true_eq] at h
  rcases h with ((rfl | rfl) | rfl) | rfl <;> decide

theorem strip_eq_nil_iff {cs : List Char} : strip cs = [] ↔ ∀ c ∈ cs, isBlank c = true := by
  have key : ∀ l : List Char, l.dropWhile isBlank = [] ↔ ∀ c ∈ l, isBlank c = true := by
    intro l
    induction l with
    | nil => simp
    | cons c l ih => cases h : isBlank c <;> simp [h, ih]
  constructor
  · intro h
    have tail : ∀ c ∈ cs.dropWhile isBlank, isBlank c = true := by
      simpa [strip, key] using h
    by_cases hd : cs.dropWhile isBlank = []
    · exact (key cs).1 hd
    · exact absurd (tail _ (List.head_mem hd)) (by simp [List.head_dropWhile_not])
  · intro h
    simp [strip, (key cs).2 h]

end Text
end LoxLang
