import LoxLang.Diagnostic
import LoxLang.Text.Blank

/-!
# Segments of a source

**Division.** A source is divided into segments that follow one another without a gap: the lexeme
of a token, one white-space character, a comment up to the end of its line, one character that
nothing starts with, or a quote that is never closed, which takes all that is left.  At each
place the segment is the longest one that starts there; two slashes always start a comment.

**Tokens.** Tokens and diagnostics are read off the segments.  The line of a token is the one on
which its lexeme ends, so a string over several lines has the last of them.

**Results.**
* `text_append_first`: a segment and what is left make up the text it was taken from.
* `text_flatMap_split`: the segments of a source, one after another, are the source.
-/

namespace LoxLang

/-- The characters a name starts with. -/
def startsName (c : Char) : Bool := c = '_' || c.isAlpha

/-- The characters a name goes on with. -/
def continuesName (c : Char) : Bool := c = '_' || c.isAlphanum

/-- A piece of a source. -/
inductive Segment
  /-- What a token is read from. -/
  | lexeme (kind : Kind) (text : List Char)
  /-- One white-space character. -/
  | blank (c : Char)
  /-- Two slashes and the rest of the line. -/
  | comment (text : List Char)
  /-- A character that no segment starts with. -/
  | stray (c : Char)
  /-- A quote without a closing one, and all that follows it. -/
  | unclosed (text : List Char)
deriving DecidableEq, Repr

namespace Segment

/-- The characters of a segment. -/
def text : Segment → List Char
  | lexeme _ text => text
  | blank c => [c]
  | comment text => text
  | stray c => [c]
  | unclosed text => text

section Division

/-- A joinable operator, joined with an equals sign when one follows. -/
def firstOperator (c : Char) (alone joined : Kind) : List Char → Segment × List Char
  | '=' :: rest => (lexeme joined [c, '='], rest)
  | rest => (lexeme alone [c], rest)

/-- A comment when a second slash follows the first, else the operator. -/
def firstSlash : List Char → Segment × List Char
  | '/' :: rest =>
    (comment ('/' :: '/' :: rest.takeWhile (· ≠ '\n')), rest.dropWhile (· ≠ '\n'))
  | rest => (lexeme .slash ['/'], rest)

/-- A string up to the next quote, behind its opening quote. -/
def firstString (rest : List Char) : Segment × List Char :=
  match rest.dropWhile (· ≠ '"') with
  | [] => (unclosed ('"' :: rest), [])
  | close :: after => (lexeme .string ('"' :: rest.takeWhile (· ≠ '"') ++ [close]), after)

/-- Digits, and a point with further digits when a digit follows the point. -/
def firstNumber (c : Char) (rest : List Char) : Segment × List Char :=
  let whole := c :: rest.takeWhile Char.isDigit
  match rest.dropWhile Char.isDigit with
  | '.' :: d :: after =>
    if d.isDigit then
      (lexeme .number (whole ++ '.' :: d :: after.takeWhile Char.isDigit),
        after.dropWhile Char.isDigit)
    else (lexeme .number whole, '.' :: d :: after)
  | after => (lexeme .number whole, after)

/-- A word, which is a keyword or a name. -/
def firstWord (c : Char) (rest : List Char) : Segment × List Char :=
  let word := c :: rest.takeWhile continuesName
  (lexeme (Kind.ofWord word) word, rest.dropWhile continuesName)

/-- The segment that a text starts with, and the rest of the text. -/
def first (c : Char) (rest : List Char) : Segment × List Char :=
  match Kind.ofChar? c, Kind.ofJoinable? c with
  | some kind, _ => (lexeme kind [c], rest)
  | none, some (alone, joined) => firstOperator c alone joined rest
  | none, none =>
    if c = '/' then firstSlash rest
    else if c = '"' then firstString rest
    else if Text.isBlank c then (blank c, rest)
    else if c.isDigit then firstNumber c rest
    else if startsName c then firstWord c rest
    else (stray c, rest)

theorem text_append_first (c : Char) (rest : List Char) :
    (first c rest).1.text ++ (first c rest).2 = c :: rest := by
  have number : (firstNumber c rest).1.text ++ (firstNumber c rest).2 = c :: rest := by
    have h := List.takeWhile_append_dropWhile (p := Char.isDigit) (l := rest)
    unfold firstNumber
    split
    · rename_i d after hd
      split
      · simp [text, ← hd, h]
      · simp [text, ← hd, h]
    · simp [text, h]
  have string : (firstString rest).1.text ++ (firstString rest).2 = '"' :: rest := by
    have h := List.takeWhile_append_dropWhile (p := (· ≠ '"')) (l := rest)
    unfold firstString
    split
    · simp [text]
    · rename_i close after hd
      simp only [text, List.cons_append, List.append_assoc, List.nil_append, ← hd]
      rw [h]
  have slash : (firstSlash rest).1.text ++ (firstSlash rest).2 = '/' :: rest := by
    unfold firstSlash
    split
    · simp only [text, List.cons_append]
      rw [List.takeWhile_append_dropWhile]
    · simp [text]
  have operator (alone joined : Kind) :
      (firstOperator c alone joined rest).1.text ++ (firstOperator c alone joined rest).2 =
        c :: rest := by
    unfold firstOperator
    split <;> simp [text]
  unfold first
  split
  · simp [text]
  · exact operator _ _
  · split
    · rename_i hc
      exact hc ▸ slash
    · split
      · rename_i hc
        exact hc ▸ string
      · split
        · simp [text]
        · split
          · exact number
          · split
            · simp [firstWord, text, List.takeWhile_append_dropWhile]
            · simp [text]

theorem text_first_ne_nil (c : Char) (rest : List Char) : (first c rest).1.text ≠ [] := by
  have number : (firstNumber c rest).1.text ≠ [] := by
    unfold firstNumber
    split
    · split <;> simp [text]
    · simp [text]
  have string : (firstString rest).1.text ≠ [] := by
    unfold firstString
    split <;> simp [text]
  have slash : (firstSlash rest).1.text ≠ [] := by
    unfold firstSlash
    split <;> simp [text]
  have operator (alone joined : Kind) : (firstOperator c alone joined rest).1.text ≠ [] := by
    unfold firstOperator
    split <;> simp [text]
  unfold first
  split
  · simp [text]
  · exact operator _ _
  · split
    · exact slash
    · split
      · exact string
      · split
        · simp [text]
        · split
          · exact number
          · split <;> simp [firstWord, text]

theorem length_first_lt (c : Char) (rest : List Char) :
    (first c rest).2.length < (c :: rest).length := by
  have h := congrArg List.length (text_append_first c rest)
  have hne := List.length_pos_iff.2 (text_first_ne_nil c rest)
  rw [List.length_append] at h
  omega

/-- The segments of a text. -/
def split : List Char → List Segment
  | [] => []
  | c :: rest => (first c rest).1 :: split (first c rest).2
termination_by cs => cs.length
decreasing_by exact length_first_lt c rest

theorem text_flatMap_split (cs : List Char) : (split cs).flatMap text = cs := by
  fun_induction split cs with
  | case1 => rfl
  | case2 c rest ih => rw [List.flatMap_cons, ih, text_append_first]

end Division

end Segment

/-- Why a character, or a quote, is no token. -/
inductive LexicalError
  | unexpectedCharacter
  | unterminatedString
deriving DecidableEq, Repr

/-- The text of a lexical error. -/
def LexicalError.message : LexicalError → String
  | unexpectedCharacter => "Unexpected character."
  | unterminatedString => "Unterminated string."

/-- A lexical error has a line and no place on it. -/
def LexicalError.at (e : LexicalError) (line : Int) : Diagnostic :=
  ⟨.static, line, some "", e.message⟩

/-- The tokens of a source, and what is wrong with the rest of it. -/
structure Scan where
  tokens : List Token
  diagnostics : List Diagnostic

namespace Scan

/-- The number of newlines in a text. -/
def newlines (cs : List Char) : Nat := cs.count '\n'

/-- The value that a lexeme writes, for strings and numbers. -/
def literalOf (kind : Kind) (text : List Char) : Option Literal :=
  match kind with
  | .string => some (.text (String.ofList (text.drop 1).dropLast))
  | .number => some (.number (Decimal.ofLiteral text))
  | _ => none

/-- The tokens and diagnostics of segments that start on a line, with the end of the input. -/
def ofSegments (line : Int) : List Segment → Scan
  | [] => ⟨[Token.bare .endOfInput "" line], []⟩
  | segment :: more =>
    let next := line + newlines segment.text
    let scan := ofSegments next more
    match segment with
    | .lexeme kind text =>
      { scan with tokens := ⟨kind, String.ofList text, literalOf kind text, next⟩ :: scan.tokens }
    | .stray _ =>
      { scan with
        diagnostics := LexicalError.unexpectedCharacter.at line :: scan.diagnostics }
    | .unclosed _ =>
      { scan with
        diagnostics := LexicalError.unterminatedString.at next :: scan.diagnostics }
    | .blank _ => scan
    | .comment _ => scan

/-- The tokens and diagnostics of a source. -/
def ofSource (source : List Char) : Scan := ofSegments 1 (Segment.split source)

end Scan
end LoxLang
