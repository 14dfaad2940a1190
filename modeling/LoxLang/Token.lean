import LoxLang.Decimal.Notation
import LoxLang.Text.Quoted

/-!
# Tokens

**Kinds.** A token is a punctuator, an operator, a word of the language, a name, a literal or the
end of the input.  `Kind.spelling` is how a kind is written in a source and `Kind.name` how a dump
calls it.

**Tokens.** A token carries the text it was read from, the value of a literal, and the line on
which that text ends.

**Results.**
* `Kind.ofWord_eq_identifier_iff`: a word is a name exactly when it is no keyword's spelling.
-/

namespace LoxLang

/-- What a token is. -/
inductive Kind
  | leftParen | rightParen | leftBrace | rightBrace | comma | dot | semicolon
  | minus | plus | slash | star
  | bang | bangEqual | equal | equalEqual | greater | greaterEqual | less | lessEqual
  | andWord | classWord | elseWord | falseWord | funWord | forWord | ifWord | nilWord | orWord
  | printWord | returnWord | superWord | thisWord | trueWord | varWord | whileWord
  | identifier | string | number
  | endOfInput
deriving DecidableEq, Repr

namespace Kind

/-- All kinds, in the order of their declaration. -/
def all : List Kind :=
  [leftParen, rightParen, leftBrace, rightBrace, comma, dot, semicolon, minus, plus, slash, star,
   bang, bangEqual, equal, equalEqual, greater, greaterEqual, less, lessEqual,
   andWord, classWord, elseWord, falseWord, funWord, forWord, ifWord, nilWord, orWord,
   printWord, returnWord, superWord, thisWord, trueWord, varWord, whileWord,
   identifier, string, number, endOfInput]

/-- The kinds that are written as words of the language. -/
def keywords : List Kind :=
  [andWord, classWord, elseWord, falseWord, funWord, forWord, ifWord, nilWord, orWord, printWord,
   returnWord, superWord, thisWord, trueWord, varWord, whileWord]

/-- How a kind is written in a source; names, literals and the end have the name of their kind. -/
def spelling : Kind → String
  | leftParen => "(" | rightParen => ")" | leftBrace => "\x7b" | rightBrace => "\x7d"
  | comma => "," | dot => "." | semicolon => ";"
  | minus => "-" | plus => "+" | slash => "/" | star => "*"
  | bang => "!" | bangEqual => "!=" | equal => "=" | equalEqual => "=="
  | greater => ">" | greaterEqual => ">=" | less => "<" | lessEqual => "<="
  | andWord => "and" | classWord => "class" | elseWord => "else" | falseWord => "false"
  | funWord => "fun" | forWord => "for" | ifWord => "if" | nilWord => "nil" | orWord => "or"
  | printWord => "print" | returnWord => "return" | superWord => "super" | thisWord => "this"
  | trueWord => "true" | varWord => "var" | whileWord => "while"
  | identifier => "identifier" | string => "string" | number => "number"
  | endOfInput => "eof"

/-- How a dump calls a kind. -/
def name : Kind → String
  | leftParen => "LEFT_PAREN" | rightParen => "RIGHT_PAREN"
  | leftBrace => "LEFT_BRACE" | rightBrace => "RIGHT_BRACE"
  | comma => "COMMA" | dot => "DOT" | semicolon => "SEMICOLON"
  | minus => "MINUS" | plus => "PLUS" | slash => "SLASH" | star => "STAR"
  | bang => "BANG" | bangEqual => "BANG_EQUAL" | equal => "EQUAL" | equalEqual => "EQUAL_EQUAL"
  | greater => "GREATER" | greaterEqual => "GREATER_EQUAL"
  | less => "LESS" | lessEqual => "LESS_EQUAL"
  | andWord => "AND" | classWord => "CLASS" | elseWord => "ELSE" | falseWord => "FALSE"
  | funWord => "FUN" | forWord => "FOR" | ifWord => "IF" | nilWord => "NIL" | orWord => "OR"
  | printWord => "PRINT" | returnWord => "RETURN" | superWord => "SUPER" | thisWord => "THIS"
  | trueWord => "TRUE" | varWord => "VAR" | whileWord => "WHILE"
  | identifier => "IDENTIFIER" | string => "STRING" | number => "NUMBER"
  | endOfInput => "EOF"

/-- The kind that a dump calls so. -/
def ofName? (s : String) : Option Kind :=
  all.find? fun kind => kind.name = s

/-- The kind of a word: a keyword when it is spelled exactly like one, else a name. -/
def ofWord (word : List Char) : Kind :=
  (keywords.find? fun kind => kind.spelling.toList = word).getD identifier

/-- The kind of a character that is a token whatever follows it. -/
def ofChar? : Char → Option Kind
  | '(' => some leftParen
  | ')' => some rightParen
  | '\x7b' => some leftBrace
  | '\x7d' => some rightBrace
  | ',' => some comma
  | '.' => some dot
  | ';' => some semicolon
  | '-' => some minus
  | '+' => some plus
  | '*' => some star
  | _ => none

/-- The kinds of a character that may be joined with an equals sign: alone, and joined. -/
def ofJoinable? : Char → Option (Kind × Kind)
  | '!' => some (bang, bangEqual)
  | '=' => some (equal, equalEqual)
  | '>' => some (greater, greaterEqual)
  | '<' => some (less, lessEqual)
  | _ => none

theorem mem_all (kind : Kind) : kind ∈ all := by
  cases kind <;> decide

theorem ofWord_eq_identifier_iff {word : List Char} :
    ofWord word = identifier ↔ ∀ kind ∈ keywords, kind.spelling.toList ≠ word := by
  unfold ofWord
  cases h : keywords.find? fun kind => kind.spelling.toList = word with
  | none => simpa using h
  | some kind =>
    have hmem := List.mem_of_find?_eq_some h
    have hword := List.find?_some h
    constructor
    · rintro rfl
      exact absurd hmem (by decide)
    · intro hall
      exact absurd (by simpa using hword) (hall kind hmem)

end Kind

/-- The value that a literal writes. -/
inductive Literal
  | text (s : String)
  | number (x : Float)

/-- The text of a literal's value in the plain layout of a dump. -/
def Literal.plain : Literal → String
  | text s => s
  | number x => Decimal.dump.write x

/-- The text of a literal's value in a dump. -/
def Literal.quoted : Literal → String
  | text s => Text.quoted s
  | number x => Decimal.dump.write x

/-- A piece of a source that means something. -/
structure Token where
  kind : Kind
  lexeme : String
  literal : Option Literal
  line : Int

namespace Token

/-- A token that carries no literal. -/
def bare (kind : Kind) (lexeme : String) (line : Int) : Token := ⟨kind, lexeme, none, line⟩

/-- One line of a dump of tokens. -/
def dump (t : Token) : String :=
  t.kind.name ++ ": lexeme=" ++ Text.quoted t.lexeme ++ ", literal=" ++
    (t.literal.map Literal.quoted).getD "None" ++ " @ line " ++ toString t.line

/-- One line of a dump of tokens in the plain layout. -/
def plain (t : Token) : String :=
  t.kind.name ++ " " ++ t.lexeme ++ " " ++ (t.literal.map Literal.plain).getD "null"

end Token
end LoxLang
