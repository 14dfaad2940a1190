import LoxLang.Directory
import LoxLang.Interactive
import LoxLang.Text.Digit

/-!
# The command line

**Arguments.** `-c` takes a source, `--dbg` a debugging aid, and one word that is no option names
a file.  The value of an option is the next argument, which must be a word, or stands behind an
equals sign; that of an option with one letter may also stand directly behind it.

**Words.** An argument that does not start with a hyphen is a word, and so is a hyphen alone.  One
that starts with an option of one letter, or has an option in front of an equals sign, is that
option, whatever else it holds.  Of the others, one that reads as a negative number or holds a
blank is a word too.  Behind `--` every argument is a word; `--` itself belongs to the file, so
when that was given before it stands directly behind it.

**Errors of usage.** Anything else is one, and so is asking for help by `-h` or `--help`: there is
none to be had here.

**Actions.** A source given by `-c` is run, else the file is run, else the session is interactive.

**Status.** A run ends with status 65 when a static error stopped it, with 70 after an error in
the running program, and else with 0.  An error of usage ends with status 2.

**Results.**
* `isNumber_append_newline`: a newline behind a number does not matter.
-/

namespace LoxLang
namespace CommandLine

section Arguments

/-- The options that there are. -/
inductive OptionName
  | command
  | flag
  | help
deriving DecidableEq, Repr

/-- What an argument is, seen by itself. -/
inductive Argument
  /-- No option. -/
  | word (s : String)
  /-- An option whose value is the next argument. -/
  | option (o : OptionName)
  /-- An option with its value. -/
  | withValue (o : OptionName) (value : String)
  /-- All that follows are words. -/
  | separator
  /-- An option that there is not. -/
  | unknown
deriving DecidableEq, Repr

/-- The option that is written so. -/
def option? (s : String) : Option OptionName :=
  if s = "-c" then some .command
  else if s = "--dbg" then some .flag
  else if s = "-h" ∨ s = "--help" then some .help
  else none

/-- The option of one letter that an argument starts with. -/
def letterOption? (letter : Char) : Option OptionName :=
  option? (String.ofList ['-', letter])

/-- The text without a newline at its end. -/
def dropNewline (cs : List Char) : List Char :=
  if cs.getLast? = some '\n' then cs.dropLast else cs

/-- Whether a text is digits, or digits behind a point that may have digits in front. -/
def isDigits (cs : List Char) : Bool :=
  let fraction := (cs.dropWhile Text.isDecimal).drop 1
  if cs.all Text.isDecimal then !cs.isEmpty
  else (cs.dropWhile Text.isDecimal).head? == some '.' && !fraction.isEmpty &&
    fraction.all Text.isDecimal

/-- Whether a text reads as a number without a sign; a newline may stand behind it. -/
def isNumber (cs : List Char) : Bool := isDigits (dropNewline cs)

/-- What an argument is, a hyphen and some characters, that starts with no option. -/
def classifyOther (s : String) (rest : List Char) : Argument :=
  if isNumber rest || rest.contains ' ' then .word s else .unknown

/-- What an argument is, a hyphen and some characters, that is not just an option and does not
have one in front of an equals sign. -/
def classifyBehindHyphen (s : String) : List Char → Argument
  | [] => .word s
  | letter :: rest =>
    match letterOption? letter with
    | some o => .withValue o (String.ofList rest)
    | none => classifyOther s (letter :: rest)

/-- What an argument is that starts with a hyphen and is not just an option. -/
def classifyHyphen (s : String) (rest : List Char) : Argument :=
  let name := s.toList.takeWhile (· ≠ '=')
  let value := s.toList.dropWhile (· ≠ '=')
  match option? (String.ofList name), value with
  | some o, _ :: value => .withValue o (String.ofList value)
  | _, _ => classifyBehindHyphen s rest

/-- What an argument is. -/
def classify (s : String) : Argument :=
  match option? s, s.toList with
  | some o, _ => .option o
  | none, '-' :: rest => if s = "--" then .separator else classifyHyphen s rest
  | none, _ => .word s

/-- What the arguments ask for. -/
structure Request where
  file : Option String
  command : Option String
  flags : List Flag
deriving DecidableEq, Repr

namespace Request

/-- Nothing asked for. -/
def empty : Request := ⟨none, none, []⟩

/-- The request with a file, unless there is one already. -/
def withFile (r : Request) (path : String) : Option Request :=
  match r.file with
  | none => some { r with file := some path }
  | some _ => none

/-- The request with the value of an option; a flag must be one that there is, and no request asks
for help. -/
def withOption (r : Request) (o : OptionName) (value : String) : Option Request :=
  match o with
  | .command => some { r with command := some value }
  | .flag => (Flag.ofName? value).map fun flag => { r with flags := r.flags ++ [flag] }
  | .help => none

end Request

/-- A request with words only. -/
def parseWords (r : Request) : List String → Option Request
  | [] => some r
  | s :: rest => (r.withFile s).bind fun r => parseWords r rest

/-- A request with all the arguments, or nothing where they are no proper use.  `atFile` says that
the argument before was the file. -/
def parseAll (r : Request) (atFile : Bool) : List String → Option Request
  | [] => some r
  | s :: rest =>
    match classify s, rest with
    | .word s, rest => (r.withFile s).bind fun r => parseAll r true rest
    | .withValue o value, rest => (r.withOption o value).bind fun r => parseAll r false rest
    | .separator, rest => if r.file.isNone || atFile then parseWords r rest else none
    | .unknown, _ => none
    | .option _, [] => none
    | .option o, value :: rest =>
      match classify value with
      | .word value => (r.withOption o value).bind fun r => parseAll r false rest
      | _ => none

/-- What the arguments ask for. -/
def parse (arguments : List String) : Option Request := parseAll .empty false arguments

theorem isNumber_append_newline {cs : List Char} (h : cs.getLast? ≠ some '\n') :
    isNumber (cs ++ ['\n']) = isNumber cs := by
  simp [isNumber, dropNewline, h]

end Arguments

section Actions

/-- The exit status after an error of usage. -/
def usageStatus : Nat := 2

/-- Runs one source. -/
def runSource (fuel : Nat) (flags : List Flag) (source : String) : Outcome :=
  let (s, report) := (Session.initial flags).run fuel source
  let ending : ProcessEnding :=
    match report.ending with
    | .finished => .status (if s.log.hadRuntime then runtimeErrorStatus else 0)
    | .exit status => .status status
    | .fault f => .fault f
    | .outOfFuel => .outOfFuel
  ⟨ending, report.output, renderAll report.diagnostics⟩

/-- Runs the contents of a file, if there is one. -/
def runFile (fuel : Nat) (flags : List Flag) (contents : Option String) : Outcome :=
  match contents with
  | none => ⟨.missingFile, "", ""⟩
  | some text => runSource fuel flags (String.ofList (Text.unifyNewlines text.toList))

/-- Does what is asked for, in a directory and with an input. -/
def perform (fuel : Nat) (files : Directory) (input : String) (r : Request) : Outcome :=
  match r.command, r.file with
  | some source, _ => runSource fuel r.flags source
  | none, some path => runFile fuel r.flags (files.read? path)
  | none, none =>
    Interactive.dialogue fuel (Session.initial r.flags) (Interactive.rowsOf input)

/-- What the program does with its arguments. -/
def run (fuel : Nat) (files : Directory) (input : String) (arguments : List String) : Outcome :=
  match parse arguments with
  | none => ⟨.status usageStatus, "", ""⟩
  | some r => perform fuel files input r

end Actions

end CommandLine
end LoxLang
