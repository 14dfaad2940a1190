import LoxLang.Text.Digit
import LoxLang.Text.Lines

/-!
# Annotated scripts

**Annotations.** A script says in comments what it should do.  A line may hold one annotation of
each form:

* an expected line of output, behind `// expect:` and a blank that may be left out;
* a static error on that line, behind `//` and a blank, from the word `Error` on;
* a static error on a line that the annotation names;
* an error of the running program on that line.

The first place at which a form matches counts.

**Conflicts.** A script with a static error does not run, so one that expects both a static error
and an error of the running program is refused.
-/

namespace LoxLang
namespace Script

section Matching

/-- What follows an opening, if the text starts with it. -/
def behind : List Char → List Char → Option (List Char)
  | [], cs => some cs
  | o :: opening, c :: cs => if o = c then behind opening cs else none
  | _ :: _, [] => none

/-- The first match at any place of a text. -/
def search {α : Type} (form : List Char → Option α) : List Char → Option α
  | [] => form []
  | c :: cs =>
    match form (c :: cs) with
    | some a => some a
    | none => search form cs

/-- An expected line of output. -/
def outputForm (cs : List Char) : Option (List Char) :=
  (behind "// expect:".toList cs).map fun rest =>
    match rest with
    | ' ' :: text => text
    | text => text

/-- A static error on the line itself. -/
def errorForm (cs : List Char) : Option (List Char) :=
  (behind "// ".toList cs).bind fun rest => (behind "Error".toList rest).map fun _ => rest

/-- A static error on a line that is named, by the digits of its number. -/
def errorAtLineForm (cs : List Char) : Option (List Char × List Char) :=
  (behind "// [line ".toList cs).bind fun rest =>
    let number := rest.takeWhile Text.isDecimal
    if number.isEmpty then none
    else
      (behind "] ".toList (rest.dropWhile Text.isDecimal)).bind fun rest =>
        (behind "Error".toList rest).map fun _ => (number, rest)

/-- An error of the running program. -/
def runtimeErrorForm (cs : List Char) : Option (List Char) :=
  (behind "// expect runtime error: ".toList cs).bind fun rest =>
    if rest.isEmpty then none else some rest

end Matching

/-- The text of an expected diagnostic. -/
def atLine (number text : List Char) : String :=
  "[line " ++ String.ofList number ++ "] " ++ String.ofList text

/-- The annotations found so far, each form in the order of the lines. -/
structure Annotations where
  output : List String
  staticErrors : List String
  runtimeErrors : List String
deriving DecidableEq, Repr

/-- The digits of the number of a line. -/
def lineNumber (n : Nat) : List Char := Nat.toDigits 10 n

/-- The annotations of one line. -/
def Annotations.ofLine (number : Nat) (line : List Char) : Annotations where
  output := (search outputForm line).toList.map String.ofList
  staticErrors :=
    (search errorForm line).toList.map (atLine (lineNumber number)) ++
      (search errorAtLineForm line).toList.map fun found => atLine found.1 found.2
  runtimeErrors := (search runtimeErrorForm line).toList.map (atLine (lineNumber number))

/-- The annotations of lines that are numbered from a number on. -/
def Annotations.ofLines (number : Nat) : List (List Char) → Annotations
  | [] => ⟨[], [], []⟩
  | line :: rest =>
    let here := ofLine number line
    let later := ofLines (number + 1) rest
    ⟨here.output ++ later.output, here.staticErrors ++ later.staticErrors,
      here.runtimeErrors ++ later.runtimeErrors⟩

/-- What a script should do. -/
structure Expectations where
  output : List String
  diagnostics : List String
deriving DecidableEq, Repr

/-- Why a script is refused. -/
inductive ScriptError
  | conflictingErrors
deriving DecidableEq, Repr

/-- The text of a refusal. -/
def ScriptError.message : ScriptError → String
  | conflictingErrors => "A script cannot expect both static and runtime errors."

/-- The expectations that annotations amount to. -/
def Annotations.expectations (a : Annotations) : Except ScriptError Expectations :=
  match a.staticErrors, a.runtimeErrors with
  | _ :: _, _ :: _ => .error .conflictingErrors
  | [], runtimeErrors => .ok ⟨a.output, runtimeErrors⟩
  | staticErrors, [] => .ok ⟨a.output, staticErrors⟩

/-- What the annotations of a script say that it should do. -/
def Expectations.ofSource (source : List Char) : Except ScriptError Expectations :=
  (Annotations.ofLines 1 (Text.lines source)).expectations

end Script
end LoxLang
