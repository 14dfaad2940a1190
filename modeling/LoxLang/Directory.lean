import LoxLang.Bindings

/-!
# Directories

A directory holds files, each under a name, and no other directories.

**Paths.** A path is read as the components between its slashes.  The last of them names the file,
and each one in front of it must stay in the directory: it is empty or a point.  A path that
starts with a slash, or goes anywhere else, leads to no file of the directory.

**Results.**
* `read?_of_noSlash`: a path without slashes is the name of a file.
* `read?_here`: a point and a slash in front of a path that is not absolute change nothing.
-/

namespace LoxLang

/-- Files by their names, with what they contain. -/
abbrev Directory := Bindings String

namespace Directory

section Paths

/-- What stands between the slashes of a path. -/
def components : List Char → List (List Char)
  | [] => [[]]
  | c :: rest =>
    if c = '/' then
      [] :: components rest
    else
      match components rest with
      | [] => [[c]]
      | part :: more => (c :: part) :: more

/-- Whether a component leads nowhere else. -/
def stays (part : List Char) : Bool := part.isEmpty || part = ['.']

/-- The name that components lead to without leaving the directory. -/
def nameOf? : List (List Char) → Option String
  | [] => none
  | [name] => some (String.ofList name)
  | part :: rest => if stays part then nameOf? rest else none

/-- Whether a path starts at the root. -/
def isAbsolute (path : List Char) : Bool := path.head? = some '/'

/-- What the file contains that a path leads to. -/
def read? (d : Directory) (path : String) : Option String :=
  if isAbsolute path.toList then none
  else (nameOf? (components path.toList)).bind fun name => d.get? name

end Paths

section Lemmas

theorem components_ne_nil (path : List Char) : components path ≠ [] := by
  cases path with
  | nil => simp [components]
  | cons c rest =>
    unfold components
    split
    · simp
    · split <;> simp

theorem components_of_noSlash {path : List Char} (h : '/' ∉ path) : components path = [path] := by
  induction path with
  | nil => rfl
  | cons c rest ih =>
    rw [List.mem_cons, not_or] at h
    simp [components, ih h.2, Ne.symm h.1]

theorem nameOf?_cons_of_stays {part : List Char} {rest : List (List Char)}
    (hpart : stays part = true) (hrest : rest ≠ []) : nameOf? (part :: rest) = nameOf? rest := by
  cases rest with
  | nil => exact absurd rfl hrest
  | cons next more => simp [nameOf?, hpart]

theorem read?_of_noSlash (d : Directory) {path : String} (h : '/' ∉ path.toList) :
    d.read? path = d.get? path := by
  have habs : isAbsolute path.toList = false := by
    cases hp : path.toList with
    | nil => rfl
    | cons c rest =>
      rw [hp, List.mem_cons, not_or] at h
      simp [isAbsolute, Ne.symm h.1]
  simp [read?, habs, components_of_noSlash h, nameOf?]

theorem read?_here (d : Directory) {path : String} (h : isAbsolute path.toList = false) :
    d.read? ("./" ++ path) = d.read? path := by
  have hparts : components ("./" ++ path).toList = ['.'] :: components path.toList := by
    simp [components]
  have habs : isAbsolute ("./" ++ path).toList = false := by
    simp [isAbsolute]
  simp only [read?, habs, h, hparts]
  rw [nameOf?_cons_of_stays (by decide) (components_ne_nil _)]

end Lemmas

end Directory
end LoxLang
