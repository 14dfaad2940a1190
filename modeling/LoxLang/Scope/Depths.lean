import LoxLang.Syntax

/-!
# Recorded depths

How many frames lie between a reference and its binding, for every reference that refers to a
local binding.  The entries stand in the order in which they were recorded; recording a node
again replaces its depth and keeps its place.  Nothing is ever removed, because functions of
earlier sources go on using the depths of their references.

**Results.**
* `depth?_record`: what is recorded for a node after a recording.
-/

namespace LoxLang
namespace Scope

/-- A reference with its recorded depth. -/
structure DepthEntry where
  use : Use
  reference : Reference
  depth : Int

/-- One line of a dump of recorded depths. -/
def DepthEntry.dump (e : DepthEntry) : String :=
  "[line " ++ toString e.reference.token.line ++ "] " ++ e.reference.name ++
    " (" ++ e.use.nodeName ++ ") -> " ++ toString e.depth

/-- The recorded depths, the earliest first. -/
structure Depths where
  entries : List DepthEntry

namespace Depths

/-- Nothing recorded. -/
def empty : Depths := ⟨[]⟩

/-- How many references have a recorded depth. -/
def size (d : Depths) : Nat := d.entries.length

/-- The depth of the first entry of a node. -/
def find? (node : NodeId) : List DepthEntry → Option Int
  | [] => none
  | entry :: rest => if entry.reference.node = node then some entry.depth else find? node rest

/-- The depth that is recorded for a node. -/
def depth? (d : Depths) (node : NodeId) : Option Int := find? node d.entries

/-- The entries with one more, which takes the place of an earlier one of its node. -/
def put (entry : DepthEntry) : List DepthEntry → List DepthEntry
  | [] => [entry]
  | old :: rest =>
    if old.reference.node = entry.reference.node then { old with depth := entry.depth } :: rest
    else old :: put entry rest

/-- Records the depth of a reference. -/
def record (d : Depths) (use : Use) (reference : Reference) (depth : Int) : Depths :=
  ⟨put ⟨use, reference, depth⟩ d.entries⟩

theorem depth?_record (d : Depths) (use : Use) (r : Reference) (depth : Int) (node : NodeId) :
    (d.record use r depth).depth? node = if r.node = node then some depth else d.depth? node := by
  obtain ⟨entries⟩ := d
  simp only [record, depth?]
  induction entries with
  | nil => simp [put, find?]
  | cons old rest ih =>
    by_cases h : old.reference.node = r.node
    · simp only [put, h, if_true, find?]
      split <;> rfl
    · simp only [put, h, if_false, find?, ih]
      by_cases ho : old.reference.node = node
      · simp [← ho, Ne.symm h]
      · simp [ho]

end Depths
end Scope
end LoxLang
