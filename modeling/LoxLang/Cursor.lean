/-!
# Cursors over a sequence

**State.** A cursor stands in front of an item of a sequence, or behind the last one, and may
carry a mark that it set at an earlier place.  It looks ahead and back without moving.

**Moving.** `advance` takes the next item.  `advanceIf` moves on when the item ahead is among the
expected ones, which any comparison of items may decide; out of range there is no item ahead, and
`none` among the expected ones stands for that, so a cursor can be sent past the end on purpose.

**Results.**
* `peek_eq_none_iff`: nothing is seen exactly where `hasNext` says that nothing is.
* `advance_eq_ok_iff`: advancing takes the item that `peek` shows and moves by one place.
* `advanceIf_position`, `advanceIf_items`: a conditional step moves by one place or not at all.
-/

namespace LoxLang

/-- A place in a sequence, with a mark that may have been set. -/
structure Cursor (α : Type) where
  items : List α
  position : Nat
  mark : Option Nat
deriving Repr

namespace Cursor

/-- Why a cursor operation fails. -/
inductive Fault
  /-- An item was to be taken behind the last one. -/
  | exhausted
  /-- An item was required where there is none. -/
  | outOfRange
  /-- What was read since the mark was asked for, and no mark was set. -/
  | noMark
deriving DecidableEq, Repr

/-- The text of a fault. -/
def Fault.message : Fault → String
  | exhausted => "Items have been exhausted."
  | outOfRange => "peeked past the end of the stream"
  | noMark => "Marker is not set."

section Defs

variable {α : Type}

/-- A cursor in front of the first item. -/
def ofList (items : List α) : Cursor α := ⟨items, 0, none⟩

/-- The place some items ahead, or back when the distance is negative. -/
def place (c : Cursor α) (ahead : Int) : Int := c.position + ahead

/-- Whether there is an item some places ahead. -/
def hasNext (c : Cursor α) (ahead : Int) : Bool :=
  0 ≤ c.place ahead && c.place ahead < c.items.length

/-- The item some places ahead. -/
def peek (c : Cursor α) (ahead : Int) : Option α :=
  if 0 ≤ c.place ahead then c.items[(c.place ahead).toNat]? else none

/-- The item some places ahead, which must be there. -/
def require (c : Cursor α) (ahead : Int) : Except Fault α :=
  match c.peek ahead with
  | some x => .ok x
  | none => .error .outOfRange

/-- The item taken last, which must be there. -/
def previous (c : Cursor α) : Except Fault α := c.require (-1)

/-- The next item and the cursor behind it. -/
def advance (c : Cursor α) : Except Fault (α × Cursor α) :=
  match c.peek 0 with
  | some x => .ok (x, { c with position := c.position + 1 })
  | none => .error .exhausted

/-- Puts the mark at the present place. -/
def setMark (c : Cursor α) : Cursor α := { c with mark := some c.position }

/-- The items from the mark to the present place. -/
def sinceMark (c : Cursor α) : Except Fault (List α) :=
  match c.mark with
  | some m => .ok ((c.items.drop m).take (c.position - m))
  | none => .error .noMark

variable [BEq α]

/-- Whether the item ahead is among the expected ones. -/
def sees (c : Cursor α) (expected : List (Option α)) : Bool :=
  expected.contains (c.peek 0)

/-- Moves on when the item ahead is among the expected ones, and says whether it did. -/
def advanceIf (c : Cursor α) (expected : List (Option α)) : Bool × Cursor α :=
  if c.sees expected then (true, { c with position := c.position + 1 }) else (false, c)

end Defs

section Lemmas

variable {α : Type}

theorem peek_eq_none_iff {c : Cursor α} {ahead : Int} :
    c.peek ahead = none ↔ c.hasNext ahead = false := by
  simp only [peek, hasNext, Bool.and_eq_false_iff, decide_eq_false_iff_not]
  split
  · rename_i h
    rw [List.getElem?_eq_none_iff]
    omega
  · simp [*]

theorem advance_eq_ok_iff {c d : Cursor α} {x : α} :
    c.advance = .ok (x, d) ↔ c.peek 0 = some x ∧ d = { c with position := c.position + 1 } := by
  cases h : c.peek 0 <;> simp [advance, h, eq_comm]

variable [BEq α]

theorem advanceIf_items {c : Cursor α} {expected : List (Option α)} :
    (c.advanceIf expected).2.items = c.items := by
  unfold advanceIf
  split <;> rfl

theorem advanceIf_position {c : Cursor α} {expected : List (Option α)} :
    (c.advanceIf expected).2.position = c.position + if c.sees expected then 1 else 0 := by
  unfold advanceIf
  split <;> rfl

end Lemmas

end Cursor
end LoxLang
