import LoxLang.Cursor
import Mathlib

/-!
# The use of a cursor

**Histories.** A cursor is used by one operation after another.  The history of a use has an event
for each operation: what was done, what stood ahead, and what was answered.  From the history alone
it can be told what was taken from the sequence, and what of it since the last mark.

**Statement.** As long as no operation expects the end, a cursor stands behind what its history says
was taken, and all that it answers agrees with that.  An operation that fails, or that does not find
what it expects, leaves the cursor where it is.

**Results.**
* `Agrees.perform`: one operation keeps a cursor in agreement with its history.
* `use_agrees`: the state of a cursor behind any use.
-/

namespace LoxLang
namespace Cursor

section Defs

variable {α : Type}

/-- What can be done with a cursor. -/
inductive Operation (α : Type)
  | hasNext (ahead : Int)
  | peek (ahead : Int)
  | require (ahead : Int)
  | previous
  | sees (expected : List (Option α))
  | advance
  | advanceIf (expected : List (Option α))
  | setMark
  | sinceMark

/-- What an operation answers if it does not fail. -/
inductive Answer (α : Type)
  | truth (b : Bool)
  | place (x : Option α)
  | item (x : α)
  | items (xs : List α)
  | done

/-- Whether no operation takes the end for an item. -/
def Operation.ExpectsItems : Operation α → Prop
  | sees expected | advanceIf expected => none ∉ expected
  | _ => True

/-- The answer of an operation, and the cursor behind it. -/
def perform [BEq α] (c : Cursor α) : Operation α → Except Fault (Answer α) × Cursor α
  | .hasNext ahead => (.ok (.truth (c.hasNext ahead)), c)
  | .peek ahead => (.ok (.place (c.peek ahead)), c)
  | .require ahead => ((c.require ahead).map .item, c)
  | .previous => (c.previous.map .item, c)
  | .sees expected => (.ok (.truth (c.sees expected)), c)
  | .advance =>
    match c.advance with
    | .ok (x, d) => (.ok (.item x), d)
    | .error f => (.error f, c)
  | .advanceIf expected => (.ok (.truth (c.advanceIf expected).1), (c.advanceIf expected).2)
  | .setMark => (.ok .done, c.setMark)
  | .sinceMark => (c.sinceMark.map .items, c)

/-- An operation in a history. -/
structure Event (α : Type) where
  operation : Operation α
  /-- The item that stood ahead. -/
  ahead : Option α
  answer : Except Fault (Answer α)

/-- The event of an operation. -/
def event [BEq α] (c : Cursor α) (op : Operation α) : Event α := ⟨op, c.peek 0, (c.perform op).1⟩

/-- The cursor behind operations. -/
def after [BEq α] (c : Cursor α) : List (Operation α) → Cursor α
  | [] => c
  | op :: ops => after (c.perform op).2 ops

/-- The history of operations. -/
def history [BEq α] (c : Cursor α) : List (Operation α) → List (Event α)
  | [] => []
  | op :: ops => c.event op :: history (c.perform op).2 ops

namespace Event

/-- What an event takes from the sequence: the item that an advance yields, or the item that a
conditional step passes over. -/
def taken : Event α → List α
  | ⟨.advance, _, .ok (.item x)⟩ => [x]
  | ⟨.advanceIf _, ahead, .ok (.truth true)⟩ => ahead.toList
  | _ => []

/-- Whether an event sets the mark. -/
def marks : Event α → Bool
  | ⟨.setMark, _, _⟩ => true
  | _ => false

/-- Whether an event is of an operation that fails or does not find what it expects. -/
def fails : Event α → Bool
  | ⟨_, _, .error _⟩ => true
  | ⟨.advanceIf _, _, .ok (.truth false)⟩ => true
  | _ => false

/-- What events take from the sequence. -/
def takenBy (es : List (Event α)) : List α := es.flatMap taken

/-- What events take from the sequence since the last mark, if there is a mark. -/
def takenSinceMark : List (Event α) → Option (List α)
  | [] => none
  | e :: es =>
    match takenSinceMark es with
    | some xs => some xs
    | none => if e.marks then some (takenBy es) else none

end Event

open Event

/-- Whether a cursor over some items agrees with a history. -/
structure Agrees (items : List α) (es : List (Event α)) (c : Cursor α) : Prop where
  sequence : c.items = items
  inside : c.position ≤ items.length
  behindMark : ∀ m, c.mark = some m → m ≤ c.position
  /-- What was taken are the items from the first on, each of them once. -/
  taken : takenBy es = items.take c.position
  sinceMark : c.sinceMark =
    match takenSinceMark es with
    | some xs => .ok xs
    | none => .error .noMark
  /-- What is seen some places ahead, or back, is the item there. -/
  peek : ∀ ahead x,
    c.peek ahead = some x ↔ ∃ n : Nat, (n : Int) = c.position + ahead ∧ items[n]? = some x
  outside : ∀ ahead,
    c.peek ahead = none ↔ c.position + ahead < 0 ∨ items.length ≤ c.position + ahead
  hasNext : ∀ ahead, c.hasNext ahead = (c.peek ahead).isSome

end Defs

section Looking

variable {α : Type} {c : Cursor α} {ahead : Int} {x : α}

theorem peek_eq_some_iff :
    c.peek ahead = some x ↔ ∃ n : Nat, (n : Int) = c.position + ahead ∧ c.items[n]? = some x := by
  unfold Cursor.peek place
  split
  · rename_i h
    constructor
    · intro hx
      exact ⟨_, Int.toNat_of_nonneg h, hx⟩
    · rintro ⟨n, hn, hx⟩
      rw [← hn, Int.toNat_natCast, hx]
  · constructor
    · intro hx
      cases hx
    · rintro ⟨n, hn, -⟩
      omega

theorem peek_eq_none_iff_outside :
    c.peek ahead = none ↔
      c.position + ahead < 0 ∨ c.items.length ≤ c.position + ahead := by
  rw [peek_eq_none_iff, hasNext, place, Bool.and_eq_false_iff, decide_eq_false_iff_not,
    decide_eq_false_iff_not, not_le, not_lt]

theorem hasNext_eq_isSome : c.hasNext ahead = (c.peek ahead).isSome := by
  cases h : c.peek ahead with
  | none => exact peek_eq_none_iff.mp h
  | some x =>
    cases hnext : c.hasNext ahead with
    | true => rfl
    | false => rw [peek_eq_none_iff.mpr hnext] at h; cases h

theorem getElem?_of_peek (h : c.peek 0 = some x) : c.items[c.position]? = some x := by
  obtain ⟨n, hn, hx⟩ := peek_eq_some_iff.mp h
  have hposition : n = c.position := by omega
  rwa [← hposition]

end Looking

open Event

section Histories

variable {α : Type} {es : List (Event α)} {e : Event α}

theorem takenBy_concat : takenBy (es ++ [e]) = takenBy es ++ e.taken := by
  simp [takenBy]

/-- A mark starts afresh, and what is taken later is added. -/
theorem takenSinceMark_concat :
    takenSinceMark (es ++ [e]) =
      if e.marks then some [] else (takenSinceMark es).map (· ++ e.taken) := by
  induction es with
  | nil => cases hmarks : e.marks <;> simp [takenSinceMark, takenBy, hmarks]
  | cons first es ih =>
    simp only [List.cons_append, takenSinceMark, ih, takenBy_concat]
    cases hmarks : e.marks with
    | true => simp
    | false =>
      cases hes : takenSinceMark es with
      | some xs => simp
      | none => cases hfirst : first.marks <;> simp

end Histories

section Steps

variable {α : Type} {items : List α} {es : List (Event α)} {c : Cursor α} {e : Event α} {x : α}

/-- What is seen of a sequence follows from the place in it. -/
theorem agrees_of_place (hsequence : c.items = items) (hinside : c.position ≤ items.length)
    (hbehind : ∀ m, c.mark = some m → m ≤ c.position)
    (htaken : takenBy es = items.take c.position)
    (hmark : c.sinceMark =
      match takenSinceMark es with
      | some xs => .ok xs
      | none => .error .noMark) : Agrees items es c where
  sequence := hsequence
  inside := hinside
  behindMark := hbehind
  taken := htaken
  sinceMark := hmark
  peek _ _ := hsequence ▸ peek_eq_some_iff
  outside _ := hsequence ▸ peek_eq_none_iff_outside
  hasNext _ := hasNext_eq_isSome

theorem agrees_ofList (items : List α) : Agrees items [] (ofList items) :=
  agrees_of_place rfl (Nat.zero_le _) nofun rfl rfl

/-- An event that takes nothing. -/
theorem Agrees.stay (h : Agrees items es c) (htaken : e.taken = []) (hmarks : e.marks = false) :
    Agrees items (es ++ [e]) c := by
  refine agrees_of_place h.sequence h.inside h.behindMark ?_ ?_
  · rw [takenBy_concat, htaken, List.append_nil, h.taken]
  · rw [takenSinceMark_concat, hmarks, htaken, h.sinceMark]
    cases takenSinceMark es <;> simp

/-- An event that takes the item ahead. -/
theorem Agrees.move (h : Agrees items es c) (hx : c.peek 0 = some x) (htaken : e.taken = [x])
    (hmarks : e.marks = false) :
    Agrees items (es ++ [e]) { c with position := c.position + 1 } := by
  have hitem : items[c.position]? = some x := h.sequence ▸ getElem?_of_peek hx
  have hlt : c.position < items.length := (List.getElem?_eq_some_iff.mp hitem).1
  refine agrees_of_place h.sequence hlt (fun m hm => ?_) ?_ ?_
  · have hle := h.behindMark m hm
    exact Nat.le_succ_of_le hle
  · rw [takenBy_concat, htaken, h.taken, List.take_add_one, hitem]
    rfl
  · rw [takenSinceMark_concat, hmarks, htaken]
    have hmark := h.sinceMark
    unfold Cursor.sinceMark at hmark ⊢
    cases hm : c.mark with
    | none =>
      rw [hm] at hmark
      cases hes : takenSinceMark es with
      | none => simp
      | some xs => simp [hes] at hmark
    | some m =>
      rw [hm] at hmark
      have hle := h.behindMark m hm
      cases hes : takenSinceMark es with
      | none => simp [hes] at hmark
      | some xs =>
        simp only [hes, Except.ok.injEq] at hmark
        -- The piece from the mark on gets one item longer, at its end.
        have hlength : c.position + 1 - m = c.position - m + 1 := by omega
        have hlast : (items.drop m)[c.position - m]? = some x := by
          rw [List.getElem?_drop, Nat.add_sub_cancel' hle, hitem]
        simp [hlength, List.take_add_one, ← hmark, h.sequence, hlast]

/-- An event that sets the mark. -/
theorem Agrees.mark (h : Agrees items es c) (htaken : e.taken = []) (hmarks : e.marks = true) :
    Agrees items (es ++ [e]) c.setMark := by
  refine agrees_of_place h.sequence h.inside (fun m hm => ?_) ?_ ?_
  · cases hm
    exact Nat.le_refl _
  · rw [takenBy_concat, htaken, List.append_nil, h.taken]
    rfl
  · rw [takenSinceMark_concat, hmarks]
    simp [Cursor.sinceMark, setMark]

variable [BEq α] {op : Operation α}

/-- What is found among items is an item. -/
theorem exists_peek_of_sees {expected : List (Option α)} (hexpected : none ∉ expected)
    (h : c.sees expected = true) : ∃ x, c.peek 0 = some x := by
  cases hpeek : c.peek 0 with
  | some x => exact ⟨x, rfl⟩
  | none =>
    rw [sees, hpeek, List.contains_iff_exists_mem_beq] at h
    obtain ⟨found, hfound, heq⟩ := h
    cases found with
    | none => exact absurd hfound hexpected
    | some x => cases heq

/-- One operation keeps a cursor in agreement with its history. -/
theorem Agrees.perform (h : Agrees items es c) (hop : op.ExpectsItems) :
    Agrees items (es ++ [c.event op]) (c.perform op).2 := by
  cases op with
  | advance =>
    cases hx : c.peek 0 with
    | none =>
      have hadvance : c.advance = .error .exhausted := by simp [advance, hx]
      simp only [Cursor.perform, event, hadvance]
      exact h.stay rfl rfl
    | some x =>
      have hadvance := advance_eq_ok_iff.mpr ⟨hx, rfl⟩
      simp only [Cursor.perform, event, hadvance]
      exact h.move hx rfl rfl
  | advanceIf expected =>
    cases hsees : c.sees expected with
    | false =>
      simp only [Cursor.perform, event, advanceIf, hsees, Bool.false_eq_true, if_false]
      exact h.stay rfl rfl
    | true =>
      obtain ⟨x, hx⟩ := exists_peek_of_sees hop hsees
      simp only [Cursor.perform, event, advanceIf, hsees, if_true, hx]
      exact h.move hx rfl rfl
  | setMark => exact h.mark rfl rfl
  | _ => exact h.stay rfl rfl

/-- An operation that fails, or does not find what it expects, does nothing. -/
theorem perform_of_fails (h : (c.event op).fails = true) : (c.perform op).2 = c := by
  cases op with
  | advance =>
    cases hadvance : c.advance with
    | error f => simp only [Cursor.perform, hadvance]
    | ok found => simp [event, Cursor.perform, hadvance, fails] at h
  | advanceIf expected =>
    cases hsees : c.sees expected with
    | false => simp [Cursor.perform, advanceIf, hsees]
    | true => simp [event, Cursor.perform, advanceIf, hsees, fails] at h
  | setMark => cases h
  | _ => rfl

/-- Operations keep a cursor in agreement with its history. -/
theorem Agrees.after {ops : List (Operation α)} (h : Agrees items es c)
    (hops : ∀ op ∈ ops, op.ExpectsItems) :
    Agrees items (es ++ c.history ops) (c.after ops) := by
  induction ops generalizing es c with
  | nil => rwa [history, List.append_nil]
  | cons op ops ih =>
    have hrest : ∀ op ∈ ops, op.ExpectsItems := fun op hop => hops op (List.mem_cons_of_mem _ hop)
    have hstep := ih (h.perform (hops op List.mem_cons_self)) hrest
    rwa [List.append_assoc] at hstep

end Steps

/-- Behind any use that takes the end for no item, a cursor agrees with its history, and stays what
it is when an operation fails or does not find what it expects. -/
theorem use_agrees {α : Type} [BEq α] (items : List α) (ops : List (Operation α))
    (hops : ∀ op ∈ ops, op.ExpectsItems) :
    let c := (ofList items).after ops
    Agrees items ((ofList items).history ops) c ∧
      ∀ op, (c.event op).fails = true → (c.perform op).2 = c :=
  ⟨(agrees_ofList items).after hops, fun _ => perform_of_fails⟩

section Cases

/-- A word with a mark in front of its second letter, behind which two letters are taken and a third
one is not what is expected. -/
def spelling : List (Operation Char) :=
  [.advance, .setMark, .advanceIf [some 'x', some 'o'], .peek (-3), .advance, .advanceIf [some 'y'],
    .sinceMark]

theorem spelling_agrees :
    let items := ['l', 'o', 'x']
    let c := (ofList items).after spelling
    (∀ op ∈ spelling, op.ExpectsItems) ∧ Agrees items ((ofList items).history spelling) c ∧
      (∀ op, (c.event op).fails = true → (c.perform op).2 = c) ∧
      c.sinceMark = .ok ['o', 'x'] ∧ c.advance = .error .exhausted := by
  have hops : ∀ op ∈ spelling, op.ExpectsItems := by simp [spelling, Operation.ExpectsItems]
  obtain ⟨hagrees, hfails⟩ := use_agrees ['l', 'o', 'x'] spelling hops
  exact ⟨hops, hagrees, hfails, rfl, rfl⟩

end Cases

end Cursor
end LoxLang
