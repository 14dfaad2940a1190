import LoxLang.Proofs.Steps
import LoxLang.Proofs.Syntax.Nodes
import LoxLang.Syntax.Parser

/-!
# The numbers that the parser gives

Each reference of a tree gets the number that is next.  A number is given once only, also where a
tree is put together in another order than it was read in, as a counted loop is, and where a tree
that was read is given up, as the target of an assignment is.

**Results.**
* `ofTokens_within`: the numbers of what a program is read as are distinct and lie between the
  number that was next at the start and the one that is next at the end; all that is reported are
  static errors.
-/

namespace LoxLang
namespace Parser

open Steps

/-- What a parser never undoes, whatever tokens it meets: it numbers upward, and it reports static
errors behind what was reported. -/
structure Onward (s s' : ParserState) : Prop where
  nextNode : s.nextNode ≤ s'.nextNode
  diagnostics : ∃ ds, s'.diagnostics = s.diagnostics ++ ds ∧ ∀ d ∈ ds, d.phase = .static

/-- Whether a stop that is recovered from is a static error. -/
def Static : ParserStop → Prop
  | .syntaxError d => d.phase = .static
  | _ => True

namespace Onward

variable {s s' s'' : ParserState}

/-- A state in which nothing more was reported. -/
theorem of_eq (hn : s.nextNode ≤ s'.nextNode) (hd : s'.diagnostics = s.diagnostics) :
    Onward s s' :=
  ⟨hn, [], by rw [hd, List.append_nil], by simp⟩

theorem refl (s : ParserState) : Onward s s := of_eq (Nat.le_refl _) rfl

theorem trans (h : Onward s s') (h' : Onward s' s'') : Onward s s'' := by
  obtain ⟨ds, hds, hstatic⟩ := h.diagnostics
  obtain ⟨ds', hds', hstatic'⟩ := h'.diagnostics
  refine ⟨Nat.le_trans h.nextNode h'.nextNode, ds ++ ds', ?_, ?_⟩
  · rw [hds', hds, List.append_assoc]
  · intro d hd
    rcases List.mem_append.mp hd with hd | hd
    · exact hstatic d hd
    · exact hstatic' d hd

instance : Trans Onward Onward Onward := ⟨trans⟩

end Onward

/-- What holds of the value that a parser ends with, if it ends with one. -/
abbrev Numbers {α : Type} (p : Parser α) (s : ParserState) (P : α → ParserState → Prop) : Prop :=
  Ends Onward Static p s P

/-- Whether a parser goes onward from everywhere. -/
def Silent {α : Type} (p : Parser α) : Prop := ∀ s, Numbers p s fun _ _ => True

section Tokens

theorem Silent.bind {α β : Type} {p : Parser α} {f : α → Parser β} (hp : Silent p)
    (hf : ∀ a, Silent (f a)) : Silent (p >>= f) :=
  fun s => (hp s).bind fun a s' _ _ => hf a s'

theorem silent_pure {α : Type} (a : α) : Silent (pure a) :=
  fun s => ends_pure (.refl s) trivial

theorem silent_peek : Silent peek := by
  intro s
  unfold Numbers Ends peek
  cases s.rest <;> exact ⟨.refl s, trivial⟩

theorem silent_advance : Silent advance := by
  intro s
  unfold Numbers Ends advance
  cases s.rest with
  | nil => exact ⟨.refl s, trivial⟩
  | cons t rest => exact ⟨.of_eq (Nat.le_refl _) rfl, trivial⟩

theorem silent_previous : Silent previous := by
  intro s
  unfold Numbers Ends previous
  cases s.last <;> exact ⟨.refl s, trivial⟩

theorem silent_sees (kind : Kind) : Silent (sees kind) :=
  fun s => ends_of_ok rfl (.refl s) trivial

theorem silent_atEnd : Silent atEnd := silent_peek.bind fun _ => silent_pure _

/-- An error has no value. -/
theorem numbers_fail {α : Type} (e : SyntaxError) (s : ParserState)
    (P : α → ParserState → Prop) : Numbers (fail e) s P :=
  (silent_peek s).bind fun _ s' _ _ => ends_throw (.refl s') rfl

theorem silent_expect (kind : Kind) (e : SyntaxError) : Silent (expect kind e) := by
  refine (silent_sees kind).bind fun _ => ?_
  split
  · exact silent_advance
  · exact fun s => numbers_fail e s _

theorem silent_punctuator (symbol : Kind) (place : PunctuatorPlace) :
    Silent (punctuator symbol place) :=
  (silent_expect _ _).bind fun _ => silent_pure ()

theorem silent_accept (kind : Kind) : Silent (accept kind) := by
  refine (silent_sees kind).bind fun _ => ?_
  split
  · exact silent_advance.bind fun _ => silent_pure true
  · exact silent_pure false

theorem silent_report {d : Diagnostic} (h : d.phase = .static) : Silent (report d) :=
  fun _ => ends_of_ok rfl ⟨Nat.le_refl _, [d], rfl, by simpa using h⟩ trivial

theorem silent_synchronize : Silent synchronize := by
  intro s
  unfold Numbers Ends synchronize
  cases skipStatement s.last s.rest with
  | none => exact ⟨.of_eq (Nat.le_refl _) rfl, trivial⟩
  | some found => exact ⟨.of_eq (Nat.le_refl _) rfl, trivial⟩

theorem numbers_reference (t : Token) (s : ParserState) :
    Numbers (reference t) s fun r s' => Within s.nextNode s'.nextNode [r.node] :=
  ends_of_ok rfl (.of_eq (Nat.le_succ _) rfl) (Within.singleton _)

end Tokens

section Lists

variable {α : Type} {item : Parser α} {nodes : α → List NodeId} {s : ParserState}

/-- Whether a parser numbers what it reads. -/
abbrev Numbered (nodes : α → List NodeId) (p : Parser α) : Prop :=
  ∀ s, Numbers p s fun a s' => Within s.nextNode s'.nextNode (nodes a)

/-- The numbers of what a parser may read. -/
def nodesOf (nodes : α → List NodeId) (o : Option α) : List NodeId := (o.map nodes).getD []

theorem numbered_unlessNext (kind : Kind) (h : Numbered nodes item) :
    Numbered (nodesOf nodes) (unlessNext kind item) := by
  intro s
  refine (silent_sees kind s).bind fun b s₁ hr₁ _ => ?_
  split
  · exact ends_pure (.refl s₁) .nil
  · refine (h s₁).bind fun x s₂ hr₂ hx => ?_
    exact ends_pure (.refl s₂) (hx.widen hr₁.nextNode (Nat.le_refl _))

theorem numbered_moreItems {all : List α → List NodeId} (hnil : all [] = [])
    (hcons : ∀ x xs, all (x :: xs) = nodes x ++ all xs) (h : Numbered nodes item) (n : Nat) :
    Numbered all (moreItems item n) := by
  induction n with
  | zero => exact fun s => ends_throw (.refl s) trivial
  | succ n ih =>
    intro s
    refine (silent_accept _ s).bind fun b s₁ hr₁ _ => ?_
    split
    · refine (h s₁).bind fun x s₂ hr₂ hx => ?_
      refine (ih s₂).bind fun xs s₃ hr₃ hxs => ?_
      refine ends_pure (.refl s₃) ?_
      rw [hcons]
      exact (hx.widen hr₁.nextNode (Nat.le_refl _)).append hxs
        (Nat.le_trans hr₁.nextNode hr₂.nextNode) hr₃.nextNode
    · refine ends_pure (.refl s₁) ?_
      rw [hnil]
      exact .nil

theorem numbered_items (all : List α → List NodeId) (hnil : all [] = [])
    (hcons : ∀ x xs, all (x :: xs) = nodes x ++ all xs) (h : Numbered nodes item) (n : Nat)
    (place : PunctuatorPlace) : Numbered all (items item n place) := by
  have some : Numbered all (someItems item n) := by
    intro s
    refine (h s).bind fun x s₁ hr₁ hx => ?_
    refine (numbered_moreItems hnil hcons h n s₁).bind fun xs s₂ hr₂ hxs => ?_
    refine ends_pure (.refl s₂) ?_
    rw [hcons]
    exact hx.append hxs hr₁.nextNode hr₂.nextNode
  intro s
  refine (numbered_unlessNext _ some s).bind fun xs s₁ hr₁ hxs => ?_
  refine (silent_punctuator _ _ s₁).bind fun _ s₂ hr₂ _ => ?_
  refine ends_pure (.refl s₂) ?_
  cases xs with
  | none =>
    show Within _ _ (all [])
    rw [hnil]
    exact .nil
  | some xs => exact hxs.widen (Nat.le_refl _) hr₂.nextNode

theorem silent_parameters (n : Nat) : Silent (parameters n) := by
  have item : Numbered (fun _ : Token => []) (expect .identifier .parameterName) :=
    fun s => (silent_expect _ _ s).mono fun _ _ _ _ => .nil
  intro s
  exact (numbered_items (fun _ => []) rfl (fun _ _ => rfl) item n _ s).mono
    fun _ _ _ _ => trivial

end Lists

section Expressions

/-- An assignment gives its target a new number and gives up the one that was read. -/
theorem numbers_infixTree {s : ParserState} {lo mid : NodeId} (left : Expr) (operator : Token)
    (right : Expr) (hl : Within lo mid left.nodes) (hr : Within mid s.nextNode right.nodes)
    (hlo : lo ≤ mid) (hmid : mid ≤ s.nextNode) :
    Numbers (infixTree left operator right) s fun e s' => Within lo s'.nextNode e.nodes := by
  unfold infixTree
  split
  · unfold assignment
    split
    · refine (numbers_reference _ s).bind fun r s₁ hr₁ hnode => ?_
      refine ends_pure (.refl s₁) ?_
      exact (hr.widen hlo (Nat.le_refl _)).append hnode (Nat.le_trans hlo hmid) hr₁.nextNode
    · refine ends_pure (.refl s) ?_
      exact (hl.append hr hlo hmid).perm List.perm_append_comm
    · refine (silent_report rfl s).bind fun _ s₁ hr₁ _ => ?_
      exact ends_pure (.refl s₁) (hl.widen (Nat.le_refl _) (Nat.le_trans hmid hr₁.nextNode))
  all_goals exact ends_pure (.refl s) (hl.append hr hlo hmid)

/-- The functions on expressions number what they read. -/
structure ExpressionsNumbered (n : Nat) : Prop where
  expression : ∀ power, Numbered Expr.nodes (expression n power)
  operators : ∀ power left lo s, Within lo s.nextNode left.nodes → lo ≤ s.nextNode →
    Numbers (operators n power left) s fun e s' => Within lo s'.nextNode e.nodes
  operation : ∀ left operator power lo s, Within lo s.nextNode left.nodes → lo ≤ s.nextNode →
    Numbers (operation n left operator power) s fun e s' => Within lo s'.nextNode e.nodes
  operand : Numbered Expr.nodes (operand n)

namespace ExpressionsNumbered

variable {n : Nat} (ih : ExpressionsNumbered n)
include ih

theorem expression_succ (power : Nat) : Numbered Expr.nodes (Parser.expression (n + 1) power) := by
  intro s
  refine (ih.operand s).bind fun left s₁ hr₁ hleft => ?_
  exact ih.operators power left s.nextNode s₁ hleft hr₁.nextNode

theorem operators_succ (power : Nat) (left : Expr) (lo : NodeId) (s : ParserState)
    (h : Within lo s.nextNode left.nodes) (hlo : lo ≤ s.nextNode) :
    Numbers (Parser.operators (n + 1) power left) s
      fun e s' => Within lo s'.nextNode e.nodes := by
  refine (silent_peek s).bind fun operator s₁ hr₁ _ => ?_
  have h₁ := h.widen (Nat.le_refl _) hr₁.nextNode
  cases operator.kind.binding? with
  | none => exact ends_pure (.refl s₁) h₁
  | some binding =>
    dsimp only
    split
    · exact ends_pure (.refl s₁) h₁
    · refine (silent_advance s₁).bind fun _ s₂ hr₂ _ => ?_
      have hlo₂ := Nat.le_trans (Nat.le_trans hlo hr₁.nextNode) hr₂.nextNode
      have h₂ := h₁.widen (Nat.le_refl _) hr₂.nextNode
      refine (ih.operation left operator _ lo s₂ h₂ hlo₂).bind fun e s₃ hr₃ h₃ => ?_
      exact ih.operators power e lo s₃ h₃ (Nat.le_trans hlo₂ hr₃.nextNode)

theorem operation_succ (left : Expr) (operator : Token) (power : Nat) (lo : NodeId)
    (s : ParserState) (h : Within lo s.nextNode left.nodes) (hlo : lo ≤ s.nextNode) :
    Numbers (Parser.operation (n + 1) left operator power) s
      fun e s' => Within lo s'.nextNode e.nodes := by
  unfold Parser.operation
  split
  · have hitems := numbered_items Expr.nodesAll rfl (fun _ _ => rfl) (ih.expression 0) n
      .afterArguments s
    refine hitems.bind fun arguments s₁ hr₁ hargs => ?_
    refine (silent_previous s₁).bind fun paren s₂ hr₂ _ => ?_
    refine ends_pure (.refl s₂) ?_
    exact h.append (hargs.widen (Nat.le_refl _) hr₂.nextNode) hlo
      (Nat.le_trans hr₁.nextNode hr₂.nextNode)
  · refine (silent_expect _ _ s).bind fun name s₁ hr₁ _ => ?_
    exact ends_pure (.refl s₁) (h.widen (Nat.le_refl _) hr₁.nextNode)
  · refine (ih.expression power s).bind fun right s₁ hr₁ hright => ?_
    exact numbers_infixTree left operator right h hright hlo hr₁.nextNode

theorem operand_succ : Numbered Expr.nodes (Parser.operand (n + 1)) := by
  intro s
  refine (silent_peek s).bind fun t s₁ hr₁ _ => ?_
  -- Whatever follows the token taken, its numbers are not below those at the start.
  have behind {k : Parser Expr} (h : Numbered Expr.nodes k) :
      Numbers (advance >>= fun _ => k) s₁ fun e s' => Within s.nextNode s'.nextNode e.nodes := by
    refine (silent_advance s₁).bind fun _ s₂ hr₂ _ => ?_
    exact (h s₂).mono fun e s₃ _ he =>
      he.widen (Nat.le_trans hr₁.nextNode hr₂.nextNode) (Nat.le_refl _)
  have leaf (c : Constant) : Numbered Expr.nodes (pure (.literal c)) :=
    fun s => ends_pure (.refl s) .nil
  split
  case h_12 => exact numbers_fail _ s₁ _
  case h_11 =>
    refine behind fun s₂ => (ih.expression 0 s₂).bind fun inner s₃ hr₃ hinner => ?_
    refine (silent_punctuator _ _ s₃).bind fun _ s₄ hr₄ _ => ?_
    exact ends_pure (.refl s₄) (hinner.widen (Nat.le_refl _) hr₄.nextNode)
  case h_9 | h_10 =>
    refine behind fun s₂ => (ih.expression _ s₂).bind fun inner s₃ hr₃ hinner => ?_
    exact ends_pure (.refl s₃) hinner
  case h_8 =>
    refine behind fun s₂ => (silent_punctuator _ _ s₂).bind fun _ s₃ hr₃ _ => ?_
    refine (silent_expect _ _ s₃).bind fun method s₄ hr₄ _ => ?_
    refine (numbers_reference t s₄).bind fun r s₅ hr₅ hnode => ?_
    exact ends_pure (.refl s₅)
      (hnode.widen (Nat.le_trans hr₃.nextNode hr₄.nextNode) (Nat.le_refl _))
  case h_6 | h_7 =>
    refine behind fun s₂ => (numbers_reference t s₂).bind fun r s₃ hr₃ hnode => ?_
    exact ends_pure (.refl s₃) hnode
  all_goals exact behind (leaf _)

end ExpressionsNumbered

theorem expressionsNumbered (n : Nat) : ExpressionsNumbered n := by
  induction n with
  | zero =>
    exact ⟨fun _ s => ends_throw (.refl s) trivial, fun _ _ _ s _ _ => ends_throw (.refl s) trivial,
      fun _ _ _ _ s _ _ => ends_throw (.refl s) trivial, fun s => ends_throw (.refl s) trivial⟩
  | succ n ih =>
    exact ⟨ih.expression_succ, ih.operators_succ, ih.operation_succ, ih.operand_succ⟩

theorem expression_numbered (n power : Nat) : Numbered Expr.nodes (expression n power) :=
  (expressionsNumbered n).expression power

end Expressions

section Clauses

variable (n : Nat)

theorem initialValue_numbered : Numbered Expr.nodesOption (initialValue n) := by
  intro s
  refine (silent_accept _ s).bind fun b s₁ hr₁ _ => ?_
  split
  · refine (expression_numbered n 0 s₁).bind fun e s₂ hr₂ he => ?_
    exact ends_pure (.refl s₂) (he.widen hr₁.nextNode (Nat.le_refl _))
  · exact ends_pure (.refl s₁) .nil

theorem variableDeclaration_numbered : Numbered Stmt.nodes (variableDeclaration n) := by
  intro s
  refine (silent_expect _ _ s).bind fun name s₁ hr₁ _ => ?_
  refine (initialValue_numbered n s₁).bind fun value s₂ hr₂ hvalue => ?_
  refine (silent_punctuator _ _ s₂).bind fun _ s₃ hr₃ _ => ?_
  exact ends_pure (.refl s₃) (hvalue.widen hr₁.nextNode hr₃.nextNode)

/-- An expression with a punctuator behind it, as the only expression of a statement. -/
theorem numbered_closed {make : Expr → Stmt} (hmake : ∀ e, (make e).nodes = e.nodes)
    (symbol : Kind) (place : PunctuatorPlace) :
    Numbered Stmt.nodes (do
      let e ← expression n 0
      punctuator symbol place
      return make e) := by
  intro s
  refine (expression_numbered n 0 s).bind fun e s₁ hr₁ he => ?_
  refine (silent_punctuator _ _ s₁).bind fun _ s₂ hr₂ _ => ?_
  refine ends_pure (.refl s₂) ?_
  rw [hmake]
  exact he.widen (Nat.le_refl _) hr₂.nextNode

theorem expressionStatement_numbered : Numbered Stmt.nodes (expressionStatement n) :=
  numbered_closed n (fun _ => rfl) _ _

theorem printStatement_numbered : Numbered Stmt.nodes (printStatement n) :=
  numbered_closed n (fun _ => rfl) _ _

theorem returnStatement_numbered : Numbered Stmt.nodes (returnStatement n) := by
  intro s
  refine (silent_previous s).bind fun keyword s₁ hr₁ _ => ?_
  refine (numbered_unlessNext _ (expression_numbered n 0) s₁).bind fun value s₂ hr₂ hvalue => ?_
  refine (silent_punctuator _ _ s₂).bind fun _ s₃ hr₃ _ => ?_
  refine ends_pure (.refl s₃) ?_
  cases value <;> exact hvalue.widen hr₁.nextNode hr₃.nextNode

theorem superclass_numbered :
    Numbered (fun parent => (parent.map Reference.node).toList) superclass := by
  intro s
  refine (silent_accept _ s).bind fun b s₁ hr₁ _ => ?_
  split
  · refine (silent_expect _ _ s₁).bind fun t s₂ hr₂ _ => ?_
    refine (numbers_reference t s₂).bind fun r s₃ hr₃ hnode => ?_
    exact ends_pure (.refl s₃)
      (hnode.widen (Nat.le_trans hr₁.nextNode hr₂.nextNode) (Nat.le_refl _))
  · exact ends_pure (.refl s₁) .nil

theorem loopStart_numbered : Numbered (nodesOf Stmt.nodes) (loopStart n) := by
  intro s
  refine (silent_accept _ s).bind fun b s₁ hr₁ _ => ?_
  split
  · refine (variableDeclaration_numbered n s₁).bind fun d s₂ hr₂ hd => ?_
    exact ends_pure (.refl s₂) (hd.widen hr₁.nextNode (Nat.le_refl _))
  · refine (silent_accept _ s₁).bind fun b s₂ hr₂ _ => ?_
    split
    · exact ends_pure (.refl s₂) .nil
    · refine (expressionStatement_numbered n s₂).bind fun d s₃ hr₃ hd => ?_
      exact ends_pure (.refl s₃)
        (hd.widen (Nat.le_trans hr₁.nextNode hr₂.nextNode) (Nat.le_refl _))

theorem loopCondition_numbered : Numbered Expr.nodes (loopCondition n) := by
  intro s
  refine (numbered_unlessNext _ (expression_numbered n 0) s).bind fun condition s₁ hr₁ h => ?_
  refine (silent_punctuator _ _ s₁).bind fun _ s₂ hr₂ _ => ?_
  refine ends_pure (.refl s₂) ?_
  cases condition with
  | none => exact .nil
  | some e => exact h.widen (Nat.le_refl _) hr₂.nextNode

theorem loopStep_numbered : Numbered (nodesOf Expr.nodes) (loopStep n) := by
  intro s
  refine (numbered_unlessNext _ (expression_numbered n 0) s).bind fun step s₁ hr₁ h => ?_
  refine (silent_punctuator _ _ s₁).bind fun _ s₂ hr₂ _ => ?_
  exact ends_pure (.refl s₂) (h.widen (Nat.le_refl _) hr₂.nextNode)

/-- The last clause of a counted loop is read before the body and stands behind it. -/
theorem nodes_loopTree (start : Option Stmt) (condition : Expr) (step : Option Expr)
    (body : Stmt) :
    (nodesOf Stmt.nodes start ++
      (condition.nodes ++ (nodesOf Expr.nodes step ++ body.nodes))).Perm
      (loopTree start condition step body).nodes := by
  have rounds : (condition.nodes ++ (nodesOf Expr.nodes step ++ body.nodes)).Perm
      (loopTree none condition step body).nodes := by
    cases step with
    | none => exact List.Perm.refl _
    | some e =>
      refine List.Perm.append_left _ ?_
      simp only [nodesOf, Option.map, Option.getD, Stmt.nodes, Stmt.nodesAll, List.append_nil]
      exact List.perm_append_comm
  cases start with
  | none => exact rounds
  | some s =>
    have whole : (loopTree (some s) condition step body).nodes =
        s.nodes ++ (loopTree none condition step body).nodes := by
      simp only [loopTree, Stmt.nodes, Stmt.nodesAll, List.append_nil]
    rw [whole]
    exact List.Perm.append_left _ rounds

end Clauses

section Statements

theorem numbered_recovering {α : Type} {nodes : α → List NodeId} {p : Parser α}
    (h : Numbered nodes p) : Numbered (nodesOf nodes) (recovering p) := by
  intro s
  cases hps : p s with
  | ok a s₁ =>
    obtain ⟨hr, ha⟩ := (h s).of_ok hps
    exact ends_of_ok (a := some a) (by simp only [recovering, hps]) hr ha
  | error stop s₁ =>
    obtain ⟨hr, hstatic⟩ := (h s).of_error hps
    cases stop with
    | fault f => exact ends_of_error (e := .fault f) (by simp only [recovering, hps]) hr trivial
    | outOfFuel => exact ends_of_error (e := .outOfFuel) (by simp only [recovering, hps]) hr trivial
    | syntaxError d =>
      have skip : Numbers (do report d; synchronize; return none : Parser (Option α)) s₁
          fun a s' => Within s₁.nextNode s'.nextNode (nodesOf nodes a) := by
        refine (silent_report hstatic s₁).bind fun _ s₂ _ _ => ?_
        refine (silent_synchronize s₂).bind fun _ s₃ _ _ => ?_
        exact ends_pure (.refl s₃) .nil
      have hrun : recovering p s = (do report d; synchronize; return none) s₁ := by
        simp only [recovering, hps]
      cases hskip : (do report d; synchronize; return none : Parser (Option α)) s₁ with
      | ok a s₂ =>
        obtain ⟨hr₂, ha⟩ := skip.of_ok hskip
        exact ends_of_ok (hrun.trans hskip) (hr.trans hr₂) (ha.widen hr.nextNode (Nat.le_refl _))
      | error e s₂ =>
        exact ends_of_error (hrun.trans hskip) (hr.trans (skip.of_error hskip).1)
          (skip.of_error hskip).2

/-- The functions on statements number what they read. -/
structure StatementsNumbered (n : Nat) : Prop where
  declaration : Numbered (nodesOf Stmt.nodes) (declaration n)
  statement : Numbered Stmt.nodes (statement n)
  classDeclaration : Numbered Stmt.nodes (classDeclaration n)
  methods : Numbered Function.nodesAll (methods n)
  function : ∀ form, Numbered Function.nodes (function n form)
  block : Numbered Stmt.nodesAll (block n)
  declarations : Numbered Stmt.nodesAll (declarations n)
  forStatement : Numbered Stmt.nodes (forStatement n)
  ifStatement : Numbered Stmt.nodes (ifStatement n)
  whileStatement : Numbered Stmt.nodes (whileStatement n)

/-- What is read in front of a parser without a number leaves its numbers as they are. -/
theorem Silent.numbered {α β : Type} {nodes : β → List NodeId} {p : Parser α} {f : α → Parser β}
    (hp : Silent p) (hf : ∀ a, Numbered nodes (f a)) : Numbered nodes (p >>= f) := by
  intro s
  refine (hp s).bind fun a s₁ hr₁ _ => ?_
  exact (hf a s₁).mono fun b s₂ _ hb => hb.widen hr₁.nextNode (Nat.le_refl _)

/-- A keyword in front of a parser has no number. -/
theorem numbered_behind {α : Type} {nodes : α → List NodeId} {p : Parser α}
    (h : Numbered nodes p) : Numbered nodes (advance >>= fun _ => p) :=
  silent_advance.numbered fun _ => h

/-- What is made of a value that was read has the numbers of that value. -/
theorem numbered_return {α β : Type} {nodes : α → List NodeId} {nodes' : β → List NodeId}
    {p : Parser α} {make : α → β} (h : Numbered nodes p)
    (hmake : ∀ a, nodes' (make a) = nodes a) :
    Numbered nodes' (p >>= fun a => pure (make a)) := by
  intro s
  refine (h s).bind fun a s₁ hr₁ ha => ?_
  refine ends_pure (.refl s₁) ?_
  rw [hmake]
  exact ha

theorem nodesAll_toList_append (d : Option Stmt) (rest : List Stmt) :
    Stmt.nodesAll (d.toList ++ rest) = nodesOf Stmt.nodes d ++ Stmt.nodesAll rest := by
  cases d <;> rfl

namespace StatementsNumbered

variable {n : Nat} (ih : StatementsNumbered n)
include ih

theorem declaration_succ : Numbered (nodesOf Stmt.nodes) (Parser.declaration (n + 1)) := by
  refine numbered_recovering (silent_peek.numbered fun t => ?_)
  split
  · exact numbered_behind ih.classDeclaration
  · exact numbered_behind (numbered_return (ih.function _) fun _ => rfl)
  · exact numbered_behind (variableDeclaration_numbered n)
  · exact ih.statement

theorem statement_succ : Numbered Stmt.nodes (Parser.statement (n + 1)) := by
  refine silent_peek.numbered fun t => ?_
  split
  · exact numbered_behind ih.forStatement
  · exact numbered_behind ih.ifStatement
  · exact numbered_behind (numbered_return ih.block fun _ => rfl)
  · exact numbered_behind (printStatement_numbered n)
  · exact numbered_behind (returnStatement_numbered n)
  · exact numbered_behind ih.whileStatement
  · exact expressionStatement_numbered n

theorem classDeclaration_succ : Numbered Stmt.nodes (Parser.classDeclaration (n + 1)) := by
  intro s
  refine (silent_expect _ _ s).bind fun name s₁ hr₁ _ => ?_
  refine (superclass_numbered s₁).bind fun parent s₂ hr₂ hparent => ?_
  refine (silent_punctuator _ _ s₂).bind fun _ s₃ hr₃ _ => ?_
  refine (ih.methods s₃).bind fun members s₄ hr₄ hmembers => ?_
  refine (silent_punctuator _ _ s₄).bind fun _ s₅ hr₅ _ => ?_
  refine ends_pure (.refl s₅) ?_
  have both := hparent.append (hmembers.widen hr₃.nextNode (Nat.le_refl _)) hr₂.nextNode
    (Nat.le_trans hr₃.nextNode hr₄.nextNode)
  exact both.widen hr₁.nextNode hr₅.nextNode

theorem methods_succ : Numbered Function.nodesAll (Parser.methods (n + 1)) := by
  intro s
  refine (silent_sees _ s).bind fun b s₁ hr₁ _ => ?_
  split
  · exact ends_pure (.refl s₁) .nil
  · refine (silent_atEnd s₁).bind fun b s₂ hr₂ _ => ?_
    split
    · exact ends_pure (.refl s₂) .nil
    · refine (ih.function _ s₂).bind fun f s₃ hr₃ hf => ?_
      refine (ih.methods s₃).bind fun fs s₄ hr₄ hfs => ?_
      refine ends_pure (.refl s₄) ?_
      exact (hf.append hfs hr₃.nextNode hr₄.nextNode).widen
        (Nat.le_trans hr₁.nextNode hr₂.nextNode) (Nat.le_refl _)

theorem function_succ (form : FunctionForm) :
    Numbered Function.nodes (Parser.function (n + 1) form) := by
  intro s
  refine (silent_expect _ _ s).bind fun name s₁ hr₁ _ => ?_
  refine (silent_punctuator _ _ s₁).bind fun _ s₂ hr₂ _ => ?_
  refine (silent_parameters n s₂).bind fun params s₃ hr₃ _ => ?_
  refine (silent_punctuator _ _ s₃).bind fun _ s₄ hr₄ _ => ?_
  refine (ih.block s₄).bind fun body s₅ hr₅ hbody => ?_
  exact ends_pure (.refl s₅)
    (hbody.widen (((hr₁.trans hr₂).trans hr₃).trans hr₄).nextNode (Nat.le_refl _))

theorem block_succ : Numbered Stmt.nodesAll (Parser.block (n + 1)) := by
  intro s
  refine (ih.declarations s).bind fun body s₁ hr₁ hbody => ?_
  refine (silent_punctuator _ _ s₁).bind fun _ s₂ hr₂ _ => ?_
  exact ends_pure (.refl s₂) (hbody.widen (Nat.le_refl _) hr₂.nextNode)

theorem declarations_succ : Numbered Stmt.nodesAll (Parser.declarations (n + 1)) := by
  intro s
  refine (silent_sees _ s).bind fun b s₁ hr₁ _ => ?_
  split
  · exact ends_pure (.refl s₁) .nil
  · refine (silent_atEnd s₁).bind fun b s₂ hr₂ _ => ?_
    split
    · exact ends_pure (.refl s₂) .nil
    · refine (ih.declaration s₂).bind fun d s₃ hr₃ hd => ?_
      refine (ih.declarations s₃).bind fun rest s₄ hr₄ hrest => ?_
      refine ends_pure (.refl s₄) ?_
      rw [nodesAll_toList_append]
      exact (hd.append hrest hr₃.nextNode hr₄.nextNode).widen
        (Nat.le_trans hr₁.nextNode hr₂.nextNode) (Nat.le_refl _)

theorem forStatement_succ : Numbered Stmt.nodes (Parser.forStatement (n + 1)) := by
  intro s
  refine (silent_punctuator _ _ s).bind fun _ s₁ hr₁ _ => ?_
  refine (loopStart_numbered n s₁).bind fun start s₂ hr₂ hstart => ?_
  refine (loopCondition_numbered n s₂).bind fun condition s₃ hr₃ hcondition => ?_
  refine (loopStep_numbered n s₃).bind fun step s₄ hr₄ hstep => ?_
  refine (ih.statement s₄).bind fun body s₅ hr₅ hbody => ?_
  refine ends_pure (.refl s₅) ?_
  have rounds := hcondition.append (hstep.append hbody hr₄.nextNode hr₅.nextNode) hr₃.nextNode
    (hr₄.trans hr₅).nextNode
  have all := hstart.append rounds hr₂.nextNode ((hr₃.trans hr₄).trans hr₅).nextNode
  exact (all.perm (nodes_loopTree start condition step body)).widen hr₁.nextNode (Nat.le_refl _)

theorem ifStatement_succ : Numbered Stmt.nodes (Parser.ifStatement (n + 1)) := by
  intro s
  refine (silent_punctuator _ _ s).bind fun _ s₁ hr₁ _ => ?_
  refine (expression_numbered n 0 s₁).bind fun condition s₂ hr₂ hcondition => ?_
  refine (silent_punctuator _ _ s₂).bind fun _ s₃ hr₃ _ => ?_
  refine (ih.statement s₃).bind fun thenBranch s₄ hr₄ hthen => ?_
  refine (silent_accept _ s₄).bind fun b s₅ hr₅ _ => ?_
  have front := hcondition.widen hr₁.nextNode hr₃.nextNode
  have hfront : s.nextNode ≤ s₃.nextNode := ((hr₁.trans hr₂).trans hr₃).nextNode
  split
  · refine (ih.statement s₅).bind fun elseBranch s₆ hr₆ helse => ?_
    refine ends_pure (.refl s₆) ?_
    have branches := hthen.append (helse.widen hr₅.nextNode (Nat.le_refl _)) hr₄.nextNode
      (hr₅.trans hr₆).nextNode
    exact front.append branches hfront ((hr₄.trans hr₅).trans hr₆).nextNode
  · refine ends_pure (.refl s₅) ?_
    exact front.append (hthen.widen (Nat.le_refl _) hr₅.nextNode) hfront
      (hr₄.trans hr₅).nextNode

theorem whileStatement_succ : Numbered Stmt.nodes (Parser.whileStatement (n + 1)) := by
  intro s
  refine (silent_punctuator _ _ s).bind fun _ s₁ hr₁ _ => ?_
  refine (expression_numbered n 0 s₁).bind fun condition s₂ hr₂ hcondition => ?_
  refine (silent_punctuator _ _ s₂).bind fun _ s₃ hr₃ _ => ?_
  refine (ih.statement s₃).bind fun body s₄ hr₄ hbody => ?_
  refine ends_pure (.refl s₄) ?_
  exact (hcondition.widen hr₁.nextNode hr₃.nextNode).append hbody
    ((hr₁.trans hr₂).trans hr₃).nextNode hr₄.nextNode

end StatementsNumbered

theorem statementsNumbered (n : Nat) : StatementsNumbered n := by
  induction n with
  | zero =>
    constructor
    case function => exact fun _ s => ends_throw (.refl s) trivial
    all_goals exact fun s => ends_throw (.refl s) trivial
  | succ n ih =>
    exact ⟨ih.declaration_succ, ih.statement_succ, ih.classDeclaration_succ, ih.methods_succ,
      ih.function_succ, ih.block_succ, ih.declarations_succ, ih.forStatement_succ,
      ih.ifStatement_succ, ih.whileStatement_succ⟩

theorem program_within (n : Nat) : Numbered Stmt.nodesAll (program n) := by
  induction n with
  | zero => exact fun s => ends_throw (.refl s) trivial
  | succ n ih =>
    intro s
    refine (silent_atEnd s).bind fun b s₁ hr₁ _ => ?_
    split
    · exact ends_pure (.refl s₁) .nil
    · refine ((statementsNumbered n).declaration s₁).bind fun d s₂ hr₂ hd => ?_
      refine (ih s₂).bind fun rest s₃ hr₃ hrest => ?_
      refine ends_pure (.refl s₃) ?_
      rw [nodesAll_toList_append]
      exact (hd.append hrest hr₂.nextNode hr₃.nextNode).widen hr₁.nextNode (Nat.le_refl _)

end Statements

end Parser

namespace Parsed

open LoxLang.Parser

/-- What is read from tokens is numbered between the first number and the next one, and what is
reported of them are static errors. -/
theorem ofTokens_within {tokens : List Token} {firstNode : NodeId} {parsed : Parsed}
    (h : ofTokens tokens firstNode = .ok parsed) :
    firstNode ≤ parsed.nextNode ∧
      Within firstNode parsed.nextNode (Stmt.nodesAll parsed.statements) ∧
      ∀ d ∈ parsed.diagnostics, d.phase = .static := by
  unfold ofTokens at h
  split at h
  · rename_i statements s hprogram
    cases h
    obtain ⟨⟨hnext, ds, hds, hstatic⟩, hwithin⟩ := (program_within _ _).of_ok hprogram
    refine ⟨hnext, hwithin, ?_⟩
    rw [hds]
    exact hstatic
  · cases h

end Parsed
end LoxLang
