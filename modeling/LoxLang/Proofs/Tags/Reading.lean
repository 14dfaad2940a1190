import LoxLang.Proofs.Steps
import LoxLang.Proofs.Tags.Parser

/-!
# What the parser with tags reads

**Statement.** The parser with tags reads what the parser reads, tags apart: the same trees, with the
same numbers of references, the same reports, and the same stops.  And no tag stands at two places of
what it reads.

**Method.** `Follows f P x y s` says that the tagger `x` does from `s` on what the parser `y` does,
where `f` takes the tags away, and that `P` holds of what `x` ends with and of the next tag.  One
lemma for each function of the parser, by induction on the fuel for those that call each other.  The
tags of a tree lie between the next tag at its start and the one at its end (`Within`), so that trees
that are read one after another have no tag in common.

**Results.**
* `Tagger.tags_program`: all declarations of a list of tokens.
* `Tagged.ofTokens_tags`: what tokens are read as.
-/

namespace LoxLang
namespace Tagger

open Steps Parser

section Defs

variable {α β γ δ : Type}

/-- Whether a tagger does what a parser does, up to tags, and what holds then of the value that it
ends with and of the next tag.  Tags are given in ascending order. -/
def Follows (f : α → β) (P : α → Tag → Prop) (x : Tagger α) (y : Parser β) (s : TaggerState) :
    Prop :=
  match x s with
  | .ok a s' => y s.parser = .ok (f a) s'.parser ∧ s.nextTag ≤ s'.nextTag ∧ P a s'.nextTag
  | .error stop s' => y s.parser = .error stop s'.parser ∧ s.nextTag ≤ s'.nextTag

/-- Whether a tagger does what a parser does and gives each node that it reads a tag of its own. -/
abbrev Tags (f : α → β) (tags : α → List Tag) (x : Tagger α) (y : Parser β) : Prop :=
  ∀ s, Follows f (fun a next => Within s.nextTag next (tags a)) x y s

end Defs

section Steps

variable {α β γ δ : Type} {f : α → β} {g : γ → δ} {P P' : α → Tag → Prop} {Q : γ → Tag → Prop}
  {x : Tagger α} {y : Parser β} {p : α → Tagger γ} {q : β → Parser δ} {s : TaggerState}

theorem Follows.of_ok {a : α} {s' : TaggerState} (h : Follows f P x y s) (hx : x s = .ok a s') :
    y s.parser = .ok (f a) s'.parser ∧ s.nextTag ≤ s'.nextTag ∧ P a s'.nextTag := by
  unfold Follows at h
  rwa [hx] at h

theorem Follows.of_error {stop : ParserStop} {s' : TaggerState} (h : Follows f P x y s)
    (hx : x s = .error stop s') :
    y s.parser = .error stop s'.parser ∧ s.nextTag ≤ s'.nextTag := by
  unfold Follows at h
  rwa [hx] at h

theorem follows_of_ok {a : α} {s' : TaggerState} (hx : x s = .ok a s')
    (hy : y s.parser = .ok (f a) s'.parser) (hnext : s.nextTag ≤ s'.nextTag) (hP : P a s'.nextTag) :
    Follows f P x y s := by
  unfold Follows
  rw [hx]
  exact ⟨hy, hnext, hP⟩

theorem follows_of_error {stop : ParserStop} {s' : TaggerState} (hx : x s = .error stop s')
    (hy : y s.parser = .error stop s'.parser) (hnext : s.nextTag ≤ s'.nextTag) :
    Follows f P x y s := by
  unfold Follows
  rw [hx]
  exact ⟨hy, hnext⟩

theorem follows_pure {a : α} {b : β} (hf : f a = b) (hP : P a s.nextTag) :
    Follows f P (pure a) (pure b) s :=
  follows_of_ok rfl (by rw [hf]; rfl) (Nat.le_refl _) hP

theorem follows_throw (stop : ParserStop) : Follows f P (throw stop) (throw stop) s :=
  follows_of_error rfl rfl (Nat.le_refl _)

/-- What follows an end that another tagger came to. -/
theorem Follows.behind {x' : Tagger α} {y' : Parser β} {s' : TaggerState}
    (h : Follows f P x' y' s') (hx : x s = x' s') (hy : y s.parser = y' s'.parser)
    (hnext : s.nextTag ≤ s'.nextTag) : Follows f P x y s := by
  cases hend : x' s' with
  | ok a s'' =>
    obtain ⟨hy', hnext', ha⟩ := h.of_ok hend
    exact follows_of_ok (hx.trans hend) (hy.trans hy') (Nat.le_trans hnext hnext') ha
  | error stop s'' =>
    obtain ⟨hy', hnext'⟩ := h.of_error hend
    exact follows_of_error (hx.trans hend) (hy.trans hy') (Nat.le_trans hnext hnext')

theorem Follows.bind (h : Follows f P x y s)
    (hp : ∀ a s', s.nextTag ≤ s'.nextTag → P a s'.nextTag → Follows g Q (p a) (q (f a)) s') :
    Follows g Q (x >>= p) (y >>= q) s := by
  cases hx : x s with
  | ok a s' =>
    obtain ⟨hy, hnext, hP⟩ := h.of_ok hx
    exact (hp a s' hnext hP).behind (bind_apply_of_ok hx) (bind_apply_of_ok hy) hnext
  | error stop s' =>
    obtain ⟨hy, hnext⟩ := h.of_error hx
    exact follows_of_error (bind_apply_of_error hx) (bind_apply_of_error hy) hnext

theorem Follows.mono (h : Follows f P x y s)
    (hP : ∀ a next, s.nextTag ≤ next → P a next → P' a next) : Follows f P' x y s := by
  cases hx : x s with
  | ok a s' =>
    obtain ⟨hy, hnext, ha⟩ := h.of_ok hx
    exact follows_of_ok hx hy hnext (hP a _ hnext ha)
  | error stop s' =>
    obtain ⟨hy, hnext⟩ := h.of_error hx
    exact follows_of_error hx hy hnext

theorem Follows.ite {c : Prop} [Decidable c] {x' : Tagger α} {y' : Parser β}
    (h : Follows f P x y s) (h' : Follows f P x' y' s) :
    Follows f P (if c then x else x') (if c then y else y') s := by
  split
  · exact h
  · exact h'

/-- What puts no node together gives no tag. -/
theorem follows_lift {ε : Type} (z : Parser ε) :
    Follows (fun a => a) (fun _ next => next = s.nextTag) (liftM z : Tagger ε) z s := by
  cases hz : z s.parser with
  | ok a σ =>
    have hlift : (liftM z : Tagger ε) s = .ok a ⟨σ, s.nextTag⟩ := by
      show (MonadLift.monadLift z : Tagger ε) s = _
      simp only [MonadLift.monadLift, hz]
    exact follows_of_ok hlift hz (Nat.le_refl _) rfl
  | error stop σ =>
    have hlift : (liftM z : Tagger ε) s = .error stop ⟨σ, s.nextTag⟩ := by
      show (MonadLift.monadLift z : Tagger ε) s = _
      simp only [MonadLift.monadLift, hz]
    exact follows_of_error hlift hz (Nat.le_refl _)

theorem Follows.read {ε : Type} {z : Parser ε} {p : ε → Tagger α} {q : ε → Parser β}
    (h : ∀ a σ, Follows f P (p a) (q a) ⟨σ, s.nextTag⟩) :
    Follows f P (liftM z >>= p) (z >>= q) s := by
  refine (follows_lift z).bind fun a s' _ hnext => ?_
  obtain ⟨σ, next⟩ := s'
  obtain rfl : next = s.nextTag := hnext
  exact h a σ

theorem follows_fail (e : SyntaxError) :
    Follows f P (liftM (fail e : Parser α)) (fail e : Parser β) s := by
  obtain ⟨⟨rest, last, node, ds⟩, next⟩ := s
  cases rest <;> exact follows_of_error rfl rfl (Nat.le_refl _)

/-- A tag that is given in front of what follows. -/
theorem Follows.tag {p : Tag → Tagger α}
    (h : Follows f P (p s.nextTag) y ⟨s.parser, s.nextTag + 1⟩) :
    Follows f P (freshTag >>= p) y s :=
  h.behind rfl rfl (Nat.le_succ _)

/-- A node that is put together from parts. -/
theorem follows_node {tags : α → List Tag} {make : Tag → α} {b : β} {parts : List Tag} {lo : Tag}
    (hf : f (make s.nextTag) = b) (htags : tags (make s.nextTag) = parts ++ [s.nextTag])
    (hlo : lo ≤ s.nextTag) (h : Within lo s.nextTag parts) :
    Follows f (fun a next => Within lo next (tags a)) (do return make (← freshTag)) (pure b) s := by
  refine follows_of_ok rfl (by rw [hf]; rfl) (Nat.le_succ _) ?_
  show Within lo (s.nextTag + 1) (tags (make s.nextTag))
  rw [htags]
  exact h.snoc hlo

/-- A node that has no parts. -/
theorem follows_leaf {tags : α → List Tag} {make : Tag → α} {b : β} {lo : Tag}
    (hf : f (make s.nextTag) = b) (htags : tags (make s.nextTag) = [s.nextTag])
    (hlo : lo ≤ s.nextTag) :
    Follows f (fun a next => Within lo next (tags a)) (do return make (← freshTag)) (pure b) s := by
  have hparts : Within lo s.nextTag [] := .nil
  refine follows_node hf ?_ hlo hparts
  exact htags

end Steps

section Lists

variable {α β : Type} {f : α → β} {tags : α → List Tag} {x : Tagger α} {y : Parser β}

theorem tags_unlessNext (kind : Kind) (h : Tags f tags x y) :
    Tags (Option.map f) (fun o => (o.map tags).getD []) (unlessNext kind x)
      (Parser.unlessNext kind y) := by
  intro s
  refine .read fun isNext σ => .ite (follows_pure rfl .nil) ?_
  exact (h _).bind fun a s' _ ha => follows_pure rfl ha

theorem tags_recovering (h : Tags f tags x y) :
    Tags (Option.map f) (fun o => (o.map tags).getD []) (recovering x)
      (Parser.recovering y) := by
  intro s
  cases hx : x s with
  | ok a s' =>
    obtain ⟨hy, hnext, ha⟩ := (h s).of_ok hx
    refine (follows_pure (a := some a) rfl ?_).behind
      (by simp only [recovering, hx]; rfl) (by simp only [Parser.recovering, hy]; rfl) hnext
    exact ha
  | error stop s' =>
    obtain ⟨hy, hnext⟩ := (h s).of_error hx
    cases stop with
    | syntaxError d =>
      have hskip : Follows (Option.map f)
          (fun o next => Within s.nextTag next ((o.map tags).getD []))
          (do report d; synchronize; return none) (do report d; synchronize; return none) s' :=
        .read fun _ _ => .read fun _ _ => follows_pure rfl .nil
      exact hskip.behind (by simp only [recovering, hx]) (by simp only [Parser.recovering, hy])
        hnext
    | fault e =>
      exact (follows_throw (.fault e)).behind (by simp only [recovering, hx]; rfl)
        (by simp only [Parser.recovering, hy]; rfl) hnext
    | outOfFuel =>
      exact (follows_throw .outOfFuel).behind (by simp only [recovering, hx]; rfl)
        (by simp only [Parser.recovering, hy]; rfl) hnext

theorem tags_moreItems {all : List α → List Tag} (hnil : all [] = [])
    (hcons : ∀ a rest, all (a :: rest) = tags a ++ all rest) (h : Tags f tags x y) (n : Nat) :
    Tags (List.map f) all (moreItems x n) (Parser.moreItems y n) := by
  induction n with
  | zero => exact fun s => follows_throw _
  | succ n ih =>
    refine fun s => .read fun comma σ => .ite ?_ ?_
    · refine (h _).bind fun a s₁ hs₁ ha => ?_
      refine (ih s₁).bind fun rest s₂ hs₂ hrest => ?_
      refine follows_pure rfl ?_
      rw [hcons]
      exact ha.append hrest hs₁ hs₂
    · refine follows_pure rfl ?_
      rw [hnil]
      exact .nil

theorem tags_items {all : List α → List Tag} (hnil : all [] = [])
    (hcons : ∀ a rest, all (a :: rest) = tags a ++ all rest) (h : Tags f tags x y) (n : Nat)
    (place : PunctuatorPlace) :
    Tags (List.map f) all (items x n place) (Parser.items y n place) := by
  have some : Tags (List.map f) all (someItems x n) (Parser.someItems y n) := by
    refine fun s => (h s).bind fun a s₁ hs₁ ha => ?_
    refine (tags_moreItems hnil hcons h n s₁).bind fun rest s₂ hs₂ hrest => ?_
    refine follows_pure rfl ?_
    rw [hcons]
    exact ha.append hrest hs₁ hs₂
  refine fun s => (tags_unlessNext _ some s).bind fun xs s₁ hs₁ hxs => .read fun _ σ => ?_
  cases xs with
  | none =>
    refine follows_pure rfl ?_
    show Within _ _ (all [])
    rw [hnil]
    exact .nil
  | some xs => exact follows_pure rfl hxs

end Lists

section Expressions

theorem trees_eq_map (es : List TaggedExpr) : TaggedExpr.trees es = es.map TaggedExpr.tree := by
  induction es with
  | nil => rfl
  | cons e es ih => rw [TaggedExpr.trees, ih, List.map_cons]

/-- Whether a tagger of expressions does what a parser does and gives each node a tag of its own;
the tags of what was read before start somewhere. -/
abbrev TagsFrom (lo : Tag) (x : Tagger TaggedExpr) (y : Parser Expr) (s : TaggerState) : Prop :=
  Follows TaggedExpr.tree (fun e next => Within lo next e.tags) x y s

variable {lo mid : Tag} {s : TaggerState}

theorem follows_assignment (equals : Token) (target value : TaggedExpr)
    (ht : Within lo mid target.tags) (hv : Within mid s.nextTag value.tags) (hlo : lo ≤ mid)
    (hmid : mid ≤ s.nextTag) :
    TagsFrom lo (assignment equals target value)
      (Parser.assignment equals target.tree value.tree) s := by
  have rejected : TagsFrom lo
      (do report (SyntaxError.assignmentTarget.at equals); return target)
      (do report (SyntaxError.assignmentTarget.at equals); return target.tree) s :=
    .read fun _ _ => follows_pure rfl (ht.widen (Nat.le_refl _) hmid)
  cases target with
  | «variable» tag r =>
    refine .read fun r σ => ?_
    exact follows_node rfl rfl (Nat.le_trans hlo hmid) (hv.widen hlo (Nat.le_refl _))
  | get tag object name =>
    have hobject : Within lo mid object.tags :=
      ⟨(List.nodup_append.mp ht.nodup).1, fun n hn => ht.lower n (List.mem_append_left _ hn),
        fun n hn => ht.upper n (List.mem_append_left _ hn)⟩
    exact follows_node rfl rfl (Nat.le_trans hlo hmid) (hobject.append hv hlo hmid)
  | _ => exact rejected

theorem follows_infixTree (left : TaggedExpr) (operator : Token) (right : TaggedExpr)
    (hl : Within lo mid left.tags) (hr : Within mid s.nextTag right.tags) (hlo : lo ≤ mid)
    (hmid : mid ≤ s.nextTag) :
    TagsFrom lo (infixTree left operator right)
      (Parser.infixTree left.tree operator right.tree) s := by
  unfold infixTree Parser.infixTree
  cases operator.kind
  case equal => exact follows_assignment operator left right hl hr hlo hmid
  all_goals exact follows_node rfl rfl (Nat.le_trans hlo hmid) (hl.append hr hlo hmid)

/-- The functions on expressions tag what they read. -/
structure ExpressionsTagged (n : Nat) : Prop where
  expression : ∀ power,
    Tags TaggedExpr.tree TaggedExpr.tags (expression n power) (Parser.expression n power)
  operators : ∀ power left lo s, Within lo s.nextTag left.tags → lo ≤ s.nextTag →
    TagsFrom lo (operators n power left) (Parser.operators n power left.tree) s
  operation : ∀ left operator power lo s, Within lo s.nextTag left.tags → lo ≤ s.nextTag →
    TagsFrom lo (operation n left operator power) (Parser.operation n left.tree operator power) s
  operand : Tags TaggedExpr.tree TaggedExpr.tags (operand n) (Parser.operand n)

namespace ExpressionsTagged

variable {n : Nat} (ih : ExpressionsTagged n)
include ih

theorem expression_succ (power : Nat) :
    Tags TaggedExpr.tree TaggedExpr.tags (Tagger.expression (n + 1) power)
      (Parser.expression (n + 1) power) :=
  fun s => (ih.operand s).bind fun left s₁ hs₁ hleft =>
    ih.operators power left s.nextTag s₁ hleft hs₁

theorem operators_succ (power : Nat) (left : TaggedExpr) (lo : Tag) (s : TaggerState)
    (h : Within lo s.nextTag left.tags) (hlo : lo ≤ s.nextTag) :
    TagsFrom lo (Tagger.operators (n + 1) power left)
      (Parser.operators (n + 1) power left.tree) s := by
  refine .read fun operator σ => ?_
  cases operator.kind.binding? with
  | none => exact follows_pure rfl h
  | some binding =>
    refine .ite (follows_pure rfl h) (.read fun _ σ => ?_)
    refine (ih.operation left operator _ lo ⟨σ, s.nextTag⟩ h hlo).bind fun e s₂ hs₂ he => ?_
    exact ih.operators power e lo s₂ he (Nat.le_trans hlo hs₂)

theorem operation_succ (left : TaggedExpr) (operator : Token) (power : Nat) (lo : Tag)
    (s : TaggerState) (h : Within lo s.nextTag left.tags) (hlo : lo ≤ s.nextTag) :
    TagsFrom lo (Tagger.operation (n + 1) left operator power)
      (Parser.operation (n + 1) left.tree operator power) s := by
  unfold Tagger.operation Parser.operation
  cases operator.kind
  case leftParen =>
    have hitems : Tags (List.map TaggedExpr.tree) TaggedExpr.tagsAll
        (items (Tagger.expression n 0) n .afterArguments)
        (Parser.items (Parser.expression n 0) n .afterArguments) :=
      tags_items rfl (fun _ _ => rfl) (ih.expression 0) n .afterArguments
    refine (hitems s).bind fun arguments s₁ hs₁ harguments => .read fun paren σ => ?_
    refine follows_node ?_ rfl (Nat.le_trans hlo hs₁) (h.append harguments hlo hs₁)
    rw [TaggedExpr.tree, trees_eq_map]
  case dot => exact .read fun name σ => follows_node rfl rfl hlo h
  all_goals
    refine (ih.expression power s).bind fun right s₁ hs₁ hright => ?_
    exact follows_infixTree left operator right h hright hlo hs₁

theorem operand_succ :
    Tags TaggedExpr.tree TaggedExpr.tags (Tagger.operand (n + 1)) (Parser.operand (n + 1)) := by
  refine fun s => .read fun t σ => ?_
  cases t.kind
  case number | string | trueWord | falseWord | nilWord =>
    exact .read fun _ _ => follows_leaf rfl rfl (Nat.le_refl _)
  case identifier | thisWord => exact .read fun _ _ => .read fun _ _ => follows_leaf rfl rfl (Nat.le_refl _)
  case superWord =>
    exact .read fun _ _ => .read fun _ _ => .read fun _ _ => .read fun _ _ => follows_leaf rfl rfl (Nat.le_refl _)
  case bang | minus =>
    refine .read fun _ σ => (ih.expression _ _).bind fun inner s₁ hs₁ hinner => ?_
    exact follows_node rfl rfl hs₁ hinner
  case leftParen =>
    refine .read fun _ σ => (ih.expression 0 _).bind fun inner s₁ hs₁ hinner => ?_
    exact .read fun _ σ => follows_node rfl rfl hs₁ hinner
  all_goals exact follows_fail _

end ExpressionsTagged

theorem expressionsTagged (n : Nat) : ExpressionsTagged n := by
  induction n with
  | zero =>
    exact ⟨fun _ _ => follows_throw _, fun _ _ _ _ _ _ => follows_throw _,
      fun _ _ _ _ _ _ _ => follows_throw _, fun _ => follows_throw _⟩
  | succ n ih =>
    exact ⟨ih.expression_succ, ih.operators_succ, ih.operation_succ, ih.operand_succ⟩

theorem tags_expression (n power : Nat) :
    Tags TaggedExpr.tree TaggedExpr.tags (expression n power) (Parser.expression n power) :=
  (expressionsTagged n).expression power

end Expressions

section Clauses

variable (n : Nat)

theorem tags_initialValue :
    Tags (Option.map TaggedExpr.tree) TaggedExpr.tagsOption (initialValue n)
      (Parser.initialValue n) := by
  refine fun s => .read fun equals σ => .ite ?_ (follows_pure rfl .nil)
  exact (tags_expression n 0 _).bind fun e s₁ _ he => follows_pure rfl he

theorem tags_variableDeclaration :
    Tags TaggedStmt.tree TaggedStmt.tags (variableDeclaration n)
      (Parser.variableDeclaration n) := by
  refine fun s => .read fun name σ => (tags_initialValue n _).bind fun value s₁ hs₁ hvalue => ?_
  exact .read fun _ σ => follows_node rfl rfl hs₁ hvalue

theorem tags_expressionStatement :
    Tags TaggedStmt.tree TaggedStmt.tags (expressionStatement n)
      (Parser.expressionStatement n) := by
  refine fun s => (tags_expression n 0 s).bind fun e s₁ hs₁ he => ?_
  exact .read fun _ σ => follows_node rfl rfl hs₁ he

theorem tags_printStatement :
    Tags TaggedStmt.tree TaggedStmt.tags (printStatement n) (Parser.printStatement n) := by
  refine fun s => (tags_expression n 0 s).bind fun e s₁ hs₁ he => ?_
  exact .read fun _ σ => follows_node rfl rfl hs₁ he

/-- An expression that may be absent. -/
theorem tags_unlessNext_expression (kind : Kind) :
    Tags (Option.map TaggedExpr.tree) TaggedExpr.tagsOption
      (unlessNext kind (expression n 0)) (Parser.unlessNext kind (Parser.expression n 0)) := by
  refine fun s => (tags_unlessNext kind (tags_expression n 0) s).mono fun e next _ he => ?_
  cases e <;> exact he

theorem tags_returnStatement :
    Tags TaggedStmt.tree TaggedStmt.tags (returnStatement n) (Parser.returnStatement n) := by
  refine fun s => .read fun keyword σ => ?_
  refine (tags_unlessNext_expression n _ _).bind fun value s₁ hs₁ hvalue => ?_
  exact .read fun _ σ => follows_node rfl rfl hs₁ hvalue

theorem tags_superclass :
    Tags (Option.map TaggedReference.reference) (fun o => (o.map TaggedReference.tag).toList)
      superclass Parser.superclass := by
  refine fun s => .read fun less σ => .ite ?_ (follows_pure rfl .nil)
  refine .read fun name σ => .read fun r σ => ?_
  exact follows_leaf rfl rfl (Nat.le_refl _)

theorem tags_loopStart :
    Tags (Option.map TaggedStmt.tree) TaggedStmt.tagsOption (loopStart n) (Parser.loopStart n) := by
  refine fun s => .read fun isVar σ => .ite ?_ (.read fun isEmpty σ => .ite ?_ ?_)
  · exact (tags_variableDeclaration n _).bind fun d s₁ _ hd => follows_pure rfl hd
  · exact follows_pure rfl .nil
  · exact (tags_expressionStatement n _).bind fun d s₁ _ hd => follows_pure rfl hd

/-- The condition that is given up has a tag, too. -/
theorem tags_loopCondition :
    Tags TaggedExpr.tree TaggedExpr.tags (loopCondition n) (Parser.loopCondition n) := by
  refine fun s => .tag ((tags_unlessNext_expression n _ _).bind fun condition s₁ hs₁ h => ?_)
  refine .read fun _ σ => ?_
  cases condition with
  | none => exact follows_pure rfl ((Within.singleton _).widen (Nat.le_refl _) hs₁)
  | some e => exact follows_pure rfl (h.widen (Nat.le_succ _) (Nat.le_refl _))

theorem tags_loopStep :
    Tags (Option.map TaggedExpr.tree) TaggedExpr.tagsOption (loopStep n)
      (Parser.loopStep n) := by
  refine fun s => (tags_unlessNext_expression n _ s).bind fun step s₁ _ hstep => ?_
  exact .read fun _ σ => follows_pure rfl hstep

/-- The body of a counted loop has the nodes of the last clause, and two more. -/
theorem follows_loopBody {lo : Tag} {s : TaggerState} {front : List Tag}
    (step : Option TaggedExpr) (body : TaggedStmt) (hlo : lo ≤ s.nextTag)
    (h : Within lo s.nextTag (front ++ (TaggedExpr.tagsOption step ++ body.tags))) :
    Follows TaggedStmt.tree (fun d next => Within lo next (front ++ d.tags)) (loopBody step body)
      (pure (match step.map TaggedExpr.tree with
        | none => body.tree
        | some e => .block [body.tree, .expression e])) s := by
  cases step with
  | none => exact follows_pure rfl h
  | some e =>
    have htwo := (h.snoc hlo).snoc (Nat.le_succ_of_le hlo)
    refine .tag (follows_of_ok rfl rfl (Nat.le_succ _) (htwo.perm ?_))
    refine List.perm_iff_count.mpr fun tag => ?_
    simp only [TaggedStmt.tags, TaggedStmt.tagsAll, TaggedExpr.tagsOption, List.count_append,
      List.append_nil]
    omega

/-- A counted loop has the nodes of its clauses and of its body, and some more. -/
theorem follows_loopTree {lo : Tag} {s : TaggerState} (start : Option TaggedStmt)
    (condition : TaggedExpr) (step : Option TaggedExpr) (body : TaggedStmt)
    (hlo : lo ≤ s.nextTag)
    (h : Within lo s.nextTag (TaggedStmt.tagsOption start ++ condition.tags ++
      (TaggedExpr.tagsOption step ++ body.tags))) :
    Follows TaggedStmt.tree (fun d next => Within lo next d.tags)
      (loopTree start condition step body)
      (pure (Parser.loopTree (start.map TaggedStmt.tree) condition.tree
        (step.map TaggedExpr.tree) body.tree)) s := by
  refine Follows.bind (q := fun body => pure (Parser.loopTree (start.map TaggedStmt.tree)
    condition.tree none body)) (follows_loopBody step body hlo h) fun body s₁ hs₁ hbody => ?_
  have hlo₁ := Nat.le_trans hlo hs₁
  cases start with
  | none => exact follows_node rfl rfl hlo₁ hbody
  | some d =>
    refine .tag (follows_node rfl rfl (Nat.le_succ_of_le hlo₁) ((hbody.snoc hlo₁).perm ?_))
    refine List.perm_iff_count.mpr fun tag => ?_
    simp only [TaggedStmt.tags, TaggedStmt.tagsAll, TaggedStmt.tagsOption, List.count_append,
      List.append_nil]
    omega

end Clauses

section Statements

theorem tagsAll_toList_append (d : Option TaggedStmt) (ds : List TaggedStmt) :
    TaggedStmt.tagsAll (d.toList ++ ds) = TaggedStmt.tagsOption d ++ TaggedStmt.tagsAll ds := by
  cases d <;> rfl

theorem trees_toList_append (d : Option TaggedStmt) (ds : List TaggedStmt) :
    TaggedStmt.trees (d.toList ++ ds) = (d.map TaggedStmt.tree).toList ++ TaggedStmt.trees ds := by
  cases d <;> rfl

/-- A statement that may be in error. -/
theorem tags_recovering_statement {x : Tagger TaggedStmt} {y : Parser Stmt}
    (h : Tags TaggedStmt.tree TaggedStmt.tags x y) :
    Tags (Option.map TaggedStmt.tree) TaggedStmt.tagsOption (recovering x)
      (Parser.recovering y) := by
  refine fun s => (tags_recovering h s).mono fun d next _ hd => ?_
  cases d <;> exact hd

/-- The functions on statements tag what they read. -/
structure StatementsTagged (n : Nat) : Prop where
  declaration : Tags (Option.map TaggedStmt.tree) TaggedStmt.tagsOption (declaration n)
    (Parser.declaration n)
  statement : Tags TaggedStmt.tree TaggedStmt.tags (statement n) (Parser.statement n)
  classDeclaration : Tags TaggedStmt.tree TaggedStmt.tags (classDeclaration n)
    (Parser.classDeclaration n)
  methods : Tags TaggedFunction.trees TaggedFunction.tagsAll (methods n) (Parser.methods n)
  function : ∀ form, Tags TaggedFunction.tree TaggedFunction.tags (function n form)
    (Parser.function n form)
  block : Tags TaggedStmt.trees TaggedStmt.tagsAll (block n) (Parser.block n)
  declarations : Tags TaggedStmt.trees TaggedStmt.tagsAll (declarations n)
    (Parser.declarations n)
  forStatement : Tags TaggedStmt.tree TaggedStmt.tags (forStatement n) (Parser.forStatement n)
  ifStatement : Tags TaggedStmt.tree TaggedStmt.tags (ifStatement n) (Parser.ifStatement n)
  whileStatement : Tags TaggedStmt.tree TaggedStmt.tags (whileStatement n)
    (Parser.whileStatement n)

namespace StatementsTagged

variable {n : Nat} (ih : StatementsTagged n)
include ih

theorem declaration_succ : Tags (Option.map TaggedStmt.tree) TaggedStmt.tagsOption
    (Tagger.declaration (n + 1)) (Parser.declaration (n + 1)) := by
  refine tags_recovering_statement fun s => .read fun t σ => ?_
  cases t.kind
  case classWord => exact .read fun _ _ => ih.classDeclaration _
  case funWord =>
    exact .read fun _ _ => (ih.function _ _).bind fun f s₁ _ hf => follows_pure rfl hf
  case varWord => exact .read fun _ _ => tags_variableDeclaration n _
  all_goals exact ih.statement _

theorem statement_succ : Tags TaggedStmt.tree TaggedStmt.tags (Tagger.statement (n + 1))
    (Parser.statement (n + 1)) := by
  refine fun s => .read fun t σ => ?_
  cases t.kind
  case forWord => exact .read fun _ _ => ih.forStatement _
  case ifWord => exact .read fun _ _ => ih.ifStatement _
  case leftBrace =>
    refine .read fun _ _ => (ih.block _).bind fun body s₁ hs₁ hbody => ?_
    exact follows_node rfl rfl hs₁ hbody
  case printWord => exact .read fun _ _ => tags_printStatement n _
  case returnWord => exact .read fun _ _ => tags_returnStatement n _
  case whileWord => exact .read fun _ _ => ih.whileStatement _
  all_goals exact tags_expressionStatement n _

theorem classDeclaration_succ : Tags TaggedStmt.tree TaggedStmt.tags
    (Tagger.classDeclaration (n + 1)) (Parser.classDeclaration (n + 1)) := by
  refine fun s => .read fun name σ => (tags_superclass _).bind fun parent s₁ hs₁ hparent => ?_
  refine .read fun _ σ => (ih.methods _).bind fun members s₂ hs₂ hmembers => .read fun _ σ => ?_
  exact follows_node rfl rfl (Nat.le_trans hs₁ hs₂) (hparent.append hmembers hs₁ hs₂)

theorem methods_succ : Tags TaggedFunction.trees TaggedFunction.tagsAll
    (Tagger.methods (n + 1)) (Parser.methods (n + 1)) := by
  refine fun s => .read fun closes σ => .ite (follows_pure rfl .nil) (.read fun ends σ => ?_)
  refine .ite (follows_pure rfl .nil) ((ih.function _ _).bind fun f s₁ hs₁ hf => ?_)
  refine (ih.methods s₁).bind fun fs s₂ hs₂ hfs => ?_
  exact follows_pure rfl (hf.append hfs hs₁ hs₂)

theorem function_succ (form : FunctionForm) : Tags TaggedFunction.tree TaggedFunction.tags
    (Tagger.function (n + 1) form) (Parser.function (n + 1) form) := by
  refine fun s => .read fun name σ => .read fun _ σ => .read fun params σ => .read fun _ σ => ?_
  refine (ih.block _).bind fun body s₁ hs₁ hbody => ?_
  exact follows_node rfl rfl hs₁ hbody

theorem block_succ : Tags TaggedStmt.trees TaggedStmt.tagsAll (Tagger.block (n + 1))
    (Parser.block (n + 1)) := by
  refine fun s => (ih.declarations s).bind fun body s₁ _ hbody => .read fun _ σ => ?_
  exact follows_pure rfl hbody

theorem declarations_succ : Tags TaggedStmt.trees TaggedStmt.tagsAll
    (Tagger.declarations (n + 1)) (Parser.declarations (n + 1)) := by
  refine fun s => .read fun closes σ => .ite (follows_pure rfl .nil) (.read fun ends σ => ?_)
  refine .ite (follows_pure rfl .nil) ((ih.declaration _).bind fun d s₁ hs₁ hd => ?_)
  refine (ih.declarations s₁).bind fun ds s₂ hs₂ hds => ?_
  refine follows_pure (trees_toList_append d ds) ?_
  rw [tagsAll_toList_append]
  exact hd.append hds hs₁ hs₂

theorem forStatement_succ : Tags TaggedStmt.tree TaggedStmt.tags
    (Tagger.forStatement (n + 1)) (Parser.forStatement (n + 1)) := by
  refine fun s => .read fun _ σ => (tags_loopStart n _).bind fun start s₁ hs₁ hstart => ?_
  refine (tags_loopCondition n s₁).bind fun condition s₂ hs₂ hcondition => ?_
  refine (tags_loopStep n s₂).bind fun step s₃ hs₃ hstep => ?_
  refine (ih.statement s₃).bind fun body s₄ hs₄ hbody => ?_
  have hhead := Nat.le_trans hs₁ hs₂
  have htail := Nat.le_trans hs₃ hs₄
  exact follows_loopTree start condition step body (Nat.le_trans hhead htail)
    ((hstart.append hcondition hs₁ hs₂).append (hstep.append hbody hs₃ hs₄) hhead htail)

theorem ifStatement_succ : Tags TaggedStmt.tree TaggedStmt.tags
    (Tagger.ifStatement (n + 1)) (Parser.ifStatement (n + 1)) := by
  refine fun s => .read fun _ σ => ?_
  refine (tags_expression n 0 _).bind fun condition s₁ hs₁ hcondition => .read fun _ σ => ?_
  refine (ih.statement _).bind fun thenBranch s₂ hs₂ hthen => .read fun hasElse σ => ?_
  have hlo := Nat.le_trans hs₁ hs₂
  have hparts := hcondition.append hthen hs₁ hs₂
  refine .ite ((ih.statement _).bind fun elseBranch s₃ hs₃ helse => ?_) ?_
  · exact follows_node rfl rfl (Nat.le_trans hlo hs₃) (hparts.append helse hlo hs₃)
  · exact follows_node rfl rfl hlo hparts

theorem whileStatement_succ : Tags TaggedStmt.tree TaggedStmt.tags
    (Tagger.whileStatement (n + 1)) (Parser.whileStatement (n + 1)) := by
  refine fun s => .read fun _ σ => ?_
  refine (tags_expression n 0 _).bind fun condition s₁ hs₁ hcondition => .read fun _ σ => ?_
  refine (ih.statement _).bind fun body s₂ hs₂ hbody => ?_
  exact follows_node rfl rfl (Nat.le_trans hs₁ hs₂) (hcondition.append hbody hs₁ hs₂)

end StatementsTagged

theorem statementsTagged (n : Nat) : StatementsTagged n := by
  induction n with
  | zero =>
    exact ⟨fun _ => follows_throw _, fun _ => follows_throw _, fun _ => follows_throw _,
      fun _ => follows_throw _, fun _ _ => follows_throw _,
      fun _ => follows_throw _, fun _ => follows_throw _, fun _ => follows_throw _,
      fun _ => follows_throw _, fun _ => follows_throw _⟩
  | succ n ih =>
    exact ⟨ih.declaration_succ, ih.statement_succ, ih.classDeclaration_succ, ih.methods_succ,
      ih.function_succ, ih.block_succ, ih.declarations_succ, ih.forStatement_succ,
      ih.ifStatement_succ, ih.whileStatement_succ⟩

theorem tags_program (n : Nat) :
    Tags TaggedStmt.trees TaggedStmt.tagsAll (program n) (Parser.program n) := by
  induction n with
  | zero => exact fun _ => follows_throw _
  | succ n ih =>
    refine fun s => .read fun ends σ => .ite (follows_pure rfl .nil) ?_
    refine ((statementsTagged n).declaration _).bind fun d s₁ hs₁ hd => ?_
    refine (ih s₁).bind fun ds s₂ hs₂ hds => ?_
    refine follows_pure (trees_toList_append d ds) ?_
    rw [tagsAll_toList_append]
    exact hd.append hds hs₁ hs₂

end Statements

end Tagger

namespace Tagged

variable {tokens : List Token} {firstNode : NodeId} {parsed : Parsed}

/-- The parser with tags reads what the parser reads, and no tag stands at two places. -/
theorem ofTokens_tags (h : Parsed.ofTokens tokens firstNode = .ok parsed) (firstTag : Tag) :
    ∃ tagged, Tagged.ofTokens tokens firstNode firstTag = .ok tagged ∧ tagged.parsed = parsed ∧
      firstTag ≤ tagged.nextTag ∧
      Within firstTag tagged.nextTag (TaggedStmt.tagsAll tagged.statements) := by
  have hfollows := Tagger.tags_program (Parser.fuelFor tokens)
    ⟨⟨tokens, none, firstNode, []⟩, firstTag⟩
  unfold Parsed.ofTokens at h
  unfold Tagged.ofTokens
  cases hx : Tagger.program (Parser.fuelFor tokens) ⟨⟨tokens, none, firstNode, []⟩, firstTag⟩ with
  | ok statements s =>
    obtain ⟨hread, hnext, htags⟩ := hfollows.of_ok hx
    rw [hread] at h
    cases h
    exact ⟨_, rfl, rfl, hnext, htags⟩
  | error stop s =>
    rw [(hfollows.of_error hx).1] at h
    cases h

end Tagged
end LoxLang
