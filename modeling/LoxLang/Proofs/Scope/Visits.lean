import LoxLang.Proofs.Scope.Adequacy
import LoxLang.Proofs.Scope.Sites
import Mathlib.Data.List.Forall2

/-!
# What the analysis does at each site

The analysis of scopes is a pass with a stack of scopes and with the kinds of the function and of
the class it is in.  Here it is the walk over the sites of a program that handles each of them by
its place alone: it records a depth (`Site.record`), and it reports the violations of the site.

**Method.** `Visits x s Γ sites` says that the part `x` of the analysis, begun in the state `s`,
handles these sites, in this order, and ends with the stack `Γ`.  The stack reflects the place
(`Reflects`), and the surroundings are those of the place (`Place.surroundings`), so that one case
for each form of statement and expression is enough.

**Results.**
* `analyse_eq`: the analysis of a program by its sites.
-/

namespace LoxLang
namespace Scope

open Steps

section Handling

/-- The entry that a site adds to the recorded depths.  `this` outside of a class adds none. -/
def Site.recorded? (s : Site) : Option DepthEntry :=
  match s.item with
  | .reference use r =>
    if use = .receiver ∧ s.place.class? = none then none
    else (s.place.distance? r.name).map fun d : Nat => ⟨use, r, d⟩
  | _ => none

/-- The recorded depths behind a site. -/
def Site.record (d : Depths) (s : Site) : Depths :=
  match s.recorded? with
  | none => d
  | some e => d.record e.use e.reference e.depth

/-- The kind of function that a region is. -/
def functionKind : FunctionForm → String → FunctionKind
  | .function, _ => .function
  | .method, name => if name = initName then .init else .method

/-- The surroundings that a place has. -/
def Place.surroundings (p : Place) : Surroundings where
  inFunction :=
    match p.function? with
    | none => .none
    | some (form, name) => functionKind form name
  inClass :=
    match p.class? with
    | none => .none
    | some parent => Analysis.classKind parent

theorem surroundings_function (p : Place) (form : FunctionForm) (name : String)
    (parameters : List Token) (begun : List Stmt) :
    Place.surroundings (.function form name parameters begun :: p) =
      { p.surroundings with inFunction := functionKind form name } := rfl

theorem surroundings_classBody (p : Place) (parent : Option Reference) :
    (p.classBody parent).surroundings =
      { p.surroundings with inClass := Analysis.classKind parent } := by
  cases parent <;> rfl

theorem surroundings_begin (p : Place) (s : Stmt) :
    (p.begin s).surroundings = p.surroundings := by
  obtain _ | ⟨region, outer⟩ := p
  · rfl
  · cases region <;> rfl

end Handling

section Reflection

/-- Whether statements may stand directly in the innermost region of a place. -/
def Place.Open : Place → Prop
  | .superclass :: _ | .classBody _ :: _ => False
  | _ => True

theorem Place.Open.begin {p : Place} (h : p.Open) (s : Stmt) : (p.begin s).Open := by
  obtain _ | ⟨region, outer⟩ := p
  · trivial
  · cases region <;> exact h

/-- Whether a stack has the scopes around a place, and only the variable in whose value the place
lies is unfinished in the innermost one. -/
structure Reflects (Γ : Stack Bool) (p : Place) (valueOf : Option Token) : Prop where
  binds : List.Forall₂ (fun scope region => ∀ name, Bindings.binds scope name = region.binds name)
    Γ.scopes p
  unfinished : ∀ name, Γ.innermost? name = some false ↔
    p ≠ [] ∧ valueOf.map Token.lexeme = some name

namespace Reflects

variable {Γ : Stack Bool} {p : Place} {v : Option Token}

theorem distance? (h : Reflects Γ p v) (name : String) : Γ.distance? name = p.distance? name := by
  obtain ⟨scopes⟩ := Γ
  obtain ⟨hbinds, -⟩ := h
  unfold Stack.distance? Place.distance?
  dsimp only at hbinds ⊢
  induction hbinds with
  | nil => rfl
  | cons hregion _ ih => simp only [List.findIdx?_cons, hregion name, ih]

theorem declares (h : Reflects Γ p v) (name : String) :
    (Γ.innermost? name).isSome = p.declares name := by
  obtain ⟨scopes⟩ := Γ
  cases h.binds with
  | nil => rfl
  | cons hregion _ => simpa [Stack.innermost?, Place.declares, Bindings.binds] using hregion name

theorem isLocal_iff (h : Reflects Γ p v) : Γ.isLocal = true ↔ p ≠ [] := by
  obtain ⟨scopes⟩ := Γ
  cases h.binds <;> simp [Stack.isLocal]

theorem push {scope : Bindings Bool} {region : Region} (h : Reflects Γ p v)
    (hregion : ∀ name, scope.binds name = region.binds name)
    (hfinished : ∀ name, scope.get? name ≠ some false) :
    Reflects (Γ.push scope) (region :: p) none := by
  refine ⟨.cons hregion h.binds, fun name => ?_⟩
  simpa [Stack.innermost?, Stack.push] using hfinished name

/-- A scope that binds one finished name. -/
theorem push_name {region : Region} (h : Reflects Γ p v) (name : String)
    (hregion : ∀ other, region.binds other = decide (other = name)) :
    Reflects (Γ.push [(name, true)]) (region :: p) none := by
  refine h.push (fun other => ?_) fun other => ?_
  · rw [hregion]
    by_cases hname : name = other
    · simp [Bindings.binds, Bindings.get?, hname]
    · simp [Bindings.binds, Bindings.get?, hname, Ne.symm hname]
  · simp only [Bindings.get?]
    split <;> simp

/-- The scopes of a class body. -/
theorem classBody (h : Reflects Γ p v) (parent : Option Reference) :
    Reflects (Γ.classBody parent) (p.classBody parent) none := by
  cases parent with
  | none => exact h.push_name "this" fun _ => rfl
  | some r => exact (h.push_name "super" fun _ => rfl).push_name "this" fun _ => rfl

/-- A statement that declares nothing changes nothing. -/
theorem begin_of_none (h : Reflects Γ p v) {s : Stmt} (hs : s.declared? = none) :
    Reflects Γ (p.begin s) v := by
  obtain ⟨scopes⟩ := Γ
  obtain ⟨hbinds, hunfinished⟩ := h
  cases hbinds with
  | nil => exact ⟨.nil, hunfinished⟩
  | @cons scope region scopes outer hregion houter =>
    cases region with
    | block begun =>
      refine ⟨.cons (fun name => ?_) houter, by simpa [Place.begin] using hunfinished⟩
      simp [hregion name, Region.binds, hs]
    | function form name parameters begun =>
      refine ⟨.cons (fun name => ?_) houter, by simpa [Place.begin] using hunfinished⟩
      simp [hregion name, Region.binds, hs]
    | superclass => exact ⟨.cons hregion houter, hunfinished⟩
    | classBody parent => exact ⟨.cons hregion houter, hunfinished⟩

/-- The name that a statement declares is marked in the innermost scope. -/
theorem binds_begin (h : Reflects Γ p v) (hp : p.Open) {s : Stmt} {name : String}
    (hs : s.declared? = some name) (finished : Bool) :
    List.Forall₂ (fun scope region => ∀ name, Bindings.binds scope name = region.binds name)
      (Γ.mark name finished).scopes (p.begin s) := by
  obtain ⟨scopes⟩ := Γ
  cases h.binds with
  | nil => exact .nil
  | @cons scope region scopes outer hregion houter =>
    cases region with
    | block begun =>
      refine .cons (fun other => ?_) houter
      simp [Bindings.binds_set, hregion other, Region.binds, hs, Bool.or_comm]
    | function form fname parameters begun =>
      refine .cons (fun other => ?_) houter
      simp [Bindings.binds_set, hregion other, Region.binds, hs, Bool.or_comm, Bool.or_assoc]
    | superclass => exact hp.elim
    | classBody parent => exact hp.elim

/-- In the value of a variable that variable is not finished. -/
theorem value (h : Reflects Γ p none) (hp : p.Open) (t : Token) (value : Option Expr) :
    Reflects (Γ.mark t.lexeme false) (p.begin (.varDecl t value)) (some t) := by
  refine ⟨h.binds_begin hp rfl false, fun name => ?_⟩
  have hne : p.begin (.varDecl t value) ≠ [] ↔ p ≠ [] := by
    obtain _ | ⟨region, outer⟩ := p
    · rfl
    · cases region <;> simp [Place.begin]
  rw [hne, Option.map_some, Option.some_inj]
  by_cases hname : t.lexeme = name
  · subst hname
    rw [Stack.innermost?_mark_self, ← h.isLocal_iff]
    cases Γ.isLocal <;> simp
  · rw [Stack.innermost?_mark_of_ne hname, h.unfinished]
    simp [hname]

/-- Behind a declaration the name is finished. -/
theorem declared (h : Reflects Γ p none) (hp : p.Open) {s : Stmt} {name : String}
    (hs : s.declared? = some name) : Reflects (Γ.mark name true) (p.begin s) none := by
  refine ⟨h.binds_begin hp hs true, fun other => ?_⟩
  have hbefore := h.unfinished other
  by_cases hname : name = other
  · subst hname
    rw [Stack.innermost?_mark_self]
    split <;> simp
  · rw [Stack.innermost?_mark_of_ne hname]
    simpa using hbefore

theorem begin (h : Reflects Γ p none) (hp : p.Open) (s : Stmt) :
    Reflects (Γ.after s) (p.begin s) none := by
  unfold Stack.after
  cases hs : s.declared? with
  | none => exact h.begin_of_none hs
  | some name => exact h.declared hp hs

/-- A parameter is one more name of its function. -/
theorem parameter {outer : Place} {form : FunctionForm} {name : String} {parameters : List Token}
    (h : Reflects Γ (.function form name parameters [] :: outer) none) (t : Token) :
    Reflects (Γ.mark t.lexeme true) (.function form name (parameters ++ [t]) [] :: outer) none := by
  obtain ⟨scopes⟩ := Γ
  obtain ⟨hbinds, hunfinished⟩ := h
  refine ⟨?_, fun other => ?_⟩
  · cases hbinds with
    | cons hscope houter =>
      refine .cons (fun other => ?_) houter
      simp [Bindings.binds_set, hscope other, Region.binds, Bool.or_comm]
  · have hbefore := hunfinished other
    by_cases hname : t.lexeme = other
    · rw [hname, Stack.innermost?_mark_self]
      split <;> simp
    · rw [Stack.innermost?_mark_of_ne hname]
      simpa using hbefore

end Reflects

end Reflection

namespace Analysis

/-- Whether a part of the analysis handles some sites, one after another, and ends with a stack. -/
def Visits (x : Analysis Unit) (s : AnalysisState) (Γ : Stack Bool) (sites : List Site) : Prop :=
  x s = .ok () ⟨Γ, sites.foldl Site.record s.depths,
    s.diagnostics ++ sites.flatMap Site.violations⟩

section Rules

variable {x y : Analysis Unit} {s : AnalysisState} {Γ Γ' : Stack Bool} {p : Place}
  {v : Option Token} {sites more : List Site}

theorem visits_pure (hs : s.stack = Γ) : Visits (pure ()) s Γ [] := by
  subst hs
  simp [Visits, pure_apply]

theorem Visits.bind (hx : Visits x s Γ sites)
    (hy : ∀ s', s'.stack = Γ → Visits y s' Γ' more) :
    Visits (x >>= fun _ => y) s Γ' (sites ++ more) := by
  unfold Visits at *
  rw [bind_apply_of_ok hx, hy _ rfl, List.foldl_append, List.flatMap_append, List.append_assoc]

theorem Visits.congr (hxy : x s = y s) (h : Visits y s Γ sites) : Visits x s Γ sites :=
  hxy.trans h

/-- A scope is left behind with all that was declared in it. -/
theorem visits_inScope (names : List String) {scope : Bindings Bool} (hs : s.stack = Γ)
    (h : ∀ s', s'.stack = Γ.push (names.map fun name => (name, true)) →
      Visits x s' (Γ.push scope) sites) :
    Visits (inScope names x) s Γ sites := by
  subst hs
  have hpeel : inScope names x s =
      (x >>= fun _ => leave)
        { s with stack := s.stack.push (names.map fun name => (name, true)) } := rfl
  have hx := h { s with stack := s.stack.push (names.map fun name => (name, true)) } rfl
  unfold Visits at *
  rw [hpeel, bind_apply_of_ok hx]
  rfl

theorem visits_inClassScopes {parent : Option Reference} (hs : s.stack = Γ)
    (h : ∀ s', s'.stack = Γ.classBody parent → Visits x s' (Γ.classBody parent) sites) :
    Visits (inClassScopes parent x) s Γ sites := by
  cases parent with
  | none => exact visits_inScope ["this"] hs h
  | some _ => exact visits_inScope ["super"] hs fun _ hs' => visits_inScope ["this"] hs' h

theorem mark_apply (t : Token) (finished : Bool) (s : AnalysisState) :
    mark t finished s = .ok () { s with stack := s.stack.mark t.lexeme finished } := by
  obtain ⟨⟨scopes⟩, depths, diagnostics⟩ := s
  cases scopes <;> rfl

theorem reportIf_apply (condition : Bool) (e : ScopeError) (t : Token) (s : AnalysisState) :
    reportIf condition e t s =
      .ok () { s with diagnostics := s.diagnostics ++ if condition then [e.at t] else [] } := by
  cases condition
  · simp [reportIf, pure_apply]
  · rfl

theorem visits_declare (h : Reflects Γ p v) (t : Token) (hs : s.stack = Γ) :
    Visits (declare t) s (Γ.mark t.lexeme false) [⟨p, none, .name t⟩] := by
  subst hs
  have hpeel : declare t s =
      (reportIf (s.stack.innermost? t.lexeme).isSome .alreadyDeclared t >>= fun _ =>
        mark t false) s := rfl
  refine Visits.congr hpeel ?_
  unfold Visits
  rw [bind_apply_of_ok (reportIf_apply _ _ _ _), mark_apply, h.declares]
  simp [Site.record, Site.recorded?, Site.violations]

theorem visits_define (t : Token) (hs : s.stack = Γ.mark t.lexeme false) :
    Visits (define t) s (Γ.mark t.lexeme true) [] := by
  unfold Visits define
  rw [mark_apply, hs, Stack.mark_mark]
  simp

theorem visits_introduce (h : Reflects Γ p v) (t : Token) (hs : s.stack = Γ) :
    Visits (introduce t) s (Γ.mark t.lexeme true) [⟨p, none, .name t⟩] :=
  (visits_declare h t hs).bind fun _ => visits_define t

theorem visits_introduceAll {form : FunctionForm} {name : String} {outer : Place}
    (ts : List Token) {parameters : List Token} {s : AnalysisState} {Γ : Stack Bool}
    (h : Reflects Γ (.function form name parameters [] :: outer) none) (hs : s.stack = Γ) :
    Visits (introduceAll ts) s (Γ.markAll (ts.map Token.lexeme))
      (Token.parameterSites outer form name parameters ts) ∧
    Reflects (Γ.markAll (ts.map Token.lexeme))
      (.function form name (parameters ++ ts) [] :: outer) none := by
  induction ts generalizing parameters s Γ with
  | nil => exact ⟨visits_pure hs, by simpa [Stack.markAll] using h⟩
  | cons t rest ih =>
    obtain ⟨-, hrest⟩ := ih (h.parameter t) (s := ⟨Γ.mark t.lexeme true, .empty, []⟩) rfl
    refine ⟨(visits_introduce h t hs).bind fun _ hs' => (ih (h.parameter t) hs').1, ?_⟩
    simpa [Stack.markAll] using hrest

/-- A reference is recorded by the innermost region that binds it. -/
theorem record_apply (h : Reflects Γ p v) (use : Use) (r : Reference)
    (hclass : ¬ (use = .receiver ∧ p.class? = none)) (depths : Depths)
    (diagnostics : List Diagnostic) :
    record use r ⟨Γ, depths, diagnostics⟩ =
      .ok () ⟨Γ, Site.record depths ⟨p, v, .reference use r⟩, diagnostics⟩ := by
  unfold record Site.record Site.recorded?
  simp only [h.distance?, if_neg hclass]
  cases p.distance? r.name <;> rfl

theorem visits_assign (h : Reflects Γ p v) (r : Reference) (hs : s.stack = Γ) :
    Visits (record .assign r) s Γ [⟨p, v, .reference .assign r⟩] := by
  subst hs
  unfold Visits
  rw [record_apply h .assign r (by simp)]
  simp [Site.violations]

theorem visits_readVariable (h : Reflects Γ p v) (r : Reference) (hs : s.stack = Γ) :
    Visits (readVariable r) s Γ [⟨p, v, .reference .read r⟩] := by
  subst hs
  have hown : (s.stack.innermost? r.name == some false) =
      decide (p ≠ [] ∧ v.map Token.lexeme = some r.name) := by
    rw [Bool.eq_iff_iff, beq_iff_eq, decide_eq_true_iff, h.unfinished]
  refine Visits.congr (readVariable_apply r s) ?_
  unfold Visits
  rw [bind_apply_of_ok (reportIf_apply _ _ _ _), record_apply h .read r (by simp), hown]
  simp [Site.violations]

theorem visits_receiver (h : Reflects Γ p v) (r : Reference) (hs : s.stack = Γ) :
    Visits (receiver p.surroundings r) s Γ [⟨p, v, .reference .receiver r⟩] := by
  subst hs
  unfold Visits receiver
  cases hclass : p.class? with
  | none =>
    have hkind : p.surroundings.inClass = .none := by simp [Place.surroundings, hclass]
    rw [if_pos hkind]
    simp [report, Site.record, Site.recorded?, Site.violations, hclass]
  | some parent =>
    have hkind : p.surroundings.inClass ≠ .none := by
      cases parent <;> simp [Place.surroundings, hclass, classKind]
    rw [if_neg hkind, record_apply h .receiver r (by simp [hclass])]
    simp [Site.violations, hclass]

theorem visits_superMethod (h : Reflects Γ p v) (r : Reference) (hs : s.stack = Γ) :
    Visits (superMethod p.surroundings r) s Γ [⟨p, v, .reference .superclass r⟩] := by
  subst hs
  have hrecord := record_apply h .superclass r (by simp)
  rcases hclass : p.class? with _ | _ | parent
  · have hpeel : superMethod p.surroundings r s =
        (report .superOutsideClass r.token >>= fun _ => record .superclass r) s := by
      simp [superMethod, Place.surroundings, hclass]
    refine Visits.congr hpeel ?_
    unfold Visits
    rw [bind_apply_of_ok (x := report .superOutsideClass r.token) rfl, hrecord]
    simp [Site.violations, hclass]
  · have hpeel : superMethod p.surroundings r s =
        (report .superWithoutSuperclass r.token >>= fun _ => record .superclass r) s := by
      simp [superMethod, Place.surroundings, hclass, classKind]
    refine Visits.congr hpeel ?_
    unfold Visits
    rw [bind_apply_of_ok (x := report .superWithoutSuperclass r.token) rfl, hrecord]
    simp [Site.violations, hclass]
  · have hpeel : superMethod p.surroundings r s = record .superclass r s := by
      simp [superMethod, Place.surroundings, hclass, classKind]
    refine Visits.congr hpeel ?_
    unfold Visits
    rw [hrecord]
    simp [Site.violations, hclass]

theorem visits_returnKeyword (keyword : Token) (hasValue : Bool) (hs : s.stack = Γ) :
    Visits (returnKeyword p.surroundings keyword hasValue) s Γ
      [⟨p, none, .returns keyword hasValue⟩] := by
  subst hs
  unfold Visits returnKeyword
  rw [bind_apply_of_ok (reportIf_apply _ _ _ _), reportIf_apply]
  rcases hfunction : p.function? with _ | ⟨form, name⟩
  · simp [Place.surroundings, Site.record, Site.recorded?, Site.violations, hfunction]
  · cases form with
    | function =>
      simp [Place.surroundings, Site.record, Site.recorded?, Site.violations, hfunction,
        functionKind]
    | method =>
      by_cases hname : name = initName <;>
        simp [Place.surroundings, Site.record, Site.recorded?, Site.violations, hfunction,
          functionKind, hname]

end Rules

section Trees

variable {P : Token → Prop}

mutual

theorem visits_expr {Γ : Stack Bool} {p : Place} {v : Option Token} (h : Reflects Γ p v) :
    ∀ (e : Expr) (s : AnalysisState), e.MadeOf P → s.stack = Γ →
      Visits (expr p.surroundings e) s Γ (e.sites p v)
  | .assign target value, s, ⟨_, hvalue⟩, hs => by
    rw [Expr.sites]
    exact (visits_expr h value s hvalue hs).bind fun _ => visits_assign h target
  | .binary left _ right, s, ⟨hleft, hright⟩, hs => by
    rw [Expr.sites]
    exact (visits_expr h left s hleft hs).bind fun s' => visits_expr h right s' hright
  | .call callee _ arguments, s, ⟨hcallee, harguments⟩, hs => by
    rw [Expr.sites]
    exact (visits_expr h callee s hcallee hs).bind fun s' => visits_exprs h arguments s' harguments
  | .get object _, s, hobject, hs => by
    rw [Expr.sites]
    exact visits_expr h object s hobject hs
  | .grouping inner, s, hinner, hs => by
    rw [Expr.sites]
    exact visits_expr h inner s hinner hs
  | .literal _, _, _, hs => by
    rw [Expr.sites]
    exact visits_pure hs
  | .logical left _ right, s, ⟨hleft, hright⟩, hs => by
    rw [Expr.sites]
    exact (visits_expr h left s hleft hs).bind fun s' => visits_expr h right s' hright
  | .set object _ value, s, ⟨hobject, hvalue⟩, hs => by
    rw [Expr.sites]
    exact (visits_expr h value s hvalue hs).bind fun s' => visits_expr h object s' hobject
  | .superMethod keyword _, _, _, hs => by
    rw [Expr.sites]
    exact visits_superMethod h keyword hs
  | .receiver keyword, _, _, hs => by
    rw [Expr.sites]
    exact visits_receiver h keyword hs
  | .unary _ operand, s, hoperand, hs => by
    rw [Expr.sites]
    exact visits_expr h operand s hoperand hs
  | .variable name, _, _, hs => by
    rw [Expr.sites]
    exact visits_readVariable h name hs

theorem visits_exprs {Γ : Stack Bool} {p : Place} {v : Option Token} (h : Reflects Γ p v) :
    ∀ (es : List Expr) (s : AnalysisState), Expr.MadeOfAll P es → s.stack = Γ →
      Visits (exprs p.surroundings es) s Γ (Expr.sitesAll p v es)
  | [], _, _, hs => by
    rw [Expr.sitesAll]
    exact visits_pure hs
  | e :: rest, s, ⟨he, hrest⟩, hs => by
    rw [Expr.sitesAll]
    exact (visits_expr h e s he hs).bind fun s' => visits_exprs h rest s' hrest

end

theorem visits_parent {Γ : Stack Bool} {p : Place} (h : Reflects Γ p none) (name : Token)
    (parent : Option Reference) {s : AnalysisState} (hs : s.stack = Γ) :
    Visits (superclass p.surroundings name parent) s Γ (Reference.parentSites p name parent) := by
  cases parent with
  | none => exact visits_pure hs
  | some r =>
    have hself : Visits (reportIf (r.name = name.lexeme) .inheritsFromItself r.token) s Γ
        [⟨p, none, .parent name r⟩] := by
      unfold Visits
      rw [reportIf_apply, hs]
      simp [Site.record, Site.recorded?, Site.violations]
    exact hself.bind fun s' => visits_readVariable h r

/-- Names and statements in a scope of their own. -/
theorem visits_inFunction (names : List String) (body : List Stmt) {Γ : Stack Bool}
    {x : Analysis Unit} {s : AnalysisState} {sites : List Site} (hs : s.stack = Γ)
    (h : ∀ s', s'.stack = Γ.push [] →
      Visits x s' (afterAll ((Γ.push []).markAll names) body) sites) :
    Visits (inScope [] x) s Γ sites := by
  obtain ⟨scope, hscope⟩ := afterAll_push Γ
    (Bindings.setAll [] (names.map fun name => (name, true))) body
  rw [← Stack.markAll_push] at hscope
  rw [hscope] at h
  exact visits_inScope [] hs h

mutual

theorem visits_stmt :
    ∀ (d : Stmt) (p : Place) (Γ : Stack Bool) (s : AnalysisState), d.MadeOf P →
      Reflects Γ p none → p.Open → s.stack = Γ →
      Visits (stmt p.surroundings d) s (Γ.after d) (d.sites p)
  | .block body, p, Γ, s, hbody, h, _, hs => by
    rw [Stmt.sites]
    have hblock : Reflects (Γ.push []) (.block [] :: p) none := h.push (fun _ => rfl) nofun
    refine visits_inFunction [] body hs fun s' hs' => ?_
    exact visits_stmts body (.block [] :: p) _ s' hbody hblock trivial hs'
  | .classDecl name parent members, p, Γ, s, ⟨_, _, hmembers⟩, h, hp, hs => by
    rw [Stmt.sites]
    have hbehind := h.begin hp (.classDecl name parent members)
    refine (visits_introduce h name hs).bind fun s' hs' => ?_
    rw [← surroundings_begin p (.classDecl name parent members)]
    refine (visits_parent hbehind name parent hs').bind fun s'' hs'' => ?_
    refine visits_inClassScopes hs'' fun s₃ hs₃ => ?_
    rw [← surroundings_classBody]
    exact visits_methods members _ _ s₃ hmembers (hbehind.classBody parent) hs₃
  | .expression e, p, Γ, s, he, h, _, hs => by
    rw [Stmt.sites]
    exact visits_expr h e s he hs
  | .funDecl f, p, Γ, s, hf, h, hp, hs => by
    rw [Stmt.sites]
    refine (visits_introduce h f.token hs).bind fun s' hs' => ?_
    have hbehind := h.begin hp (.funDecl f)
    rw [← surroundings_begin p (.funDecl f)]
    exact visits_function f .function _ _ s' hf hbehind hs'
  | .ifElse condition thenBranch none, p, Γ, s, ⟨hcondition, hthen, hd⟩, h, hp, hs => by
    rw [Stmt.sites]
    refine (visits_expr h condition s hcondition hs).bind fun s' hs' => ?_
    have hbranch := visits_stmt thenBranch p Γ s' hthen h hp hs'
    rw [Stack.after_of_none hd] at hbranch
    exact hbranch
  | .ifElse condition thenBranch (some elseBranch), p, Γ, s,
      ⟨hcondition, ⟨hthen, hd⟩, helse, hd'⟩, h, hp, hs => by
    rw [Stmt.sites]
    refine (visits_expr h condition s hcondition hs).bind fun s' hs' => ?_
    have hbranch := visits_stmt thenBranch p Γ s' hthen h hp hs'
    rw [Stack.after_of_none hd] at hbranch
    refine hbranch.bind fun s'' hs'' => ?_
    have hbranch' := visits_stmt elseBranch p Γ s'' helse h hp hs''
    rw [Stack.after_of_none hd'] at hbranch'
    exact hbranch'
  | .print e, p, Γ, s, he, h, _, hs => by
    rw [Stmt.sites]
    exact visits_expr h e s he hs
  | .returnStmt keyword none, p, Γ, s, _, _, _, hs => by
    rw [Stmt.sites]
    exact visits_returnKeyword keyword false hs
  | .returnStmt keyword (some value), p, Γ, s, hvalue, h, _, hs => by
    rw [Stmt.sites]
    exact (visits_returnKeyword keyword true hs).bind fun s' => visits_expr h value s' hvalue
  | .varDecl name none, p, Γ, s, _, h, _, hs => by
    rw [Stmt.sites]
    exact visits_introduce h name hs
  | .varDecl name (some value), p, Γ, s, ⟨_, hvalue⟩, h, hp, hs => by
    rw [Stmt.sites]
    refine (visits_declare h name hs).bind fun s' hs' => ?_
    rw [← surroundings_begin p (.varDecl name (some value))]
    have hv := visits_expr (h.value hp name (some value)) value s' hvalue hs'
    have hboth := hv.bind fun _ => visits_define name
    rw [List.append_nil] at hboth
    exact hboth
  | .whileLoop condition body, p, Γ, s, ⟨hcondition, hbody, hd⟩, h, hp, hs => by
    rw [Stmt.sites]
    refine (visits_expr h condition s hcondition hs).bind fun s' hs' => ?_
    have hround := visits_stmt body p Γ s' hbody h hp hs'
    rw [Stack.after_of_none hd] at hround
    exact hround

theorem visits_stmts :
    ∀ (ds : List Stmt) (p : Place) (Γ : Stack Bool) (s : AnalysisState), Stmt.MadeOfAll P ds →
      Reflects Γ p none → p.Open → s.stack = Γ →
      Visits (stmts p.surroundings ds) s (afterAll Γ ds) (Stmt.sitesAll p ds)
  | [], _, _, _, _, _, _, hs => by
    rw [Stmt.sitesAll]
    exact visits_pure hs
  | d :: rest, p, Γ, s, ⟨hd, hrest⟩, h, hp, hs => by
    rw [Stmt.sitesAll]
    refine (visits_stmt d p Γ s hd h hp hs).bind fun s' hs' => ?_
    rw [← surroundings_begin p d]
    exact visits_stmts rest (p.begin d) (Γ.after d) s' hrest (h.begin hp d) (hp.begin d) hs'

theorem visits_function :
    ∀ (f : Function) (form : FunctionForm) (p : Place) (Γ : Stack Bool) (s : AnalysisState),
      f.MadeOf P → Reflects Γ p none → s.stack = Γ →
      Visits (function p.surroundings (functionKind form f.name) f) s Γ (f.sites p form)
  | .mk name parameters body, form, p, Γ, s, ⟨_, _, hbody⟩, h, hs => by
    rw [Function.sites]
    have hentered : Reflects (Γ.push []) (.function form name.lexeme [] [] :: p) none :=
      h.push (fun _ => rfl) nofun
    refine visits_inFunction (parameters.map Token.lexeme) body hs fun s' hs' => ?_
    obtain ⟨hparameters, hinside⟩ := visits_introduceAll parameters hentered hs'
    refine hparameters.bind fun s'' hs'' => ?_
    have hstmts := visits_stmts body _ _ s'' hbody hinside trivial hs''
    rw [surroundings_function] at hstmts
    exact hstmts

theorem visits_methods :
    ∀ (fs : List Function) (p : Place) (Γ : Stack Bool) (s : AnalysisState),
      Function.MadeOfAll P fs → Reflects Γ p none → s.stack = Γ →
      Visits (methods p.surroundings fs) s Γ (Function.sitesAll p fs)
  | [], _, _, _, _, _, hs => by
    rw [Function.sitesAll]
    exact visits_pure hs
  | f :: rest, p, Γ, s, ⟨hf, hrest⟩, h, hs => by
    rw [Function.sitesAll]
    exact (visits_function f .method p Γ s hf h hs).bind fun s' hs' =>
      visits_methods rest p Γ s' hrest h hs'

end

end Trees

end Analysis

/-- The analysis of a program records and reports at each site what the place of the site says. -/
theorem analyse_eq {P : Token → Prop} {program : List Stmt} (hprogram : Stmt.MadeOfAll P program)
    (depths : Depths) :
    analyse depths program =
      ⟨(sites program).foldl Site.record depths,
        (sites program).flatMap Site.violations, none⟩ := by
  have htop : Reflects .empty [] none := ⟨.nil, by simp [Stack.innermost?, Stack.empty]⟩
  have h := Analysis.visits_stmts program [] .empty ⟨.empty, depths, []⟩ hprogram htop trivial rfl
  have hsurroundings : Place.surroundings [] = .topLevel := rfl
  unfold Analysis.Visits at h
  rw [hsurroundings] at h
  rw [analyse, h]
  rfl

end Scope
end LoxLang
