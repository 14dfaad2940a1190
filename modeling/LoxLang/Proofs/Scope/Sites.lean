import LoxLang.Proofs.Parser.Shapes
import LoxLang.Proofs.Syntax.Nodes
import LoxLang.Scope.Error

/-!
# Sites of a program

What a program binds and may not do, told from where its names, references and returns stand, and
not from a pass over it.

**Regions.** A region is a scope around a place: a block, a function with its parameters and its
body, a class body, or the scope of `super` around the body of a class with a superclass.  The top
level is none.  A block or a function tells which of its statements begin in front of the place;
it binds what these declare.  A variable is therefore bound in its own value, and a function or a
class in its own body, but what is declared further behind is not.

**Sites.** A site is a name that is declared, a reference, a superclass or a return statement, with
the regions around it.  `Site.violations` are the rules it breaks.

**Results.**
* `nodes_sitesAll`: the references of a program are those that its trees number.
* `proper_sites`: only class bodies bind `this` around a site, when names and keywords are spelled
  as their kinds say.
-/

namespace LoxLang
namespace Scope

section Regions

/-- A scope around a place. -/
inductive Region
  /-- A block, with the statements begun in it. -/
  | block (begun : List Stmt)
  /-- A function or a method, with its name, its parameters, and the statements begun in it. -/
  | function (form : FunctionForm) (name : String) (parameters : List Token) (begun : List Stmt)
  /-- What lies around the body of a class with a superclass. -/
  | superclass
  /-- The body of a class, with its superclass. -/
  | classBody (parent : Option Reference)

/-- Whether a region binds a name at the place. -/
def Region.binds : Region → String → Bool
  | block begun, name => begun.any fun s => s.declared? = some name
  | function _ _ parameters begun, name =>
    parameters.any (fun t => t.lexeme = name) || begun.any fun s => s.declared? = some name
  | superclass, name => name = "super"
  | classBody _, name => name = "this"

/-- A place of a program: the regions around it, the innermost first. -/
abbrev Place := List Region

namespace Place

/-- How many regions lie between a place and the innermost one that binds a name. -/
def distance? (p : Place) (name : String) : Option Nat := p.findIdx? fun region => region.binds name

/-- Whether the innermost region binds a name. -/
def declares (p : Place) (name : String) : Bool := p.head?.any fun region => region.binds name

/-- The form and the name of the nearest function around a place. -/
def function? (p : Place) : Option (FunctionForm × String) :=
  p.findSome? fun
    | .function form name _ _ => some (form, name)
    | _ => none

/-- The superclass of the nearest class around a place, if there is a class. -/
def class? (p : Place) : Option (Option Reference) :=
  p.findSome? fun
    | .classBody parent => some parent
    | _ => none

/-- The place behind the beginning of a statement. -/
def begin : Place → Stmt → Place
  | .block begun :: outer, s => .block (begun ++ [s]) :: outer
  | .function form name parameters begun :: outer, s =>
    .function form name parameters (begun ++ [s]) :: outer
  | p, _ => p

/-- The places of the methods of a class. -/
def classBody (p : Place) : Option Reference → Place
  | none => .classBody none :: p
  | some r => .classBody (some r) :: .superclass :: p

end Place

end Regions

section Sites

/-- What stands at a site. -/
inductive Item
  /-- A name that is declared. -/
  | name (t : Token)
  | reference (use : Use) (r : Reference)
  /-- The superclass of a class with that name. -/
  | parent (name : Token) (r : Reference)
  | returns (keyword : Token) (hasValue : Bool)

/-- Something that a program says at a place. -/
structure Site where
  place : Place
  /-- The variable in whose declared value the site lies. -/
  valueOf : Option Token
  item : Item

/-- The rules that are broken at a site. -/
def Site.violations (s : Site) : List Diagnostic :=
  match s.item with
  | .name t => if s.place.declares t.lexeme then [ScopeError.alreadyDeclared.at t] else []
  | .reference .assign _ => []
  | .reference .read r =>
    if s.place ≠ [] ∧ s.valueOf.map Token.lexeme = some r.name then
      [ScopeError.readInOwnValue.at r.token]
    else []
  | .reference .receiver r =>
    match s.place.class? with
    | none => [ScopeError.thisOutsideClass.at r.token]
    | some _ => []
  | .reference .superclass r =>
    match s.place.class? with
    | none => [ScopeError.superOutsideClass.at r.token]
    | some none => [ScopeError.superWithoutSuperclass.at r.token]
    | some (some _) => []
  | .parent name r =>
    if r.name = name.lexeme then [ScopeError.inheritsFromItself.at r.token] else []
  | .returns keyword hasValue =>
    match s.place.function? with
    | none => [ScopeError.returnOutsideFunction.at keyword]
    | some (form, name) =>
      if form = .method ∧ name = initName ∧ hasValue then
        [ScopeError.returnValueFromInit.at keyword]
      else []

/-- The number of the reference that stands at a site. -/
def Site.node? (s : Site) : Option NodeId :=
  match s.item with
  | .reference _ r => some r.node
  | _ => none

end Sites

end Scope

open Scope

section Trees

mutual

/-- The sites of an expression. -/
def Expr.sites (p : Place) (valueOf : Option Token) : Expr → List Site
  | .assign target value => Expr.sites p valueOf value ++ [⟨p, valueOf, .reference .assign target⟩]
  | .binary left _ right => Expr.sites p valueOf left ++ Expr.sites p valueOf right
  | .call callee _ arguments => Expr.sites p valueOf callee ++ Expr.sitesAll p valueOf arguments
  | .get object _ => Expr.sites p valueOf object
  | .grouping inner => Expr.sites p valueOf inner
  | .literal _ => []
  | .logical left _ right => Expr.sites p valueOf left ++ Expr.sites p valueOf right
  | .set object _ value => Expr.sites p valueOf value ++ Expr.sites p valueOf object
  | .superMethod keyword _ => [⟨p, valueOf, .reference .superclass keyword⟩]
  | .receiver keyword => [⟨p, valueOf, .reference .receiver keyword⟩]
  | .unary _ operand => Expr.sites p valueOf operand
  | .variable name => [⟨p, valueOf, .reference .read name⟩]
  | .unknown => []

/-- The sites of expressions. -/
def Expr.sitesAll (p : Place) (valueOf : Option Token) : List Expr → List Site
  | [] => []
  | e :: rest => Expr.sites p valueOf e ++ Expr.sitesAll p valueOf rest

end

/-- The sites of the superclass of a class. -/
def Reference.parentSites (p : Place) (name : Token) : Option Reference → List Site
  | none => []
  | some r => [⟨p, none, .parent name r⟩, ⟨p, none, .reference .read r⟩]

/-- The sites of the parameters of a function, behind some of them. -/
def Token.parameterSites (p : Place) (form : FunctionForm) (name : String)
    (parameters : List Token) : List Token → List Site
  | [] => []
  | t :: rest =>
    ⟨.function form name parameters [] :: p, none, .name t⟩ ::
      parameterSites p form name (parameters ++ [t]) rest

mutual

/-- The sites of a statement. -/
def Stmt.sites (p : Place) : Stmt → List Site
  | .block body => Stmt.sitesAll (.block [] :: p) body
  | .classDecl name parent members =>
    let behind := p.begin (.classDecl name parent members)
    ⟨p, none, .name name⟩ :: (Reference.parentSites behind name parent ++
      Function.sitesAll (behind.classBody parent) members)
  | .expression e => e.sites p none
  | .funDecl f => ⟨p, none, .name f.token⟩ :: Function.sites (p.begin (.funDecl f)) .function f
  | .ifElse condition thenBranch none => condition.sites p none ++ Stmt.sites p thenBranch
  | .ifElse condition thenBranch (some elseBranch) =>
    condition.sites p none ++ (Stmt.sites p thenBranch ++ Stmt.sites p elseBranch)
  | .print e => e.sites p none
  | .returnStmt keyword none => [⟨p, none, .returns keyword false⟩]
  | .returnStmt keyword (some value) => ⟨p, none, .returns keyword true⟩ :: value.sites p none
  | .varDecl name none => [⟨p, none, .name name⟩]
  | .varDecl name (some value) =>
    ⟨p, none, .name name⟩ :: value.sites (p.begin (.varDecl name (some value))) (some name)
  | .whileLoop condition body => condition.sites p none ++ Stmt.sites p body
  | .unknown => []

/-- The sites of statements. -/
def Stmt.sitesAll (p : Place) : List Stmt → List Site
  | [] => []
  | s :: rest => Stmt.sites p s ++ Stmt.sitesAll (p.begin s) rest

/-- The sites of a function. -/
def Function.sites (p : Place) (form : FunctionForm) : Function → List Site
  | .mk name parameters body =>
    Token.parameterSites p form name.lexeme [] parameters ++
      Stmt.sitesAll (.function form name.lexeme parameters [] :: p) body

/-- The sites of methods. -/
def Function.sitesAll (p : Place) : List Function → List Site
  | [] => []
  | f :: rest => Function.sites p .method f ++ Function.sitesAll p rest

end

/-- The sites of a program. -/
def Scope.sites (program : List Stmt) : List Site := Stmt.sitesAll [] program

end Trees

section Nodes

mutual

theorem Expr.nodes_sites (p : Place) (v : Option Token) :
    ∀ e : Expr, (e.sites p v).filterMap Site.node? = e.nodes
  | .assign target value => by
    simp [Expr.sites, Expr.nodes, Expr.nodes_sites p v value, Site.node?]
  | .binary left _ right => by
    simp [Expr.sites, Expr.nodes, Expr.nodes_sites p v left, Expr.nodes_sites p v right]
  | .call callee _ arguments => by
    simp [Expr.sites, Expr.nodes, Expr.nodes_sites p v callee, Expr.nodes_sitesAll p v arguments]
  | .get object _ => by simp [Expr.sites, Expr.nodes, Expr.nodes_sites p v object]
  | .grouping inner => by simp [Expr.sites, Expr.nodes, Expr.nodes_sites p v inner]
  | .literal _ => rfl
  | .logical left _ right => by
    simp [Expr.sites, Expr.nodes, Expr.nodes_sites p v left, Expr.nodes_sites p v right]
  | .set object _ value => by
    simp [Expr.sites, Expr.nodes, Expr.nodes_sites p v object, Expr.nodes_sites p v value]
  | .superMethod _ _ => rfl
  | .receiver _ => rfl
  | .unary _ operand => by simp [Expr.sites, Expr.nodes, Expr.nodes_sites p v operand]
  | .variable _ => rfl
  | .unknown => rfl

theorem Expr.nodes_sitesAll (p : Place) (v : Option Token) :
    ∀ es : List Expr, (Expr.sitesAll p v es).filterMap Site.node? = Expr.nodesAll es
  | [] => rfl
  | e :: rest => by
    simp [Expr.sitesAll, Expr.nodesAll, Expr.nodes_sites p v e, Expr.nodes_sitesAll p v rest]

end

theorem Reference.nodes_parentSites (p : Place) (name : Token) (parent : Option Reference) :
    (Reference.parentSites p name parent).filterMap Site.node? =
      (parent.map Reference.node).toList := by
  cases parent <;> rfl

theorem Token.nodes_parameterSites (p : Place) (form : FunctionForm) (name : String)
    (parameters more : List Token) :
    (Token.parameterSites p form name parameters more).filterMap Site.node? = [] := by
  induction more generalizing parameters with
  | nil => rfl
  | cons t rest ih =>
    rw [Token.parameterSites, List.filterMap_cons_none rfl]
    exact ih _

mutual

theorem Stmt.nodes_sites : ∀ (s : Stmt) (p : Place), (s.sites p).filterMap Site.node? = s.nodes
  | .block body, p => by
    rw [Stmt.sites, Stmt.nodes]
    exact Stmt.nodes_sitesAll body _
  | .classDecl name parent members, p => by
    rw [Stmt.sites, Stmt.nodes, List.filterMap_cons_none rfl, List.filterMap_append,
      Reference.nodes_parentSites, Function.nodes_sitesAll members]
  | .expression e, p => Expr.nodes_sites p none e
  | .funDecl f, p => by
    rw [Stmt.sites, Stmt.nodes, List.filterMap_cons_none rfl, Function.nodes_sites f]
  | .ifElse condition thenBranch none, p => by
    rw [Stmt.sites, Stmt.nodes, List.filterMap_append, Expr.nodes_sites,
      Stmt.nodes_sites thenBranch]
  | .ifElse condition thenBranch (some elseBranch), p => by
    rw [Stmt.sites, Stmt.nodes, List.filterMap_append, List.filterMap_append, Expr.nodes_sites,
      Stmt.nodes_sites thenBranch, Stmt.nodes_sites elseBranch]
  | .print e, p => Expr.nodes_sites p none e
  | .returnStmt _ none, _ => rfl
  | .returnStmt _ (some value), p => by
    rw [Stmt.sites, List.filterMap_cons_none rfl]
    exact Expr.nodes_sites p none value
  | .varDecl _ none, _ => rfl
  | .varDecl name (some value), p => by
    rw [Stmt.sites, List.filterMap_cons_none rfl]
    exact Expr.nodes_sites _ (some name) value
  | .whileLoop condition body, p => by
    rw [Stmt.sites, Stmt.nodes, List.filterMap_append, Expr.nodes_sites, Stmt.nodes_sites body]
  | .unknown, _ => rfl

/-- The references at the sites of statements are all references of the statements. -/
theorem Stmt.nodes_sitesAll :
    ∀ (ss : List Stmt) (p : Place), (Stmt.sitesAll p ss).filterMap Site.node? = Stmt.nodesAll ss
  | [], _ => rfl
  | s :: rest, p => by
    rw [Stmt.sitesAll, Stmt.nodesAll, List.filterMap_append, Stmt.nodes_sites s,
      Stmt.nodes_sitesAll rest]

theorem Function.nodes_sites :
    ∀ (f : Function) (p : Place) (form : FunctionForm),
      (f.sites p form).filterMap Site.node? = f.nodes
  | .mk _ _ body, p, form => by
    rw [Function.sites, Function.nodes, List.filterMap_append, Token.nodes_parameterSites,
      Stmt.nodes_sitesAll body, List.nil_append]

theorem Function.nodes_sitesAll :
    ∀ (fs : List Function) (p : Place),
      (Function.sitesAll p fs).filterMap Site.node? = Function.nodesAll fs
  | [], _ => rfl
  | f :: rest, p => by
    rw [Function.sitesAll, Function.nodesAll, List.filterMap_append, Function.nodes_sites f,
      Function.nodes_sitesAll rest]

end

end Nodes

namespace Scope

section Honesty

/-- Whether only class bodies bind `this`. -/
def Place.Honest (p : Place) : Prop :=
  ∀ region ∈ p, region.binds "this" = true → ∃ parent, region = .classBody parent

namespace Place.Honest

variable {p : Place}

/-- Outside of classes nothing binds `this`. -/
theorem distance?_this (h : p.Honest) (hclass : p.class? = none) : p.distance? "this" = none := by
  rw [Place.distance?, List.findIdx?_eq_none_iff]
  intro region hregion
  rw [Bool.eq_false_iff]
  intro hbinds
  obtain ⟨parent, rfl⟩ := h region hregion hbinds
  rw [Place.class?, List.findSome?_eq_none_iff] at hclass
  cases hclass _ hregion

theorem cons {region : Region} (h : p.Honest)
    (hregion : region.binds "this" = true → ∃ parent, region = .classBody parent) :
    Place.Honest (region :: p) :=
  List.forall_mem_cons.mpr ⟨hregion, h⟩

theorem classBody (h : p.Honest) (parent : Option Reference) : (p.classBody parent).Honest := by
  cases parent with
  | none => exact h.cons fun _ => ⟨none, rfl⟩
  | some r => exact (h.cons (by simp [Region.binds])).cons fun _ => ⟨some r, rfl⟩

/-- A statement that declares a plain name binds that name only. -/
theorem begin {s : Stmt} (h : p.Honest) (hs : ∀ name ∈ s.declared?, Plain name) :
    (p.begin s).Honest := by
  have hthis : s.declared? ≠ some "this" := fun heq => (hs "this" heq).1 rfl
  obtain _ | ⟨region, outer⟩ := p
  · exact h
  · obtain ⟨hregion, houter⟩ := List.forall_mem_cons.mp h
    cases region with
    | block begun =>
      refine cons houter fun hbinds => ?_
      obtain ⟨parent, hblock⟩ := hregion (by simpa [Region.binds, hthis] using hbinds)
      cases hblock
    | function form name parameters begun =>
      refine cons houter fun hbinds => ?_
      obtain ⟨parent, hfunction⟩ := hregion (by simpa [Region.binds, hthis] using hbinds)
      cases hfunction
    | superclass => exact h
    | classBody parent => exact h

end Place.Honest

theorem plain_of_at {t : Token} (h : t.At Token.Proper .identifier) : Plain t.lexeme :=
  h.2.identifier h.1

theorem plain_of_declared? {s : Stmt} {name : String} (hs : s.MadeOf Token.Proper)
    (h : name ∈ s.declared?) : Plain name := by
  cases s with
  | classDecl t parent members => cases h; exact plain_of_at hs.1
  | funDecl f => obtain ⟨t, parameters, body⟩ := f; cases h; exact plain_of_at hs.1
  | varDecl t value => cases h; exact plain_of_at hs.1
  | _ => cases h

/-- Whether only class bodies bind `this` around a site, and a site of `this` is spelled so. -/
structure Site.Proper (s : Site) : Prop where
  place : s.place.Honest
  receiver : ∀ r, s.item = .reference .receiver r → r.name = "this"

theorem proper_site {p : Place} (hp : p.Honest) {v : Option Token} {item : Item}
    (hitem : ∀ r, item = .reference .receiver r → r.name = "this") : Site.Proper ⟨p, v, item⟩ :=
  ⟨hp, hitem⟩

mutual

theorem proper_expr {p : Place} (hp : p.Honest) (v : Option Token) :
    ∀ e : Expr, e.MadeOf Token.Proper → ∀ site ∈ e.sites p v, site.Proper
  | .assign _ value, h => by
    simp only [Expr.sites, List.forall_mem_append, List.forall_mem_singleton]
    exact ⟨proper_expr hp v value h.2, proper_site hp nofun⟩
  | .binary left _ right, h => by
    simp only [Expr.sites, List.forall_mem_append]
    exact ⟨proper_expr hp v left h.1, proper_expr hp v right h.2⟩
  | .call callee _ arguments, h => by
    simp only [Expr.sites, List.forall_mem_append]
    exact ⟨proper_expr hp v callee h.1, proper_exprs hp v arguments h.2⟩
  | .get object _, h => by
    simp only [Expr.sites]
    exact proper_expr hp v object h
  | .grouping inner, h => by
    simp only [Expr.sites]
    exact proper_expr hp v inner h
  | .literal _, _ => by simp [Expr.sites]
  | .logical left _ right, h => by
    simp only [Expr.sites, List.forall_mem_append]
    exact ⟨proper_expr hp v left h.1, proper_expr hp v right h.2⟩
  | .set object _ value, h => by
    simp only [Expr.sites, List.forall_mem_append]
    exact ⟨proper_expr hp v value h.2, proper_expr hp v object h.1⟩
  | .superMethod _ _, _ => by
    simp only [Expr.sites, List.forall_mem_singleton]
    exact proper_site hp nofun
  | .receiver keyword, h => by
    simp only [Expr.sites, List.forall_mem_singleton]
    refine proper_site hp ?_
    rintro _ ⟨⟩
    exact h.2.thisWord h.1
  | .unary _ operand, h => by
    simp only [Expr.sites]
    exact proper_expr hp v operand h
  | .variable _, _ => by
    simp only [Expr.sites, List.forall_mem_singleton]
    exact proper_site hp nofun
  | .unknown, h => h.elim

theorem proper_exprs {p : Place} (hp : p.Honest) (v : Option Token) :
    ∀ es : List Expr, Expr.MadeOfAll Token.Proper es → ∀ site ∈ Expr.sitesAll p v es, site.Proper
  | [], _ => by simp [Expr.sitesAll]
  | e :: rest, h => by
    simp only [Expr.sitesAll, List.forall_mem_append]
    exact ⟨proper_expr hp v e h.1, proper_exprs hp v rest h.2⟩

end

theorem proper_parentSites {p : Place} (hp : p.Honest) (name : Token) (parent : Option Reference) :
    ∀ site ∈ Reference.parentSites p name parent, site.Proper := by
  cases parent with
  | none => simp [Reference.parentSites]
  | some r =>
    simp only [Reference.parentSites, List.forall_mem_cons, List.not_mem_nil, false_implies,
      implies_true, and_true]
    exact ⟨proper_site hp nofun, proper_site hp nofun⟩

theorem honest_parameters {p : Place} (hp : p.Honest) (form : FunctionForm) (name : String)
    {parameters : List Token} (hplain : ∀ t ∈ parameters, t.At Token.Proper .identifier) :
    Place.Honest (.function form name parameters [] :: p) := by
  refine hp.cons fun hbinds => ?_
  obtain ⟨t, ht, hthis⟩ : ∃ t ∈ parameters, t.lexeme = "this" := by
    simpa [Region.binds] using hbinds
  exact absurd hthis (plain_of_at (hplain t ht)).1

theorem proper_parameterSites {p : Place} (hp : p.Honest) (form : FunctionForm) (name : String)
    {parameters more : List Token}
    (hplain : ∀ t ∈ parameters ++ more, t.At Token.Proper .identifier) :
    ∀ site ∈ Token.parameterSites p form name parameters more, site.Proper := by
  induction more generalizing parameters with
  | nil => simp [Token.parameterSites]
  | cons t rest ih =>
    simp only [Token.parameterSites, List.forall_mem_cons]
    refine ⟨proper_site ?_ nofun, ih (by simpa using hplain)⟩
    exact honest_parameters hp form name fun t ht => hplain t (List.mem_append_left _ ht)

mutual

theorem proper_stmt {p : Place} (hp : p.Honest) :
    ∀ s : Stmt, s.MadeOf Token.Proper → ∀ site ∈ s.sites p, site.Proper
  | .block body, h => by
    have hbody : Place.Honest (.block [] :: p) := hp.cons (by simp [Region.binds])
    simp only [Stmt.sites]
    exact proper_stmts hbody body h
  | .classDecl name parent members, h => by
    have hbehind : (p.begin (.classDecl name parent members)).Honest :=
      hp.begin fun _ => plain_of_declared? h
    simp only [Stmt.sites, List.forall_mem_cons, List.forall_mem_append]
    exact ⟨proper_site hp nofun, proper_parentSites hbehind name parent,
      proper_functions (hbehind.classBody parent) members h.2.2⟩
  | .expression e, h => by
    simp only [Stmt.sites]
    exact proper_expr hp none e h
  | .funDecl f, h => by
    have hbehind : (p.begin (.funDecl f)).Honest := hp.begin fun _ => plain_of_declared? h
    simp only [Stmt.sites, List.forall_mem_cons]
    exact ⟨proper_site hp nofun, proper_function hbehind .function f h⟩
  | .ifElse condition thenBranch none, h => by
    simp only [Stmt.sites, List.forall_mem_append]
    exact ⟨proper_expr hp none condition h.1, proper_stmt hp thenBranch h.2.1⟩
  | .ifElse condition thenBranch (some elseBranch), h => by
    simp only [Stmt.sites, List.forall_mem_append]
    exact ⟨proper_expr hp none condition h.1, proper_stmt hp thenBranch h.2.1.1,
      proper_stmt hp elseBranch h.2.2.1⟩
  | .print e, h => by
    simp only [Stmt.sites]
    exact proper_expr hp none e h
  | .returnStmt _ none, _ => by
    simp only [Stmt.sites, List.forall_mem_singleton]
    exact proper_site hp nofun
  | .returnStmt _ (some value), h => by
    simp only [Stmt.sites, List.forall_mem_cons]
    exact ⟨proper_site hp nofun, proper_expr hp none value h⟩
  | .varDecl _ none, _ => by
    simp only [Stmt.sites, List.forall_mem_singleton]
    exact proper_site hp nofun
  | .varDecl name (some value), h => by
    have hbehind : (p.begin (.varDecl name (some value))).Honest :=
      hp.begin fun _ => plain_of_declared? h
    simp only [Stmt.sites, List.forall_mem_cons]
    exact ⟨proper_site hp nofun, proper_expr hbehind (some name) value h.2⟩
  | .whileLoop condition body, h => by
    simp only [Stmt.sites, List.forall_mem_append]
    exact ⟨proper_expr hp none condition h.1, proper_stmt hp body h.2.1⟩
  | .unknown, h => h.elim

theorem proper_stmts {p : Place} (hp : p.Honest) :
    ∀ ss : List Stmt, Stmt.MadeOfAll Token.Proper ss → ∀ site ∈ Stmt.sitesAll p ss, site.Proper
  | [], _ => by simp [Stmt.sitesAll]
  | s :: rest, h => by
    simp only [Stmt.sitesAll, List.forall_mem_append]
    exact ⟨proper_stmt hp s h.1,
      proper_stmts (hp.begin fun _ => plain_of_declared? h.1) rest h.2⟩

theorem proper_function {p : Place} (hp : p.Honest) (form : FunctionForm) :
    ∀ f : Function, f.MadeOf Token.Proper → ∀ site ∈ f.sites p form, site.Proper
  | .mk name _ body, h => by
    simp only [Function.sites, List.forall_mem_append]
    exact ⟨proper_parameterSites hp form name.lexeme h.2.1,
      proper_stmts (honest_parameters hp form name.lexeme h.2.1) body h.2.2⟩

theorem proper_functions {p : Place} (hp : p.Honest) :
    ∀ fs : List Function, Function.MadeOfAll Token.Proper fs →
      ∀ site ∈ Function.sitesAll p fs, site.Proper
  | [], _ => by simp [Function.sitesAll]
  | f :: rest, h => by
    simp only [Function.sitesAll, List.forall_mem_append]
    exact ⟨proper_function hp .method f h.1, proper_functions hp rest h.2⟩

end

/-- The sites of a program that is made of proper tokens. -/
theorem proper_sites {program : List Stmt} (h : Stmt.MadeOfAll Token.Proper program) :
    ∀ site ∈ sites program, site.Proper :=
  proper_stmts (p := []) nofun program h

end Honesty

end Scope
end LoxLang
