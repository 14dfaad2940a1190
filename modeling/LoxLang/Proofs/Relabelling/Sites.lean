import LoxLang.Proofs.Relabelling.Trees
import LoxLang.Proofs.Scope.Entries

/-!
# Relabelling the sites of a program

What a program binds, which rules it breaks and how deep its references are recorded is all told by
its sites, and these do not depend on labels: the sites of a relabelled program are the relabelled
sites.  So programs of one outline break the same rules at the same places, and have the same
recorded depths in the same order.

**Results.**
* `sites_relabelAll`: the sites of a relabelled program.
* `violations_relabel`, `depthOf_relabel`: a relabelled site breaks the same rules, and its
  reference is as deep.
* `depths_of_nodes`: the recorded depths of the references of a program, in the order of its sites.
-/

namespace LoxLang

/-- A diagnostic on another line. -/
def Diagnostic.relabel (line : Int → Int) (d : Diagnostic) : Diagnostic :=
  { d with line := line d.line }

@[simp] theorem Diagnostic.relabel_self (d : Diagnostic) : d.relabel (fun line => line) = d := rfl

namespace Scope

section Defs

variable (φ : Relabelling)

/-- A region with other labels. -/
def Region.relabel : Region → Region
  | block begun => block (Stmt.relabelAll φ begun)
  | function form name parameters begun =>
    function form name (parameters.map (Token.relabel φ.line)) (Stmt.relabelAll φ begun)
  | superclass => superclass
  | classBody parent => classBody (parent.map (Reference.relabel φ))

/-- A place with other labels. -/
def Place.relabel (p : Place) : Place := p.map (Region.relabel φ)

/-- What stands at a site, with other labels. -/
def Item.relabel : Item → Item
  | .name t => .name (t.relabel φ.line)
  | .reference use r => .reference use (r.relabel φ)
  | .parent t r => .parent (t.relabel φ.line) (r.relabel φ)
  | .returns keyword hasValue => .returns (keyword.relabel φ.line) hasValue

/-- A site with other labels. -/
def Site.relabel (s : Site) : Site :=
  ⟨s.place.relabel φ, s.valueOf.map (Token.relabel φ.line), s.item.relabel φ⟩

/-- A recorded depth of a reference with other labels. -/
def DepthEntry.relabel (e : DepthEntry) : DepthEntry :=
  { e with reference := e.reference.relabel φ }

/-- Of a site with a reference: the depth of the reference, if it is recorded. -/
def Site.depthOf? (s : Site) : Option (Option Int) :=
  s.node?.map fun _ => s.recorded?.map DepthEntry.depth

end Defs

section Places

variable (φ : Relabelling)

@[simp] theorem any_declared?_relabelAll (begun : List Stmt) (name : String) :
    ((Stmt.relabelAll φ begun).any fun s => s.declared? = some name) =
      begun.any fun s => s.declared? = some name := by
  induction begun with
  | nil => rfl
  | cons s rest ih => simp [Stmt.relabelAll, ih]

@[simp] theorem binds_relabel (region : Region) (name : String) :
    (region.relabel φ).binds name = region.binds name := by
  cases region with
  | function form f parameters begun =>
    have hparameters : ((parameters.map (Token.relabel φ.line)).any fun t => t.lexeme = name) =
        parameters.any fun t => t.lexeme = name := List.any_map
    simp only [Region.relabel, Region.binds, hparameters, any_declared?_relabelAll]
  | _ => simp [Region.relabel, Region.binds]

@[simp] theorem distance?_relabel (p : Place) (name : String) :
    (p.relabel φ).distance? name = p.distance? name := by
  induction p with
  | nil => rfl
  | cons region outer ih =>
    simp only [Place.distance?, Place.relabel, List.map_cons, List.findIdx?_cons,
      binds_relabel] at ih ⊢
    rw [ih]

@[simp] theorem declares_relabel (p : Place) (name : String) :
    (p.relabel φ).declares name = p.declares name := by
  cases p <;> simp [Place.relabel, Place.declares]

@[simp] theorem function?_relabel (p : Place) : (p.relabel φ).function? = p.function? := by
  induction p with
  | nil => rfl
  | cons region outer ih => cases region <;> first | rfl | exact ih

@[simp] theorem class?_relabel (p : Place) :
    (p.relabel φ).class? = p.class?.map (Option.map (Reference.relabel φ)) := by
  induction p with
  | nil => rfl
  | cons region outer ih => cases region <;> first | rfl | exact ih

theorem begin_relabel (p : Place) (s : Stmt) :
    (p.begin s).relabel φ = (p.relabel φ).begin (s.relabel φ) := by
  obtain _ | ⟨region, outer⟩ := p
  · rfl
  · cases region <;> simp [Place.begin, Place.relabel, Region.relabel, Stmt.relabelAll]

theorem classBody_relabel (p : Place) (parent : Option Reference) :
    (p.classBody parent).relabel φ =
      (p.relabel φ).classBody (parent.map (Reference.relabel φ)) := by
  cases parent <;> rfl

end Places

section Judgements

variable (φ : Relabelling)

@[simp] theorem at_relabel (e : ScopeError) (t : Token) :
    e.at (t.relabel φ.line) = (e.at t).relabel φ.line := rfl

/-- A relabelled site breaks the same rules. -/
theorem violations_relabel (s : Site) :
    (s.relabel φ).violations = s.violations.map (Diagnostic.relabel φ.line) := by
  obtain ⟨place, valueOf, item⟩ := s
  cases item with
  | name t =>
    simp only [Site.violations, Site.relabel, Item.relabel, declares_relabel, Token.lexeme_relabel]
    split <;> rfl
  | reference use r =>
    cases use with
    | assign => rfl
    | read =>
      have hplace : place.relabel φ = [] ↔ place = [] := List.map_eq_nil_iff
      have hvalue : (valueOf.map (Token.relabel φ.line)).map Token.lexeme =
          valueOf.map Token.lexeme := by cases valueOf <;> rfl
      simp only [Site.violations, Site.relabel, Item.relabel, ne_eq, hplace, hvalue,
        Reference.name_relabel]
      split <;> rfl
    | receiver =>
      simp only [Site.violations, Site.relabel, Item.relabel, class?_relabel]
      cases place.class? <;> rfl
    | superclass =>
      simp only [Site.violations, Site.relabel, Item.relabel, class?_relabel]
      rcases place.class? with _ | _ | parent <;> rfl
  | parent name r =>
    by_cases h : r.name = name.lexeme <;>
      simp [Site.violations, Site.relabel, Item.relabel, h]
  | returns keyword hasValue =>
    simp only [Site.violations, Site.relabel, Item.relabel, function?_relabel]
    rcases place.function? with _ | ⟨form, name⟩
    · rfl
    · dsimp only
      split <;> rfl

/-- What is recorded of a relabelled site. -/
theorem recorded?_relabel (s : Site) :
    (s.relabel φ).recorded? = s.recorded?.map (DepthEntry.relabel φ) := by
  obtain ⟨place, valueOf, item⟩ := s
  cases item with
  | reference use r =>
    by_cases h : use = .receiver ∧ place.class? = none
    · simp [Site.relabel, Item.relabel, Site.recorded?, h]
    · simp [Site.relabel, Item.relabel, Site.recorded?, h, Function.comp_def, DepthEntry.relabel]
  | _ => rfl

/-- The reference of a relabelled site is as deep. -/
theorem depthOf_relabel (s : Site) : (s.relabel φ).depthOf? = s.depthOf? := by
  have hnode : (s.relabel φ).node? = s.node?.map φ.node := by
    obtain ⟨place, valueOf, item⟩ := s
    cases item <;> rfl
  simp only [Site.depthOf?, hnode, recorded?_relabel, Option.map_map]
  rfl

end Judgements

end Scope

open Scope

section Trees

variable (φ : Relabelling)

mutual

theorem Expr.sites_relabel (p : Place) (v : Option Token) : ∀ e : Expr,
    (e.relabel φ).sites (p.relabel φ) (v.map (Token.relabel φ.line)) =
      (e.sites p v).map (Site.relabel φ)
  | .assign _ value => by simp [Expr.relabel, Expr.sites, Expr.sites_relabel p v value]; rfl
  | .binary left _ right => by
    simp [Expr.relabel, Expr.sites, Expr.sites_relabel p v left, Expr.sites_relabel p v right]
  | .call callee _ arguments => by
    simp [Expr.relabel, Expr.sites, Expr.sites_relabel p v callee,
      Expr.sitesAll_relabelAll p v arguments]
  | .get object _ => by simp [Expr.relabel, Expr.sites, Expr.sites_relabel p v object]
  | .grouping inner => by simp [Expr.relabel, Expr.sites, Expr.sites_relabel p v inner]
  | .literal _ => rfl
  | .logical left _ right => by
    simp [Expr.relabel, Expr.sites, Expr.sites_relabel p v left, Expr.sites_relabel p v right]
  | .set object _ value => by
    simp [Expr.relabel, Expr.sites, Expr.sites_relabel p v object, Expr.sites_relabel p v value]
  | .superMethod _ _ => rfl
  | .receiver _ => rfl
  | .unary _ operand => by simp [Expr.relabel, Expr.sites, Expr.sites_relabel p v operand]
  | .variable _ => rfl
  | .unknown => rfl

theorem Expr.sitesAll_relabelAll (p : Place) (v : Option Token) : ∀ es : List Expr,
    Expr.sitesAll (p.relabel φ) (v.map (Token.relabel φ.line)) (Expr.relabelAll φ es) =
      (Expr.sitesAll p v es).map (Site.relabel φ)
  | [] => rfl
  | e :: rest => by
    simp [Expr.relabelAll, Expr.sitesAll, Expr.sites_relabel p v e,
      Expr.sitesAll_relabelAll p v rest]

end

theorem Reference.parentSites_relabel (p : Place) (name : Token) (parent : Option Reference) :
    Reference.parentSites (p.relabel φ) (name.relabel φ.line)
        (parent.map (Reference.relabel φ)) =
      (Reference.parentSites p name parent).map (Site.relabel φ) := by
  cases parent <;> rfl

theorem Token.parameterSites_relabel (p : Place) (form : FunctionForm) (name : String)
    (parameters more : List Token) :
    Token.parameterSites (p.relabel φ) form name (parameters.map (Token.relabel φ.line))
        (more.map (Token.relabel φ.line)) =
      (Token.parameterSites p form name parameters more).map (Site.relabel φ) := by
  induction more generalizing parameters with
  | nil => rfl
  | cons t rest ih =>
    have hrest := ih (parameters ++ [t])
    rw [List.map_append] at hrest
    exact congrArg (List.cons _) hrest

mutual

theorem Stmt.sites_relabel : ∀ (s : Stmt) (p : Place),
    (s.relabel φ).sites (p.relabel φ) = (s.sites p).map (Site.relabel φ)
  | .block body, p => by
    rw [Stmt.sites, ← Stmt.sitesAll_relabelAll body (.block [] :: p)]
    rfl
  | .classDecl name parent members, p => by
    have hbegin := begin_relabel φ p (.classDecl name parent members)
    simp only [Stmt.relabel] at hbegin
    simp only [Stmt.relabel, Stmt.sites, List.map_cons, List.map_append, ← hbegin,
      ← classBody_relabel, Reference.parentSites_relabel, Function.sitesAll_relabelAll members]
    rfl
  | .expression e, p => Expr.sites_relabel φ p none e
  | .funDecl f, p => by
    have hbegin := begin_relabel φ p (.funDecl f)
    simp only [Stmt.relabel] at hbegin
    simp only [Stmt.relabel, Stmt.sites, List.map_cons, ← hbegin, Function.sites_relabel f,
      Function.token_relabel]
    rfl
  | .ifElse condition thenBranch none, p => by
    have hcondition := Expr.sites_relabel φ p none condition
    simp only [Option.map_none] at hcondition
    simp only [Stmt.relabel, Stmt.sites, List.map_append, hcondition,
      Stmt.sites_relabel thenBranch]
  | .ifElse condition thenBranch (some elseBranch), p => by
    have hcondition := Expr.sites_relabel φ p none condition
    simp only [Option.map_none] at hcondition
    simp only [Stmt.relabel, Stmt.sites, List.map_append, hcondition,
      Stmt.sites_relabel thenBranch, Stmt.sites_relabel elseBranch]
  | .print e, p => Expr.sites_relabel φ p none e
  | .returnStmt _ none, _ => rfl
  | .returnStmt keyword (some value), p =>
    congrArg (List.cons _) (Expr.sites_relabel φ p none value)
  | .varDecl _ none, _ => rfl
  | .varDecl name (some value), p => by
    have hvalue := Expr.sites_relabel φ (p.begin (.varDecl name (some value))) (some name) value
    rw [begin_relabel] at hvalue
    exact congrArg (List.cons _) hvalue
  | .whileLoop condition body, p => by
    have hcondition := Expr.sites_relabel φ p none condition
    simp only [Option.map_none] at hcondition
    simp only [Stmt.relabel, Stmt.sites, List.map_append, hcondition, Stmt.sites_relabel body]
  | .unknown, _ => rfl

theorem Stmt.sitesAll_relabelAll : ∀ (ss : List Stmt) (p : Place),
    Stmt.sitesAll (p.relabel φ) (Stmt.relabelAll φ ss) =
      (Stmt.sitesAll p ss).map (Site.relabel φ)
  | [], _ => rfl
  | s :: rest, p => by
    simp only [Stmt.relabelAll, Stmt.sitesAll, List.map_append, Stmt.sites_relabel s,
      ← begin_relabel, Stmt.sitesAll_relabelAll rest]

theorem Function.sites_relabel : ∀ (f : Function) (p : Place) (form : FunctionForm),
    (f.relabel φ).sites (p.relabel φ) form = (f.sites p form).map (Site.relabel φ)
  | .mk name parameters body, p, form => by
    have hparameters := Token.parameterSites_relabel φ p form name.lexeme [] parameters
    have hbody := Stmt.sitesAll_relabelAll body (.function form name.lexeme parameters [] :: p)
    simp only [Function.relabel, Function.sites, List.map_append, ← hparameters, ← hbody]
    rfl

theorem Function.sitesAll_relabelAll : ∀ (fs : List Function) (p : Place),
    Function.sitesAll (p.relabel φ) (Function.relabelAll φ fs) =
      (Function.sitesAll p fs).map (Site.relabel φ)
  | [], _ => rfl
  | f :: rest, p => by
    simp only [Function.relabelAll, Function.sitesAll, List.map_append, Function.sites_relabel f,
      Function.sitesAll_relabelAll rest]

end

end Trees

namespace Scope

/-- The sites of a relabelled program. -/
theorem sites_relabelAll (φ : Relabelling) (program : List Stmt) :
    sites (Stmt.relabelAll φ program) = (sites program).map (Site.relabel φ) :=
  Stmt.sitesAll_relabelAll φ program []

@[simp] theorem sites_append (ss ts : List Stmt) : sites (ss ++ ts) = sites ss ++ sites ts := by
  unfold sites
  induction ss with
  | nil => rfl
  | cons s rest ih =>
    have hbegin : Place.begin [] s = [] := rfl
    simp only [List.cons_append, Stmt.sitesAll, hbegin, ih, List.append_assoc]

section Table

variable {d : Depths} {sites : List Site}

/-- The recorded depths of new references, in the order of their sites. -/
theorem depths_of_nodes (hnodup : (sites.filterMap Site.node?).Nodup)
    (hnew : ∀ node ∈ sites.filterMap Site.node?, d.depth? node = none) :
    (sites.filterMap Site.node?).map (sites.foldl Site.record d).depth? =
      sites.filterMap Site.depthOf? := by
  rw [List.map_filterMap]
  refine List.filterMap_congr fun site hsite => ?_
  unfold Site.depthOf?
  cases hnode : site.node? with
  | none => rfl
  | some node =>
    have hmem : node ∈ sites.filterMap Site.node? := List.mem_filterMap.mpr ⟨site, hsite, hnode⟩
    simp only [Option.map_some]
    rw [depth?_foldl_of_mem hnodup hsite hnode (hnew node hmem)]

/-- Relabelled sites record for relabelled references what the sites record for the references. -/
theorem depth?_foldl_relabel {d' : Depths} {φ : Relabelling}
    (hφ : ∀ node node', φ.node node = φ.node node' → node = node')
    (h : ∀ node, d'.depth? (φ.node node) = d.depth? node) (node : NodeId) :
    ((sites.map (Site.relabel φ)).foldl Site.record d').depth? (φ.node node) =
      (sites.foldl Site.record d).depth? node := by
  induction sites generalizing d d' with
  | nil => exact h node
  | cons site rest ih =>
    refine ih fun node => ?_
    simp only [Site.record, recorded?_relabel]
    cases site.recorded? with
    | none => exact h node
    | some e =>
      have hnode : (e.relabel φ).reference.node = φ.node node ↔ e.reference.node = node :=
        ⟨hφ _ _, congrArg φ.node⟩
      simp only [Option.map_some, Depths.depth?_record, hnode, h]
      rfl

end Table

section Outlines

variable {ss ts : List Stmt}

/-- The depths that are recorded for a program alone. -/
def depthsOf (program : List Stmt) : Depths := (sites program).foldl Site.record .empty

theorem nodes_sites (program : List Stmt) :
    (sites program).filterMap Site.node? = Stmt.nodesAll program :=
  Stmt.nodes_sitesAll program []

theorem depthsOf_append (ss ts : List Stmt) :
    depthsOf (ss ++ ts) = (sites ts).foldl Site.record (depthsOf ss) := by
  simp [depthsOf]

theorem depth?_depthsOf_of_not_mem {node : NodeId} (h : node ∉ Stmt.nodesAll ss) :
    (depthsOf ss).depth? node = none :=
  depth?_foldl_of_not_mem (by rwa [nodes_sites])

/-- A later program leaves the depths of other references. -/
theorem depth?_depthsOf_append {node : NodeId} (h : node ∉ Stmt.nodesAll ts) :
    (depthsOf (ss ++ ts)).depth? node = (depthsOf ss).depth? node := by
  rw [depthsOf_append]
  exact depth?_foldl_of_not_mem (by rwa [nodes_sites])

/-- Programs of one outline have sites of one outline. -/
theorem sites_of_outline (h : Stmt.relabelAll .outline ss = Stmt.relabelAll .outline ts) :
    (sites ss).map (Site.relabel .outline) = (sites ts).map (Site.relabel .outline) := by
  rw [← sites_relabelAll, h, sites_relabelAll]

/-- Programs of one outline break the same rules, on other lines. -/
theorem violations_of_outline (h : Stmt.relabelAll .outline ss = Stmt.relabelAll .outline ts) :
    ((sites ss).flatMap Site.violations).map (Diagnostic.relabel fun _ => 0) =
      ((sites ts).flatMap Site.violations).map (Diagnostic.relabel fun _ => 0) := by
  have key (sites : List Site) :
      (sites.flatMap Site.violations).map (Diagnostic.relabel fun _ => 0) =
        (sites.map (Site.relabel .outline)).flatMap Site.violations := by
    rw [List.map_flatMap, List.flatMap_map]
    exact congrArg (sites.flatMap ·) (funext fun s => (violations_relabel .outline s).symm)
  rw [key, key, sites_of_outline h]

/-- The recorded depths of the references of a program, by its sites. -/
theorem depths_sites (hss : (Stmt.nodesAll ss).Nodup) :
    (Stmt.nodesAll ss).map (depthsOf ss).depth? = (sites ss).filterMap Site.depthOf? := by
  rw [← nodes_sites] at hss ⊢
  exact depths_of_nodes hss fun _ _ => rfl

/-- References at the same sites of programs of one outline are equally deep. -/
theorem depths_of_outline (h : Stmt.relabelAll .outline ss = Stmt.relabelAll .outline ts)
    (hss : (Stmt.nodesAll ss).Nodup) (hts : (Stmt.nodesAll ts).Nodup) :
    (Stmt.nodesAll ss).map (depthsOf ss).depth? = (Stmt.nodesAll ts).map (depthsOf ts).depth? := by
  have key (sites : List Site) :
      (sites.map (Site.relabel .outline)).filterMap Site.depthOf? =
        sites.filterMap Site.depthOf? := by
    rw [List.filterMap_map]
    exact congrArg (List.filterMap · _) (funext fun s => depthOf_relabel .outline s)
  rw [depths_sites hss, depths_sites hts, ← key, sites_of_outline h, key]

/-- Programs of one outline have the same recorded depths, in the same order. -/
theorem entries_of_outline (h : Stmt.relabelAll .outline ss = Stmt.relabelAll .outline ts)
    (hss : (Stmt.nodesAll ss).Nodup) (hts : (Stmt.nodesAll ts).Nodup) :
    (depthsOf ss).entries.map DepthEntry.depth = (depthsOf ts).entries.map DepthEntry.depth := by
  have key (program : List Stmt) (hnodup : (Stmt.nodesAll program).Nodup) :
      (depthsOf program).entries.map DepthEntry.depth =
        ((sites program).map (Site.relabel .outline)).filterMap
          fun s => s.depthOf?.getD none := by
    rw [← nodes_sites] at hnodup
    rw [depthsOf, entries_foldl_sites hnodup fun _ _ => rfl, List.filterMap_map]
    simp only [Depths.empty, List.nil_append, List.map_filterMap]
    refine List.filterMap_congr fun s _ => ?_
    rw [Function.comp, depthOf_relabel, Site.depthOf?]
    cases hrecorded : s.recorded? with
    | none => cases s.node? <;> rfl
    | some e => rw [node?_of_recorded? hrecorded]; rfl
  rw [key ss hss, key ts hts, sites_of_outline h]

end Outlines

end Scope
end LoxLang
