import LoxLang.Proofs.Relabelling.Sites
import LoxLang.Proofs.Renaming.Scopes

/-!
# The sites of a renamed program

The analysis of scopes looks at the sites of a program only.  Each site of a program has one in the
renamed program, around which the same regions lie and bind the same names but for the new one,
which those that are renamed bind in place of the old.

A reference that finds the old name in a renamed region finds the new name there, and in no region
further in, because no other name is spelled like it.  A reference that finds the old name elsewhere
passes renamed regions, which do not bind that name any more, and no others that it did not pass
before.

**Results.**
* `Place.Renamed.distance?`: a renamed reference finds its name in the same region.
* `violations_renamed`, `depthOf?_renamed`: a renamed site breaks no rule if the site breaks none,
  and its reference is as deep.
* `sites_renamed`: the sites of a renamed program.
-/

namespace LoxLang
namespace Scope

section Defs

variable (ν : Renaming)

/-- Whether statements declare the same names, but for those that are renamed. -/
def Declare (mark : Bool) (ss ss' : List Stmt) : Prop :=
  List.Forall₂ (fun s s' => s.declared? ≠ some ν.new ∧
    s'.declared? = s.declared?.map (ν.name mark)) ss ss'

/-- Whether a region is another one in which the variables of the old name may be renamed.  The
regions of a class body are not. -/
inductive Region.Renamed : Bool → Region → Region → Prop
  | block {mark : Bool} {begun begun' : List Stmt} :
    Declare ν mark begun begun' → Renamed mark (.block begun) (.block begun')
  | function {mark : Bool} {form : FunctionForm} {name : String} {parameters : List Token}
    {begun begun' : List Stmt} :
    (∀ t ∈ parameters, t.lexeme ≠ ν.new) → Declare ν mark begun begun' →
    Renamed mark (.function form name parameters begun)
      (.function form name (parameters.map (ν.token mark)) begun')
  | superclass : Renamed false .superclass .superclass
  | classBody {parent parent' : Option Reference} :
    parent'.isSome = parent.isSome → Renamed false (.classBody parent) (.classBody parent')

/-- Whether the regions around a place are those around another one, renamed as the marks say. -/
inductive Place.Renamed : List Bool → Place → Place → Prop
  | top : Renamed [] [] []
  | inside {mark : Bool} {marks : List Bool} {region region' : Region} {p p' : Place} :
    region.Renamed ν mark region' → Renamed marks p p' →
    Renamed (mark :: marks) (region :: p) (region' :: p')

/-- Whether the same stands at two sites, renamed as the marks say. -/
inductive Item.Renamed (marks : List Bool) : Item → Item → Prop
  | name {t : Token} :
    t.lexeme ≠ ν.new → Renamed marks (.name t) (.name (ν.token (innerMark marks) t))
  | reference (use : Use) {r : Reference} :
    r.name ≠ ν.new → Renamed marks (.reference use r) (.reference use (ν.reference marks r))
  | parent {t : Token} {r : Reference} :
    t.lexeme ≠ ν.new → r.name ≠ ν.new →
    Renamed marks (.parent t r) (.parent t (ν.reference marks r))
  | returns (keyword : Token) (hasValue : Bool) :
    Renamed marks (.returns keyword hasValue) (.returns keyword hasValue)

/-- Whether a site is another one, renamed. -/
structure Site.Renamed (s s' : Site) : Prop where
  intro ::
  exists_marks : ∃ marks, s.place.Renamed ν marks s'.place ∧
    (∀ t ∈ s.valueOf, t.lexeme ≠ ν.new) ∧
    s'.valueOf = s.valueOf.map (ν.token (innerMark marks)) ∧ s.item.Renamed ν marks s'.item

/-- The names that a region binds. -/
def Region.names : Region → List String
  | block begun => begun.filterMap Stmt.declared?
  | function _ _ parameters begun =>
    parameters.map Token.lexeme ++ begun.filterMap Stmt.declared?
  | superclass => ["super"]
  | classBody _ => ["this"]

end Defs

section Regions

variable {ν : Renaming} {mark : Bool} {region region' : Region}

theorem Region.binds_iff (region : Region) (name : String) :
    region.binds name = true ↔ name ∈ region.names := by
  cases region <;> simp [Region.binds, Region.names]

theorem Declare.names {ss ss' : List Stmt} (h : Declare ν mark ss ss') :
    ss'.filterMap Stmt.declared? = (ss.filterMap Stmt.declared?).map (ν.name mark) ∧
      ν.new ∉ ss.filterMap Stmt.declared? := by
  induction h with
  | nil => simp
  | @cons s s' rest rest' hs _ ih =>
    obtain ⟨hfresh, hdeclared⟩ := hs
    cases hd : s.declared? with
    | none =>
      rw [hd] at hdeclared
      rw [List.filterMap_cons_none hd, List.filterMap_cons_none hdeclared]
      exact ih
    | some name =>
      rw [hd] at hdeclared hfresh
      rw [List.filterMap_cons_some hd, List.filterMap_cons_some hdeclared, ih.1]
      refine ⟨rfl, fun hmem => ?_⟩
      rcases List.mem_cons.mp hmem with rfl | hmem
      · exact hfresh rfl
      · exact ih.2 hmem

/-- A renamed region binds the renamed names, and did not bind the new one before. -/
theorem Region.Renamed.names (h : region.Renamed ν mark region') (hν : ν.Proper) :
    region'.names = region.names.map (ν.name mark) ∧ ν.new ∉ region.names := by
  cases h with
  | block hbegun => exact hbegun.names
  | function hparameters hbegun =>
    obtain ⟨hnames, hfresh⟩ := hbegun.names
    refine ⟨by simp [Region.names, hnames, Function.comp_def], ?_⟩
    rw [Region.names, List.mem_append, not_or]
    refine ⟨fun hmem => ?_, hfresh⟩
    obtain ⟨t, ht, hname⟩ := List.mem_map.mp hmem
    exact hparameters t ht hname
  | superclass => simp [Region.names, hν.new.2]
  | classBody _ => simp [Region.names, hν.new.1]

/-- A renamed name is bound where the name is bound. -/
theorem Region.Renamed.binds (h : region.Renamed ν mark region') (hν : ν.Proper) {name : String}
    (hname : name ≠ ν.new) : region'.binds (ν.name mark name) = region.binds name := by
  obtain ⟨hnames, hfresh⟩ := h.names hν
  rw [Bool.eq_iff_iff, Region.binds_iff, Region.binds_iff, hnames, List.mem_map]
  constructor
  · rintro ⟨other, hother, heq⟩
    have hne : other ≠ ν.new := fun h => hfresh (h ▸ hother)
    rwa [← ν.eq_of_name_eq hne hname heq]
  · exact fun hmem => ⟨name, hmem, rfl⟩

/-- A name that is not bound is not bound either when it is renamed for another region. -/
theorem Region.Renamed.not_binds (h : region.Renamed ν mark region') (hν : ν.Proper)
    {name : String} (hname : name ≠ ν.new) (hregion : region.binds name = false) (other : Bool) :
    region'.binds (ν.name other name) = false := by
  obtain ⟨hnames, hfresh⟩ := h.names hν
  rw [Bool.eq_false_iff, ne_eq, Region.binds_iff] at hregion ⊢
  rw [hnames, List.mem_map]
  rintro ⟨bound, hbound, heq⟩
  have hne : bound ≠ ν.new := fun h => hfresh (h ▸ hbound)
  rw [ν.eq_of_name_eq hne hname heq] at hbound
  exact hregion hbound

end Regions

namespace Place.Renamed

variable {ν : Renaming} {marks : List Bool} {p p' : Place}

/-- A reference finds its name, renamed for the region where it finds it, in the same region. -/
theorem distance?_name (h : p.Renamed ν marks p') (hν : ν.Proper) {name : String}
    (hname : name ≠ ν.new) :
    p'.distance? (ν.name (match p.distance? name with
      | some distance => marks[distance]?.getD false
      | none => false) name) = p.distance? name := by
  induction h with
  | top => rfl
  | @inside mark marks region region' p p' hregion _ ih =>
    simp only [Place.distance?, List.findIdx?_cons] at ih ⊢
    cases hbinds : region.binds name with
    | true => simp [hregion.binds hν hname, hbinds]
    | false =>
      simp only [Bool.false_eq_true, if_false]
      cases hd : p.findIdx? fun region => region.binds name with
      | none =>
        have hnone := hregion.not_binds hν hname hbinds false
        rw [hd] at ih
        simp only [Renaming.name_false] at ih hnone ⊢
        simp [hnone, ih]
      | some distance =>
        rw [hd] at ih
        simp [hregion.not_binds hν hname hbinds, ih]

/-- A renamed reference finds its name in the same region. -/
theorem distance? (h : p.Renamed ν marks p') (hν : ν.Proper) {r : Reference}
    (hname : r.name ≠ ν.new)
    (hdepth : ν.depths.depth? r.node = (p.distance? r.name).map fun d : Nat => (d : Int)) :
    p'.distance? (ν.reference marks r).name = p.distance? r.name := by
  rw [Renaming.name_reference, Renaming.reaches, hdepth]
  have hdistance := h.distance?_name hν hname
  cases hd : p.distance? r.name with
  | none => simpa [hd] using hdistance
  | some distance => simpa [hd] using hdistance

/-- The innermost region declares a renamed name if it declared the name. -/
theorem declares (h : p.Renamed ν marks p') (hν : ν.Proper) {name : String}
    (hname : name ≠ ν.new) : p'.declares (ν.name (innerMark marks) name) = p.declares name := by
  cases h with
  | top => rfl
  | inside hregion _ => simpa [Place.declares, innerMark] using hregion.binds hν hname

theorem function? (h : p.Renamed ν marks p') : p'.function? = p.function? := by
  induction h with
  | top => rfl
  | inside hregion _ ih => cases hregion <;> first | rfl | exact ih

/-- The nearest class has a superclass in both places or in neither. -/
theorem class? (h : p.Renamed ν marks p') :
    p'.class?.map Option.isSome = p.class?.map Option.isSome := by
  induction h with
  | top => rfl
  | inside hregion _ ih =>
    cases hregion with
    | classBody hparent => exact congrArg some hparent
    | _ => exact ih

theorem eq_nil_iff (h : p.Renamed ν marks p') : p' = [] ↔ p = [] := by
  cases h <;> simp

theorem classBody (h : p.Renamed ν marks p') (parent : Option Reference) :
    (p.classBody parent).Renamed ν (classMarks marks parent)
      (p'.classBody (parent.map (ν.reference marks))) := by
  cases parent with
  | none => exact .inside (.classBody rfl) h
  | some r => exact .inside (.classBody rfl) (.inside .superclass h)

/-- A statement that is begun declares its renamed name. -/
theorem begin {s s' : Stmt} (h : p.Renamed ν marks p') (hfresh : s.declared? ≠ some ν.new)
    (hs : s'.declared? = s.declared?.map (ν.name (innerMark marks))) :
    (p.begin s).Renamed ν marks (p'.begin s') := by
  cases h with
  | top => exact .top
  | inside hregion hp =>
    have hbegun {mark : Bool} {begun begun' : List Stmt} (hbegun : Declare ν mark begun begun')
        (hs : s'.declared? = s.declared?.map (ν.name mark)) :
        Declare ν mark (begun ++ [s]) (begun' ++ [s']) :=
      List.rel_append hbegun (.cons ⟨hfresh, hs⟩ .nil)
    cases hregion with
    | block h => exact .inside (.block (hbegun h hs)) hp
    | function hparameters h => exact .inside (.function hparameters (hbegun h hs)) hp
    | superclass => exact .inside .superclass hp
    | classBody hparent => exact .inside (.classBody hparent) hp

end Place.Renamed

section Judgements

variable {ν : Renaming} {s s' : Site} {ss ss' ts ts' : List Site}

/-- Sites one after another. -/
theorem renamed_append (h : List.Forall₂ (Site.Renamed ν) ss ss')
    (h' : List.Forall₂ (Site.Renamed ν) ts ts') :
    List.Forall₂ (Site.Renamed ν) (ss ++ ts) (ss' ++ ts') :=
  List.rel_append h h'

/-- A renamed site breaks no rule if the site breaks none. -/
theorem violations_renamed (h : s.Renamed ν s') (hν : ν.Proper) (hs : s.violations = []) :
    s'.violations = [] := by
  obtain ⟨place, valueOf, item⟩ := s
  obtain ⟨place', valueOf', item'⟩ := s'
  obtain ⟨⟨marks, hplace, hfresh, hvalue, hitem⟩⟩ := h
  dsimp only at hplace hfresh hvalue hitem
  have hclass := hplace.class?
  cases hitem with
  | name hname =>
    simp only [Site.violations, Renaming.lexeme_token, hplace.declares hν hname] at hs ⊢
    split at hs
    · cases hs
    · rename_i hdeclares
      rw [if_neg hdeclares]
  | @reference use r hname =>
    cases use with
    | assign => rfl
    | read =>
      have hnone : ¬ (place ≠ [] ∧ valueOf.map Token.lexeme = some r.name) := by
        intro hread
        simp [Site.violations, hread] at hs
      have hnone' : ¬ (place' ≠ [] ∧
          valueOf'.map Token.lexeme = some (ν.reference marks r).name) := by
        rintro ⟨hinside, hread⟩
        rw [ne_eq, hplace.eq_nil_iff] at hinside
        refine hnone ⟨hinside, ?_⟩
        cases valueOf with
        | none => simp [hvalue] at hread
        | some t =>
          have heq : ν.name (innerMark marks) t.lexeme =
              ν.name (ν.reaches marks r) r.name := by simpa [hvalue] using hread
          exact congrArg some (ν.eq_of_name_eq (hfresh t rfl) hname heq)
      simp only [Site.violations, if_neg hnone']
    | receiver =>
      simp only [Site.violations] at hs ⊢
      cases hp : place.class? with
      | none => simp [hp] at hs
      | some parent =>
        rw [hp] at hclass
        obtain ⟨parent', hp', -⟩ := Option.map_eq_some_iff.mp hclass
        rw [hp']
    | superclass =>
      simp only [Site.violations] at hs ⊢
      rcases hp : place.class? with _ | _ | parent
      · simp [hp] at hs
      · simp [hp] at hs
      · rw [hp] at hclass
        obtain ⟨parent', hp', hsome⟩ := Option.map_eq_some_iff.mp hclass
        obtain ⟨r', rfl⟩ := Option.isSome_iff_exists.mp hsome
        rw [hp']
  | @parent t r ht hr =>
    have hne : r.name ≠ t.lexeme := by
      intro heq
      simp [Site.violations, heq] at hs
    have hne' : (ν.reference marks r).name ≠ t.lexeme := by
      intro heq
      rw [Renaming.name_reference, ← ν.name_false t.lexeme] at heq
      exact hne (ν.eq_of_name_eq hr ht heq)
    simp only [Site.violations, if_neg hne']
  | returns keyword hasValue =>
    simp only [Site.violations, hplace.function?] at hs ⊢
    exact hs

/-- The reference of a renamed site is as deep. -/
theorem depthOf?_renamed (h : s.Renamed ν s') (hν : ν.Proper)
    (hdepth : ∀ use r, s.item = .reference use r →
      ν.depths.depth? r.node = (s.place.distance? r.name).map fun d : Nat => (d : Int)) :
    s'.depthOf? = s.depthOf? := by
  obtain ⟨place, valueOf, item⟩ := s
  obtain ⟨place', valueOf', item'⟩ := s'
  obtain ⟨⟨marks, hplace, -, -, hitem⟩⟩ := h
  dsimp only at hplace hitem hdepth
  cases hitem with
  | @reference use r hname =>
    have hdistance := hplace.distance? hν hname (hdepth use r rfl)
    have hnone : place'.class? = none ↔ place.class? = none := by
      have hclass := hplace.class?
      cases hp : place.class? <;> cases hp' : place'.class? <;> simp [hp, hp'] at hclass ⊢
    unfold Site.depthOf? Site.recorded? Site.node?
    simp only [hnone, Option.map_some, hdistance]
    by_cases houtside : use = .receiver ∧ place.class? = none
    · simp [houtside]
    · simp [houtside, Function.comp_def]
  | _ => rfl

theorem violations_of_renamed (h : List.Forall₂ (Site.Renamed ν) ss ss') (hν : ν.Proper)
    (hrules : ∀ s ∈ ss, s.violations = []) : ∀ s ∈ ss', s.violations = [] := by
  induction h with
  | nil => simp
  | cons hsite _ ih =>
    obtain ⟨hfirst, hrest⟩ := List.forall_mem_cons.mp hrules
    exact List.forall_mem_cons.mpr ⟨violations_renamed hsite hν hfirst, ih hrest⟩

theorem depths_of_renamed (h : List.Forall₂ (Site.Renamed ν) ss ss') (hν : ν.Proper)
    (hdepth : ∀ s ∈ ss, ∀ use r, s.item = .reference use r →
      ν.depths.depth? r.node = (s.place.distance? r.name).map fun d : Nat => (d : Int)) :
    ss'.filterMap Site.depthOf? = ss.filterMap Site.depthOf? := by
  induction h with
  | nil => rfl
  | cons hsite _ ih =>
    obtain ⟨hfirst, hrest⟩ := List.forall_mem_cons.mp hdepth
    rw [List.filterMap_cons, List.filterMap_cons, depthOf?_renamed hsite hν hfirst, ih hrest]

end Judgements

end Scope

open Scope

section Trees

variable {ν : Renaming} {marks : List Bool} {p p' : Place}

/-- What lies in the value of no variable has no name to spare. -/
theorem spares_none : ∀ t ∈ (none : Option Token), t.lexeme ≠ ν.new := by simp

/-- A site that lies in the value of no variable. -/
theorem site_renamed (hp : p.Renamed ν marks p') {item item' : Item}
    (hitem : item.Renamed ν marks item') : Site.Renamed ν ⟨p, none, item⟩ ⟨p', none, item'⟩ :=
  ⟨marks, hp, spares_none, rfl, hitem⟩

theorem Renaming.declared?_ne {s : Stmt} (h : s.MadeOf ν.Spares) : s.declared? ≠ some ν.new := by
  intro hs
  cases s with
  | classDecl name _ _ => exact ne_of_at h.1 (Option.some.inj hs)
  | funDecl f =>
    obtain ⟨name, parameters, body⟩ := f
    exact ne_of_at h.1 (Option.some.inj hs)
  | varDecl name _ => exact ne_of_at h.1 (Option.some.inj hs)
  | _ => cases hs

mutual

theorem Expr.sites_rename (hp : p.Renamed ν marks p') (hν : ν.Proper) {v : Option Token}
    (hv : ∀ t ∈ v, t.lexeme ≠ ν.new) : ∀ {e : Expr}, e.MadeOf ν.Spares →
      List.Forall₂ (Site.Renamed ν) (e.sites p v)
        ((e.rename ν marks).sites p' (v.map (ν.token (innerMark marks))))
  | .assign target value, ⟨htarget, hvalue⟩ => by
    simp only [Expr.rename, Expr.sites]
    exact renamed_append (Expr.sites_rename hp hν hv hvalue)
      (.cons ⟨marks, hp, hv, rfl, .reference .assign (Renaming.ne_of_at htarget)⟩ .nil)
  | .binary left _ right, ⟨hleft, hright⟩ => by
    simp only [Expr.rename, Expr.sites]
    exact renamed_append (Expr.sites_rename hp hν hv hleft) (Expr.sites_rename hp hν hv hright)
  | .call callee _ arguments, ⟨hcallee, harguments⟩ => by
    simp only [Expr.rename, Expr.sites]
    exact renamed_append (Expr.sites_rename hp hν hv hcallee)
      (Expr.sitesAll_rename hp hν hv harguments)
  | .get object _, h => by
    simp only [Expr.rename, Expr.sites]
    exact Expr.sites_rename hp hν hv (e := object) h
  | .grouping inner, h => by
    simp only [Expr.rename, Expr.sites]
    exact Expr.sites_rename hp hν hv (e := inner) h
  | .literal _, _ => .nil
  | .logical left _ right, ⟨hleft, hright⟩ => by
    simp only [Expr.rename, Expr.sites]
    exact renamed_append (Expr.sites_rename hp hν hv hleft) (Expr.sites_rename hp hν hv hright)
  | .set object _ value, ⟨hobject, hvalue⟩ => by
    simp only [Expr.rename, Expr.sites]
    exact renamed_append (Expr.sites_rename hp hν hv hvalue) (Expr.sites_rename hp hν hv hobject)
  | .superMethod keyword _, h => by
    have hname : keyword.name = "super" := h.2.proper.superWord h.1
    rw [Expr.rename, ν.keyword_eq marks (hname ▸ hν.old.2.symm)]
    exact .cons ⟨marks, hp, hv, rfl, .reference .superclass (hname ▸ hν.new.2.symm)⟩ .nil
  | .receiver keyword, h => by
    have hname : keyword.name = "this" := h.2.proper.thisWord h.1
    rw [Expr.rename, ν.keyword_eq marks (hname ▸ hν.old.1.symm)]
    exact .cons ⟨marks, hp, hv, rfl, .reference .receiver (hname ▸ hν.new.1.symm)⟩ .nil
  | .unary _ operand, h => by
    simp only [Expr.rename, Expr.sites]
    exact Expr.sites_rename hp hν hv (e := operand) h
  | .variable _, h => .cons ⟨marks, hp, hv, rfl, .reference .read (Renaming.ne_of_at h)⟩ .nil

theorem Expr.sitesAll_rename (hp : p.Renamed ν marks p') (hν : ν.Proper) {v : Option Token}
    (hv : ∀ t ∈ v, t.lexeme ≠ ν.new) : ∀ {es : List Expr}, Expr.MadeOfAll ν.Spares es →
      List.Forall₂ (Site.Renamed ν) (Expr.sitesAll p v es)
        (Expr.sitesAll p' (v.map (ν.token (innerMark marks))) (Expr.renameAll ν marks es))
  | [], _ => .nil
  | _ :: _, ⟨he, hrest⟩ => by
    simp only [Expr.renameAll, Expr.sitesAll]
    exact renamed_append (Expr.sites_rename hp hν hv he) (Expr.sitesAll_rename hp hν hv hrest)

end

theorem Reference.parentSites_rename (hp : p.Renamed ν marks p') {name : Token}
    {parent : Option Reference} (hname : name.lexeme ≠ ν.new)
    (hparent : ∀ r ∈ parent, r.token.At ν.Spares .identifier) :
    List.Forall₂ (Site.Renamed ν) (Reference.parentSites p name parent)
      (Reference.parentSites p' name (parent.map (ν.reference marks))) := by
  cases parent with
  | none => exact .nil
  | some r =>
    have hr : r.name ≠ ν.new := Renaming.ne_of_at (hparent r rfl)
    exact .cons (site_renamed hp (.parent hname hr))
      (.cons (site_renamed hp (.reference .read hr)) .nil)

/-- The parameters of a function are in one scope with what is behind them. -/
theorem Token.parameterSites_rename (hp : p.Renamed ν marks p') (mark : Bool)
    (form : FunctionForm) (name : String) {parameters more : List Token}
    (hparameters : ∀ t ∈ parameters ++ more, t.lexeme ≠ ν.new) :
    List.Forall₂ (Site.Renamed ν) (Token.parameterSites p form name parameters more)
      (Token.parameterSites p' form name (parameters.map (ν.token mark))
        (more.map (ν.token mark))) := by
  induction more generalizing parameters with
  | nil => exact .nil
  | cons t rest ih =>
    have hrest := @ih (parameters ++ [t]) (by simpa using hparameters)
    rw [List.map_append] at hrest
    have hinside : Place.Renamed ν (mark :: marks) (.function form name parameters [] :: p)
        (.function form name (parameters.map (ν.token mark)) [] :: p') :=
      .inside (.function (fun u hu => hparameters u (List.mem_append_left _ hu)) .nil) hp
    exact .cons (site_renamed hinside (.name (hparameters t (by simp)))) hrest

mutual

theorem Stmt.sites_rename (hν : ν.Proper) :
    ∀ {s : Stmt} {marks : List Bool} {p p' : Place} (χ : Choice), p.Renamed ν marks p' →
      s.MadeOf ν.Spares → s.Distinct → ν.Permits marks s →
      List.Forall₂ (Site.Renamed ν) (s.sites p) ((s.rename ν marks χ).sites p')
  | .block body, marks, p, p', χ, hp, hmade, ⟨hnodup, hbody⟩, _ => by
    have hnodup : (([] : List Token).map Token.lexeme ++ body.filterMap Stmt.declared?).Nodup :=
      hnodup
    simp only [Stmt.rename, Stmt.sites]
    exact Stmt.sitesAll_rename hν χ 0 (.inside (.block .nil) hp) hmade hbody
      fun s hs => Renaming.permits_of_renames hnodup (χ []) marks hs
  | .classDecl name parent members, marks, p, p', χ, hp, ⟨hname, hparent, hmembers⟩, hdistinct,
      hpermits => by
    have hfresh := Renaming.ne_of_at hname
    have hbehind := hp.begin
      (Renaming.declared?_ne (s := .classDecl name parent members) ⟨hname, hparent, hmembers⟩)
      (Stmt.declared?_rename hpermits χ)
    have hsite : Site.Renamed ν ⟨p, none, .name name⟩ ⟨p', none, .name name⟩ := by
      refine site_renamed hp ?_
      have hitem : Item.Renamed ν marks _ _ := .name hfresh
      rwa [Renaming.token_of_permits hpermits rfl rfl] at hitem
    simp only [Stmt.rename, Stmt.sites] at hbehind ⊢
    exact .cons hsite (renamed_append (Reference.parentSites_rename hbehind hfresh hparent)
      (Function.sitesAll_rename hν χ 0 (hbehind.classBody parent) hmembers hdistinct))
  | .expression e, marks, p, p', χ, hp, hmade, _, _ => by
    simp only [Stmt.rename, Stmt.sites]
    exact Expr.sites_rename hp hν (v := none) spares_none (e := e) hmade
  | .funDecl f, marks, p, p', χ, hp, hmade, hdistinct, hpermits => by
    have hbehind := hp.begin (Renaming.declared?_ne (s := .funDecl f) hmade)
      (Stmt.declared?_rename hpermits χ)
    have hsite : Site.Renamed ν ⟨p, none, .name f.token⟩ ⟨p', none, .name f.token⟩ := by
      refine site_renamed hp ?_
      have hfresh : f.token.lexeme ≠ ν.new := by
        obtain ⟨name, parameters, body⟩ := f
        exact Renaming.ne_of_at hmade.1
      have hitem : Item.Renamed ν marks _ _ := .name hfresh
      rwa [Renaming.token_of_permits hpermits rfl rfl] at hitem
    simp only [Stmt.rename, Stmt.sites, Function.token_rename] at hbehind ⊢
    exact .cons hsite (Function.sites_rename hν χ .function hbehind hmade hdistinct)
  | .ifElse condition thenBranch none, marks, p, p', χ, hp, ⟨hcondition, hthen, hd⟩, hdistinct,
      _ => by
    simp only [Stmt.rename, Stmt.sites]
    exact renamed_append (Expr.sites_rename hp hν (v := none) spares_none hcondition)
      (Stmt.sites_rename hν _ hp hthen hdistinct (Renaming.permits_of_none hd))
  | .ifElse condition thenBranch (some elseBranch), marks, p, p', χ, hp,
      ⟨hcondition, ⟨hthen, hd⟩, helse, hd'⟩, ⟨hdistinct, hdistinct'⟩, _ => by
    simp only [Stmt.rename, Stmt.sites]
    exact renamed_append (Expr.sites_rename hp hν (v := none) spares_none hcondition)
      (renamed_append
        (Stmt.sites_rename hν _ hp hthen hdistinct (Renaming.permits_of_none hd))
        (Stmt.sites_rename hν _ hp helse hdistinct' (Renaming.permits_of_none hd')))
  | .print e, marks, p, p', χ, hp, hmade, _, _ => by
    simp only [Stmt.rename, Stmt.sites]
    exact Expr.sites_rename hp hν (v := none) spares_none (e := e) hmade
  | .returnStmt keyword none, marks, p, p', χ, hp, _, _, _ => by
    simp only [Stmt.rename, Option.map_none, Stmt.sites]
    exact .cons (site_renamed hp (.returns keyword false)) .nil
  | .returnStmt keyword (some value), marks, p, p', χ, hp, hmade, _, _ => by
    simp only [Stmt.rename, Option.map_some, Stmt.sites]
    exact .cons (site_renamed hp (.returns keyword true))
      (Expr.sites_rename hp hν (v := none) spares_none (e := value) hmade)
  | .varDecl name none, marks, p, p', χ, hp, hmade, _, _ => by
    simp only [Stmt.rename, Option.map_none, Stmt.sites]
    exact .cons (site_renamed hp (.name (Renaming.ne_of_at hmade.1))) .nil
  | .varDecl name (some value), marks, p, p', χ, hp, ⟨hname, hvalue⟩, _, hpermits => by
    have hfresh := Renaming.ne_of_at hname
    have hbehind := hp.begin
      (Renaming.declared?_ne (s := .varDecl name (some value)) ⟨hname, hvalue⟩)
      (Stmt.declared?_rename hpermits χ)
    simp only [Stmt.rename, Option.map_some, Stmt.sites] at hbehind ⊢
    exact .cons (site_renamed hp (.name hfresh))
      (Expr.sites_rename hbehind hν (v := some name) (by simpa using hfresh) (e := value) hvalue)
  | .whileLoop condition body, marks, p, p', χ, hp, ⟨hcondition, hbody, hd⟩, hdistinct, _ => by
    simp only [Stmt.rename, Stmt.sites]
    exact renamed_append (Expr.sites_rename hp hν (v := none) spares_none hcondition)
      (Stmt.sites_rename hν χ hp hbody hdistinct (Renaming.permits_of_none hd))
  | .unknown, _, _, _, _, _, hmade, _, _ => hmade.elim

theorem Stmt.sitesAll_rename (hν : ν.Proper) :
    ∀ {ss : List Stmt} {marks : List Bool} {p p' : Place} (χ : Choice) (i : Nat),
      p.Renamed ν marks p' → Stmt.MadeOfAll ν.Spares ss → Stmt.DistinctAll ss →
      (∀ s ∈ ss, ν.Permits marks s) →
      List.Forall₂ (Site.Renamed ν) (Stmt.sitesAll p ss)
        (Stmt.sitesAll p' (Stmt.renameAll ν marks χ i ss))
  | [], _, _, _, _, _, _, _, _, _ => .nil
  | s :: rest, marks, p, p', χ, i, hp, ⟨hs, hrest⟩, ⟨hdistinct, hdistinct'⟩, hpermits => by
    obtain ⟨hpermit, hpermits⟩ := List.forall_mem_cons.mp hpermits
    simp only [Stmt.renameAll, Stmt.sitesAll]
    exact renamed_append (Stmt.sites_rename hν _ hp hs hdistinct hpermit)
      (Stmt.sitesAll_rename hν χ (i + 1)
        (hp.begin (Renaming.declared?_ne hs) (Stmt.declared?_rename hpermit _)) hrest hdistinct'
        hpermits)

theorem Function.sites_rename (hν : ν.Proper) :
    ∀ {f : Function} {marks : List Bool} {p p' : Place} (χ : Choice) (form : FunctionForm),
      p.Renamed ν marks p' → f.MadeOf ν.Spares → f.Distinct →
      List.Forall₂ (Site.Renamed ν) (f.sites p form) ((f.rename ν marks χ).sites p' form)
  | .mk name parameters body, marks, p, p', χ, form, hp, ⟨_, hparameters, hbody⟩,
      ⟨hnodup, hdistinct⟩ => by
    have hfresh : ∀ t ∈ parameters, t.lexeme ≠ ν.new :=
      fun t ht => Renaming.ne_of_at (hparameters t ht)
    simp only [Function.rename, Function.sites]
    exact renamed_append (Token.parameterSites_rename hp _ form name.lexeme (by simpa using hfresh))
      (Stmt.sitesAll_rename hν χ 0 (.inside (.function hfresh .nil) hp) hbody hdistinct
        fun s hs => Renaming.permits_of_renames hnodup (χ []) marks hs)

theorem Function.sitesAll_rename (hν : ν.Proper) :
    ∀ {fs : List Function} {marks : List Bool} {p p' : Place} (χ : Choice) (i : Nat),
      p.Renamed ν marks p' → Function.MadeOfAll ν.Spares fs → Function.DistinctAll fs →
      List.Forall₂ (Site.Renamed ν) (Function.sitesAll p fs)
        (Function.sitesAll p' (Function.renameAll ν marks χ i fs))
  | [], _, _, _, _, _, _, _, _ => .nil
  | f :: rest, marks, p, p', χ, i, hp, ⟨hf, hrest⟩, ⟨hdistinct, hdistinct'⟩ => by
    simp only [Function.renameAll, Function.sitesAll]
    exact renamed_append (Function.sites_rename hν _ .method hp hf hdistinct)
      (Function.sitesAll_rename hν χ (i + 1) hp hrest hdistinct')

end

end Trees

namespace Scope

section Programs

variable {ν : Renaming} {program : List Stmt}

/-- The sites of a renamed program are the renamed sites of the program. -/
theorem sites_renamed (hν : ν.Proper) (χ : Choice) (hmade : Stmt.MadeOfAll ν.Spares program)
    (hdistinct : Stmt.DistinctAll program) :
    List.Forall₂ (Site.Renamed ν) (sites program) (sites (Stmt.renameAll ν [] χ 0 program)) :=
  Stmt.sitesAll_rename hν χ 0 .top hmade hdistinct fun _ _ => nofun

/-- A renamed program breaks no rule if the program breaks none. -/
theorem violations_rename (hν : ν.Proper) (χ : Choice) (hmade : Stmt.MadeOfAll ν.Spares program)
    (hdistinct : Stmt.DistinctAll program) (hrules : (sites program).flatMap Site.violations = []) :
    (sites (Stmt.renameAll ν [] χ 0 program)).flatMap Site.violations = [] := by
  rw [List.flatMap_eq_nil_iff] at hrules ⊢
  exact violations_of_renamed (sites_renamed hν χ hmade hdistinct) hν hrules

/-- The recorded depth of a reference, by its site. -/
theorem depth?_of_site (hproper : Stmt.MadeOfAll Token.Proper program)
    (hnodup : (Stmt.nodesAll program).Nodup) {s : Site} (hs : s ∈ sites program) {use : Use}
    {r : Reference} (hitem : s.item = .reference use r) :
    (depthsOf program).depth? r.node =
      (s.place.distance? r.name).map fun d : Nat => (d : Int) := by
  have hnode : s.node? = some r.node := by rw [Site.node?, hitem]
  rw [← nodes_sites] at hnodup
  rw [depthsOf, depth?_foldl_of_mem hnodup hs hnode rfl]
  exact recorded?_of_proper (proper_sites hproper s hs) hitem

/-- The references of a renamed program are as deep as those of the program. -/
theorem depths_rename (hν : ν.Proper) (χ : Choice) (hmade : Stmt.MadeOfAll ν.Spares program)
    (hproper : Stmt.MadeOfAll Token.Proper program) (hdistinct : Stmt.DistinctAll program)
    (hdepths : ν.depths = depthsOf program) (hnodup : (Stmt.nodesAll program).Nodup)
    (hnodup' : (Stmt.nodesAll (Stmt.renameAll ν [] χ 0 program)).Nodup) :
    let renamed := Stmt.renameAll ν [] χ 0 program
    (Stmt.nodesAll renamed).map (depthsOf renamed).depth? =
      (Stmt.nodesAll program).map (depthsOf program).depth? := by
  intro renamed
  rw [depths_sites hnodup', depths_sites hnodup]
  exact depths_of_renamed (sites_renamed hν χ hmade hdistinct) hν fun s hs use r hitem =>
    hdepths ▸ depth?_of_site hproper hnodup hs hitem

end Programs

end Scope
end LoxLang
