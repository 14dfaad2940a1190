import LoxLang.Proofs.Parser.Numbering
import LoxLang.Proofs.Scope.Visits
import Mathlib

/-!
# The rules of scope

**Depths.** The recorded depth of a reference is the number of regions from it out to the
innermost one that binds its name, where a region binds only what begins in front of the
reference.  A reference that no region binds has no recorded depth.

**Reports.** What the analysis reports are the violations of the rules at the sites of the program,
each one by its place alone: no violation adds another or hides one.

Both hold of every tree that the parser returns, whether or not it reports errors.

**Results.**
* `depths_of_parsed`: the recorded depths of what is read from tokens.
* `reports_of_parsed`: the reports on what is read from tokens.
-/

namespace LoxLang
namespace Scope

section Table

variable {d : Depths} {site : Site} {node : NodeId}

/-- What is recorded for a node behind a site. -/
theorem depth?_record_site (d : Depths) (site : Site) (node : NodeId) :
    (Site.record d site).depth? node =
      match site.recorded? with
      | some e => if e.reference.node = node then some e.depth else d.depth? node
      | none => d.depth? node := by
  unfold Site.record
  cases site.recorded? with
  | none => rfl
  | some e => exact Depths.depth?_record d e.use e.reference e.depth node

/-- The entry of a site is one of its reference. -/
theorem node?_of_recorded? {e : DepthEntry} (h : site.recorded? = some e) :
    site.node? = some e.reference.node := by
  obtain ⟨place, valueOf, item⟩ := site
  unfold Site.recorded? at h
  cases item with
  | reference use r =>
    dsimp only at h
    split at h
    · cases h
    · obtain ⟨distance, -, rfl⟩ := Option.map_eq_some_iff.mp h
      rfl
  | _ => cases h

theorem depth?_record_of_ne (h : site.node? ≠ some node) :
    (Site.record d site).depth? node = d.depth? node := by
  rw [depth?_record_site]
  split
  · rename_i e he
    rw [if_neg]
    rintro rfl
    exact h (node?_of_recorded? he)
  · rfl

/-- Sites of other references do not change what is recorded for a node. -/
theorem depth?_foldl_of_not_mem {sites : List Site} (h : node ∉ sites.filterMap Site.node?) :
    (sites.foldl Site.record d).depth? node = d.depth? node := by
  induction sites generalizing d with
  | nil => rfl
  | cons site rest ih =>
    have hsite : site.node? ≠ some node := fun heq => h (by simp [heq])
    have hrest : node ∉ rest.filterMap Site.node? := by
      intro hmem
      refine h ?_
      rw [List.mem_filterMap] at hmem ⊢
      obtain ⟨other, hother, hnode⟩ := hmem
      exact ⟨other, List.mem_cons_of_mem _ hother, hnode⟩
    rw [List.foldl_cons, ih hrest, depth?_record_of_ne hsite]

/-- What is recorded for a new reference is the entry of its site. -/
theorem depth?_foldl_of_mem {sites : List Site} (hnodup : (sites.filterMap Site.node?).Nodup)
    (hsite : site ∈ sites) (hnode : site.node? = some node) (hnew : d.depth? node = none) :
    (sites.foldl Site.record d).depth? node = site.recorded?.map DepthEntry.depth := by
  induction sites generalizing d with
  | nil => cases hsite
  | cons first rest ih =>
    rw [List.foldl_cons]
    rcases List.mem_cons.mp hsite with rfl | hrest
    · rw [List.filterMap_cons_some hnode, List.nodup_cons] at hnodup
      rw [depth?_foldl_of_not_mem hnodup.1, depth?_record_site]
      cases hentry : site.recorded? with
      | none => exact hnew
      | some e =>
        have heq : e.reference.node = node :=
          Option.some_inj.mp ((node?_of_recorded? hentry).symm.trans hnode)
        simp [heq]
    · have hmem : node ∈ rest.filterMap Site.node? := List.mem_filterMap.mpr ⟨site, hrest, hnode⟩
      have hother : first.node? ≠ some node := by
        intro hfirst
        rw [List.filterMap_cons_some hfirst, List.nodup_cons] at hnodup
        exact hnodup.1 hmem
      refine ih ?_ hrest ?_
      · exact hnodup.sublist ((List.sublist_cons_self first rest).filterMap _)
      · rw [depth?_record_of_ne hother, hnew]

/-- At a proper site the entry of a reference is its distance. -/
theorem recorded?_of_proper {use : Use} {r : Reference} (hsite : site.Proper)
    (hitem : site.item = .reference use r) :
    site.recorded?.map DepthEntry.depth =
      (site.place.distance? r.name).map fun distance : Nat => (distance : Int) := by
  unfold Site.recorded?
  rw [hitem]
  dsimp only
  split
  · rename_i houtside
    have hthis : r.name = "this" := hsite.receiver r (by rw [hitem, houtside.1])
    rw [hthis, hsite.place.distance?_this houtside.2]
    rfl
  · rw [Option.map_map]
    rfl

end Table

section Parsed

variable {tokens : List Token} {firstNode : NodeId} {parsed : Parsed}

/-- The recorded depths of what is read from tokens.  Its references are those at its sites; of
each of them the depth is recorded that its place has. -/
theorem depths_of_parsed (hproper : ∀ t ∈ tokens, t.Proper)
    (hparsed : Parsed.ofTokens tokens firstNode = .ok parsed) {depths : Depths}
    (hnew : ∀ node, firstNode ≤ node → depths.depth? node = none) :
    (analyse depths parsed.statements).fault = none ∧
      (sites parsed.statements).filterMap Site.node? = Stmt.nodesAll parsed.statements ∧
      ∀ site ∈ sites parsed.statements, ∀ use r, site.item = .reference use r →
        (analyse depths parsed.statements).depths.depth? r.node =
          (site.place.distance? r.name).map fun distance : Nat => (distance : Int) := by
  have hmade := Parsed.ofTokens_madeOf hproper hparsed
  have hnodes : (sites parsed.statements).filterMap Site.node? =
      Stmt.nodesAll parsed.statements := Stmt.nodes_sitesAll parsed.statements []
  obtain ⟨-, hwithin, -⟩ := Parsed.ofTokens_within hparsed
  rw [analyse_eq hmade depths]
  refine ⟨rfl, hnodes, fun site hsite use r hitem => ?_⟩
  have hnode : site.node? = some r.node := by rw [Site.node?, hitem]
  have hmem : r.node ∈ Stmt.nodesAll parsed.statements := by
    rw [← hnodes]
    exact List.mem_filterMap.mpr ⟨site, hsite, hnode⟩
  have hnodup : ((sites parsed.statements).filterMap Site.node?).Nodup := by
    rw [hnodes]
    exact hwithin.nodup
  have hdepth := depth?_foldl_of_mem hnodup hsite hnode (hnew r.node (hwithin.lower _ hmem))
  exact hdepth.trans (recorded?_of_proper (proper_sites hmade site hsite) hitem)

/-- The analysis reports the violations at the sites of what is read from tokens, in their order,
and nothing else. -/
theorem reports_of_parsed (hparsed : Parsed.ofTokens tokens firstNode = .ok parsed)
    (depths : Depths) :
    (analyse depths parsed.statements).fault = none ∧
      (analyse depths parsed.statements).diagnostics =
        (sites parsed.statements).flatMap Site.violations := by
  have hmade : Stmt.MadeOfAll (fun _ => True) parsed.statements :=
    Parsed.ofTokens_madeOf (fun _ _ => trivial) hparsed
  rw [analyse_eq hmade depths]
  exact ⟨rfl, rfl⟩

end Parsed

section Cases

/-- A name on the first line. -/
def firstLineName (name : String) : Token := .bare .identifier name 1

/-- A function in a method that uses a parameter, `super`, and a variable that is declared behind
the function, in front of a statement in error. -/
def leaking : String :=
  "class A < B \x7b m(x) \x7b fun g() \x7b return super.m(x + y); \x7d var y; \x7d \x7d print ;"

/-- What it is read as. -/
def leakingParsed : Parsed where
  statements :=
    [.classDecl (firstLineName "A") (some ⟨0, firstLineName "B"⟩)
      [.mk (firstLineName "m") [firstLineName "x"]
        [.funDecl (.mk (firstLineName "g") []
          [.returnStmt (.bare .returnWord "return" 1)
            (some (.call (.superMethod ⟨1, .bare .superWord "super" 1⟩ (firstLineName "m"))
              (.bare .rightParen ")" 1)
              [.binary (.variable ⟨2, firstLineName "x"⟩) (.bare .plus "+" 1)
                (.variable ⟨3, firstLineName "y"⟩)]))]),
          .varDecl (firstLineName "y") none]]]
  diagnostics := [SyntaxError.expression.at (.bare .semicolon ";" 1)]
  nextNode := 4

theorem leaking_depths :
    let tokens := (Scan.ofSource leaking.toList).tokens
    (∀ t ∈ tokens, t.Proper) ∧ Parsed.ofTokens tokens 0 = .ok leakingParsed ∧
      (∀ node, 0 ≤ node → Depths.empty.depth? node = none) ∧
      (analyse .empty leakingParsed.statements).fault = none ∧
      (sites leakingParsed.statements).filterMap Site.node? =
        Stmt.nodesAll leakingParsed.statements ∧
      ∀ site ∈ sites leakingParsed.statements, ∀ use r, site.item = .reference use r →
        (analyse .empty leakingParsed.statements).depths.depth? r.node =
          (site.place.distance? r.name).map fun distance : Nat => (distance : Int) := by
  have hproper := Scan.ofSource_proper leaking.toList
  have hparsed : Parsed.ofTokens (Scan.ofSource leaking.toList).tokens 0 = .ok leakingParsed := by
    cbv
  exact ⟨hproper, hparsed, fun _ _ => rfl, depths_of_parsed hproper hparsed fun _ _ => rfl⟩

/-- `super` is three scopes out, the parameter one, and the variable behind is not found. -/
example : (analyse .empty leakingParsed.statements).depths.entries.map
    (fun e => (e.reference.name, e.depth)) = [("super", 3), ("x", 1)] := by
  cbv

/-- A return and `this` at the top level, and a variable that is declared twice and read in its own
value. -/
def careless : String := "return this; \x7b var a; var a = a; \x7d"

/-- What it is read as. -/
def carelessParsed : Parsed where
  statements :=
    [.returnStmt (.bare .returnWord "return" 1)
      (some (.receiver ⟨0, .bare .thisWord "this" 1⟩)),
      .block
        [.varDecl (firstLineName "a") none,
          .varDecl (firstLineName "a") (some (.variable ⟨1, firstLineName "a"⟩))]]
  diagnostics := []
  nextNode := 2

theorem careless_reports :
    Parsed.ofTokens (Scan.ofSource careless.toList).tokens 0 = .ok carelessParsed ∧
      (sites carelessParsed.statements).flatMap Site.violations =
        [ScopeError.returnOutsideFunction.at (.bare .returnWord "return" 1),
          ScopeError.thisOutsideClass.at (.bare .thisWord "this" 1),
          ScopeError.alreadyDeclared.at (firstLineName "a"),
          ScopeError.readInOwnValue.at (firstLineName "a")] ∧
      (analyse .empty carelessParsed.statements).fault = none ∧
      (analyse .empty carelessParsed.statements).diagnostics =
        (sites carelessParsed.statements).flatMap Site.violations := by
  have hparsed : Parsed.ofTokens (Scan.ofSource careless.toList).tokens 0 = .ok carelessParsed := by
    cbv
  exact ⟨hparsed, by cbv, reports_of_parsed hparsed .empty⟩

end Cases

end Scope
end LoxLang
