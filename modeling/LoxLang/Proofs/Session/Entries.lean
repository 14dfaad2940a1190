import LoxLang.Proofs.Scope.Entries
import LoxLang.Proofs.Session.Reinitialised
import LoxLang.Proofs.Tags.Reading

/-!
# The recorded depths of a session

**Statement.** No node stands at two places of what a source is read as, and no two runs have a node
in common: so it is with the tags of all nodes, and with the numbers of the references.  So the
analysis of a source finds no entry for any of its references: it adds entries behind all others and
changes none.  Whatever a session is used for later, the entries stay, and functions that were kept
see the depths that they were declared with.

**Functions.** A machine without functions of the host has only those that its sources declare, and
these have numbers that were given (`Reachable.node_lt`).  A function of the host may answer what
it likes; what is said of the references of a source holds with functions of the host, too.

**Results.**
* `Later.entries_kept`: entries stay.
* `Reachable.node_lt`: the numbers of the references of functions that are kept.
* `History.ownEntries`: a run of a source, and what follows it.
-/

namespace LoxLang

section Defs

/-- Whether a class has a function as a method of its own or of a superclass. -/
inductive Class.Has (f : Closure) : Class → Prop
  | own {c : Class} {name : String} : c.methods.get? name = some f → Has f c
  | inherited {c parent : Class} : c.superclass = some parent → Has f parent → Has f c

/-- Whether a function can be got at from a value directly. -/
inductive Value.Holds (f : Closure) : Value → Prop
  | function : Holds f (.function f)
  | classObject {c : Class} : c.Has f → Holds f (.classObject c)
  | instanceObject {address : Nat} {c : Class} : c.Has f → Holds f (.instanceObject address c)

/-- Whether a function can be got at from a value that is bound in a frame or in an instance. -/
inductive Machine.Keeps (m : Machine) (f : Closure) : Prop
  | bound {frame : FrameId} {name : String} {v : Value} :
    m.frames.lookup? frame name = some v → v.Holds f → Keeps m f
  | field {address : Nat} {name : String} {v : Value} :
    Bindings.get? (m.fields[address]?.getD []) name = some v → v.Holds f → Keeps m f

end Defs

section Keeping

variable {φ : Relabelling} {f : Closure} {c : Class} {v : Value} {m : Machine}

theorem Class.Has.relabel_eq_self (h : c.Has f) (hc : c.relabel φ = c) : f.relabel φ = f := by
  induction h with
  | @own c name hf =>
    obtain ⟨id, className, _ | parent, methods⟩ := c
    all_goals
      have hmethods := congrArg (fun c : Class => c.methods.get? name) hc
      simp only [Class.relabel, Bindings.get?_mapValues] at hmethods hf
      rw [hf] at hmethods
      exact Option.some.inj hmethods
  | @inherited c parent hparent _ ih =>
    obtain ⟨id, className, superclass, methods⟩ := c
    obtain rfl : superclass = some parent := hparent
    exact ih (Option.some.inj (congrArg Class.superclass hc))

theorem Value.Holds.relabel_eq_self (h : v.Holds f) (hv : v.relabel φ = v) : f.relabel φ = f := by
  cases h with
  | function => exact Value.function.inj hv
  | classObject hc => exact hc.relabel_eq_self (Value.classObject.inj hv)
  | instanceObject hc => exact hc.relabel_eq_self (Value.instanceObject.inj hv).2

/-- A machine with no label that a relabelling changes has only functions with none. -/
theorem Machine.Keeps.relabel_eq_self (h : m.Keeps f) (hm : m.relabel φ "" = m) :
    f.relabel φ = f := by
  cases h with
  | @bound frame name v hv hf =>
    have hframes : m.frames.relabel φ = m.frames := congrArg Machine.frames hm
    have hbound := Frames.lookup?_relabel φ m.frames frame name
    rw [hframes, hv] at hbound
    exact hf.relabel_eq_self (Option.some.inj hbound).symm
  | @field address name v hv hf =>
    have hfields : m.fields.map (Bindings.relabel φ) = m.fields := congrArg Machine.fields hm
    have hbound : Bindings.get? ((m.fields.map (Bindings.relabel φ))[address]?.getD []) name =
        (Bindings.get? (m.fields[address]?.getD []) name).map (Value.relabel φ) := by
      rw [Array.getElem?_map, ← Bindings.get?_mapValues]
      cases m.fields[address]? <;> rfl
    rw [hfields, hv] at hbound
    exact hf.relabel_eq_self (Option.some.inj hbound).symm

end Keeping

/-- Numbers of one range are none of a later range. -/
theorem Within.disjoint {lo hi lo' hi' : Nat} {ns ms : List Nat} (h : Within lo hi ns)
    (h' : Within lo' hi' ms) (hle : hi ≤ lo') : ns.Disjoint ms := fun n hn hm =>
  Nat.lt_irrefl n ((h.upper n hn).trans_le (hle.trans (h'.lower n hm)))

namespace Session

open Scope Relabelling

section Defs

/-- What a source is read as in a session, with tags from a tag on. -/
def readTagged (s : Session) (source : String) (firstTag : Tag) : Except ParserStop Tagged :=
  Tagged.ofTokens (scanned source).tokens s.nextNode firstTag

/-- The next tag behind the nodes of a source. -/
def tagBehind (s : Session) (source : String) (firstTag : Tag) : Tag :=
  match s.readTagged source firstTag with
  | .ok tagged => tagged.nextTag
  | .error _ => firstTag

/-- The sessions that any use of a session leads to, with the next tag. -/
inductive Later (s : Session) (firstTag : Tag) : Session → Tag → Prop
  | refl : Later s firstTag s firstTag
  | run {t : Session} {next : Tag} (fuel : Nat) (source : String) :
    Later s firstTag t next → Later s firstTag (t.run fuel source).1 (t.tagBehind source next)
  | resetLog {t : Session} {next : Tag} : Later s firstTag t next → Later s firstTag t.resetLog next
  | freshGlobals {t : Session} {next : Tag} :
    Later s firstTag t next → Later s firstTag t.freshGlobals next
  | withFlags {t : Session} {next : Tag} (flags : List Flag) :
    Later s firstTag t next → Later s firstTag (t.withFlags flags) next
  | defineNative {t : Session} {next : Tag} (name : String) (arity : Nat)
    (host : List Value → Value) :
    Later s firstTag t next → Later s firstTag (t.defineNative name arity host) next

/-- Whether each reference of a source has an entry of its own: what its run does to the recorded
depths, and what any later use leaves of that. -/
structure OwnEntries (s : Session) (firstTag : Tag) (fuel : Nat) (source : String)
    (tagged : Tagged) : Prop where
  read : s.read source = .ok tagged.parsed
  readTagged : s.readTagged source firstTag = .ok tagged
  /-- No node stands at two places. -/
  tags : (TaggedStmt.tagsAll tagged.statements).Nodup
  /-- No number of a reference does. -/
  nodes : (Stmt.nodesAll tagged.parsed.statements).Nodup
  records : RecordsOnce s.depths tagged.parsed.statements
  analysed : Analysable s source tagged.parsed →
    (s.run fuel source).1.depths = (Scope.analyse s.depths tagged.parsed.statements).depths
  unanalysed : ¬ Analysable s source tagged.parsed → (s.run fuel source).1.depths = s.depths
  /-- Later runs have nodes of their own. -/
  apart : ∀ t next, Later (s.run fuel source).1 tagged.nextTag t next →
    ∀ source' tagged', t.readTagged source' next = .ok tagged' →
      (TaggedStmt.tagsAll tagged.statements).Disjoint (TaggedStmt.tagsAll tagged'.statements) ∧
      (Stmt.nodesAll tagged.parsed.statements).Disjoint
        (Stmt.nodesAll tagged'.parsed.statements)
  /-- No entry is changed or dropped. -/
  kept : ∀ t next, Later (s.run fuel source).1 tagged.nextTag t next →
    (s.run fuel source).1.depths.entries <+: t.depths.entries
  /-- Also a reference without an entry gets none later. -/
  depths : ∀ t next, Later (s.run fuel source).1 tagged.nextTag t next →
    ∀ node ∈ Stmt.nodesAll tagged.parsed.statements,
      t.depths.depth? node = (s.run fuel source).1.depths.depth? node
  /-- Functions that the machine keeps behind the run, from this source or from an earlier one. -/
  functions : ∀ own, Reachable own s → ∀ f, (s.run fuel source).1.machine.Keeps f →
    ∀ t next, Later (s.run fuel source).1 tagged.nextTag t next → ∀ node ∈ f.declaration.nodes,
      t.depths.depth? node = (s.run fuel source).1.depths.depth? node

end Defs

section Runs

variable {s t : Session} {source : String} {parsed : Parsed} {firstTag next : Tag}

/-- A source is read with tags as it is read without. -/
theorem exists_readTagged (hread : s.read source = .ok parsed) (firstTag : Tag) :
    ∃ tagged, s.readTagged source firstTag = .ok tagged ∧ tagged.parsed = parsed ∧
      firstTag ≤ tagged.nextTag ∧
      Within firstTag tagged.nextTag (TaggedStmt.tagsAll tagged.statements) :=
  Tagged.ofTokens_tags hread firstTag

theorem read_of_readTagged {tagged : Tagged} (h : s.readTagged source firstTag = .ok tagged) :
    s.read source = .ok tagged.parsed ∧ firstTag ≤ tagged.nextTag ∧
      Within firstTag tagged.nextTag (TaggedStmt.tagsAll tagged.statements) := by
  obtain ⟨parsed, hread⟩ := exists_read s source
  obtain ⟨tagged', htagged, hparsed, hnext, hwithin⟩ := exists_readTagged hread firstTag
  obtain rfl : tagged = tagged' := Except.ok.inj (h.symm.trans htagged)
  exact ⟨by rw [hread, hparsed], hnext, hwithin⟩

theorem tagBehind_of_readTagged {tagged : Tagged}
    (h : s.readTagged source firstTag = .ok tagged) :
    s.tagBehind source firstTag = tagged.nextTag := by
  unfold tagBehind
  rw [h]

theorem History.later (hs : History s) (h : Later s firstTag t next) : History t := by
  induction h with
  | refl => exact hs
  | run fuel source _ ih => exact ih.run fuel source
  | resetLog _ ih => exact ih.resetLog
  | freshGlobals _ ih => exact ih.freshGlobals
  | withFlags flags _ ih => exact ih.withFlags flags
  | defineNative name arity host _ ih => exact ih.defineNative name arity host

/-- What a source is read as is analysed without changing an entry. -/
theorem History.recordsOnce (hs : History s) (hread : s.read source = .ok parsed) :
    RecordsOnce s.depths parsed.statements :=
  recordsOnce_of_parsed (Scan.ofSource_proper _) hread hs.fresh

/-- What follows the analysis records no depths. -/
theorem depths_runAnalysed (s : Session) (fuel : Nat) (program : List Stmt) :
    (s.runAnalysed fuel program).1.depths = s.depths := by
  unfold runAnalysed
  split
  · rfl
  · dsimp only
    split
    · rfl
    · exact depths_execute _ _ _

theorem depths_run_of_analysable (h : Analysable s source parsed) (fuel : Nat) :
    (s.run fuel source).1.depths = (Scope.analyse s.depths parsed.statements).depths := by
  rw [run_of_analysable h]
  exact depths_runAnalysed _ _ _

theorem depths_run_of_unanalysed (hread : s.read source = .ok parsed)
    (h : ¬ Analysable s source parsed) (fuel : Nat) :
    (s.run fuel source).1.depths = s.depths := by
  cases run_of_unanalysed hread h fuel with
  | unanalysed log status hs hending => rw [hs]
  | unexecuted log status hanalysable hs hending => exact absurd hanalysable h

/-- A run adds entries behind those there are. -/
theorem History.entries_run (hs : History s) (fuel : Nat) (source : String) :
    s.depths.entries <+: (s.run fuel source).1.depths.entries := by
  obtain ⟨parsed, hread⟩ := exists_read s source
  by_cases h : Analysable s source parsed
  · rw [depths_run_of_analysable h, (hs.recordsOnce hread).entries]
    exact List.prefix_append _ _
  · rw [depths_run_of_unanalysed hread h]

/-- What runs keep, and what does not depend on more than the depths and the number of the next
reference, holds later. -/
theorem Later.keeps {R : Session → Tag → Prop} (h : Later s firstTag t next)
    (hfirst : R s firstTag)
    (hrun : ∀ t next fuel source, Later s firstTag t next → R t next →
      R (t.run fuel source).1 (t.tagBehind source next))
    (hsame : ∀ t t' next, t'.nextNode = t.nextNode → t'.depths = t.depths → R t next →
      R t' next) : R t next := by
  induction h with
  | refl => exact hfirst
  | run fuel source h ih => exact hrun _ _ fuel source h ih
  | resetLog _ ih => exact hsame _ _ _ (by rfl) (by rfl) ih
  | freshGlobals _ ih => exact hsame _ _ _ (by rfl) (by rfl) ih
  | withFlags flags _ ih => exact hsame _ _ _ (by rfl) (by rfl) ih
  | defineNative name arity host _ ih => exact hsame _ _ _ (by rfl) (by rfl) ih

theorem Later.entries_kept (h : Later s firstTag t next) (hs : History s) :
    s.depths.entries <+: t.depths.entries := by
  refine h.keeps (R := fun t _ => s.depths.entries <+: t.depths.entries) List.prefix_rfl ?_ ?_
  · exact fun t next fuel source h ih => ih.trans ((hs.later h).entries_run fuel source)
  · exact fun t t' next _ hdepths ih => hdepths ▸ ih

/-- Numbers are given in ascending order. -/
theorem Later.nextNode_le (h : Later s firstTag t next) : s.nextNode ≤ t.nextNode := by
  refine h.keeps (R := fun t _ => s.nextNode ≤ t.nextNode) (Nat.le_refl _) ?_ ?_
  · intro t next fuel source _ ih
    obtain ⟨parsed, hread⟩ := exists_read t source
    rw [nextNode_run hread]
    exact ih.trans (read_within hread).1
  · exact fun t t' next hnode _ ih => hnode ▸ ih

/-- Tags are given in ascending order. -/
theorem Later.nextTag_le (h : Later s firstTag t next) : firstTag ≤ next := by
  refine h.keeps (R := fun _ next => firstTag ≤ next) (Nat.le_refl _) ?_ fun _ _ _ _ _ ih => ih
  intro t next fuel source _ ih
  obtain ⟨parsed, hread⟩ := exists_read t source
  obtain ⟨tagged, htagged, -, hnext, -⟩ := exists_readTagged hread next
  rw [tagBehind_of_readTagged htagged]
  exact ih.trans hnext

/-- What is recorded for the numbers that were given stays. -/
theorem Later.depth?_eq (h : Later s firstTag t next) {node : NodeId} (hnode : node < s.nextNode) :
    t.depths.depth? node = s.depths.depth? node := by
  refine h.keeps (R := fun t _ => t.depths.depth? node = s.depths.depth? node) rfl ?_ ?_
  · intro t next fuel source h ih
    exact (depth?_run fuel source (Nat.lt_of_lt_of_le hnode h.nextNode_le)).trans ih
  · exact fun t t' next _ hdepths ih => hdepths ▸ ih

end Runs

section Functions

variable {own : List NodeId} {s : Session} {f : Closure} {m : Machine} {limit : NodeId}

/-- In a machine that refers to numbers below a limit, so do the functions. -/
theorem Confined.node_lt (h : Confined limit m) (hf : m.Keeps f) :
    ∀ node ∈ f.declaration.nodes, node < limit := by
  intro node hnode
  by_contra hlimit
  have hmachine := h (gap limit 1) rfl (fun node hnode => node_gap_of_lt hnode) fun node hnode => by
    rw [node_gap_of_le hnode]
    exact Nat.le_succ_of_le hnode
  have hdeclaration := congrArg Closure.declaration (hf.relabel_eq_self hmachine)
  have hnodes := congrArg Function.nodes hdeclaration
  rw [Closure.relabel, Function.nodes_relabel] at hnodes
  have hself : (gap limit 1).node node = node :=
    List.map_inj_left.mp (hnodes.trans (List.map_id _).symm) node hnode
  rw [node_gap_of_le (Nat.le_of_not_lt hlimit)] at hself
  exact Nat.succ_ne_self node hself

/-- The references of functions that a session keeps have numbers that were given. -/
theorem Reachable.node_lt (h : Reachable own s) (hf : s.machine.Keeps f) :
    ∀ node ∈ f.declaration.nodes, node < s.nextNode :=
  h.confined.node_lt hf

end Functions

section Statement

variable {s : Session}

/-- Each reference of a source has an entry of its own. -/
theorem History.ownEntries (hs : History s) (firstTag : Tag) (fuel : Nat) (source : String) :
    ∃ tagged, OwnEntries s firstTag fuel source tagged := by
  obtain ⟨parsed, hread⟩ := exists_read s source
  obtain ⟨tagged, htagged, rfl, -, htags⟩ := exists_readTagged hread firstTag
  obtain ⟨-, hnodes⟩ := read_within hread
  have hnext : (s.run fuel source).1.nextNode = tagged.parsed.nextNode := nextNode_run hread fuel
  refine ⟨tagged, ?_⟩
  constructor
  case read => exact hread
  case readTagged => exact htagged
  case tags => exact htags.nodup
  case nodes => exact hnodes.nodup
  case records => exact hs.recordsOnce hread
  case analysed => exact fun h => depths_run_of_analysable h fuel
  case unanalysed => exact fun h => depths_run_of_unanalysed hread h fuel
  case apart =>
    intro t next ht source' tagged' htagged'
    obtain ⟨hread', -, htags'⟩ := read_of_readTagged htagged'
    obtain ⟨-, hnodes'⟩ := read_within hread'
    exact ⟨htags.disjoint htags' ht.nextTag_le, hnodes.disjoint hnodes' (hnext ▸ ht.nextNode_le)⟩
  case kept => exact fun t next ht => ht.entries_kept (hs.run fuel source)
  case depths =>
    intro t next ht node hnode
    exact ht.depth?_eq (hnext ▸ hnodes.upper node hnode)
  case functions =>
    intro own hreachable f hf t next ht node hnode
    exact ht.depth?_eq ((hreachable.run fuel source).node_lt hf node hnode)

/-- A function that refers to its parameter twice. -/
def twice : String := "fun f(a) \x7b print a; print a; \x7d"

/-- Run twice, it has entries for both references from either run. -/
theorem twice_ownEntries :
    let s := ((initial []).run 9 twice).1
    s.depths.size = 2 ∧ (s.run 9 twice).1.depths.size = 4 ∧
      ∃ tagged, OwnEntries s ((initial []).tagBehind twice 0) 9 twice tagged :=
  ⟨by cbv, by cbv, ((History.initial []).run 9 twice).ownEntries _ 9 twice⟩

end Statement

end Session
end LoxLang
