import LoxLang.Proofs.Scope.Resolved
import LoxLang.Proofs.Steps
import LoxLang.Proofs.Syntax.Nodes
import LoxLang.Scope.Analysis

/-!
# Adequacy of the analysis of scopes

**Statement.** A tree that the analysis has nothing to report of is resolved, by every resolution
that agrees with the recorded depths on the nodes of the tree.

**Method.** `Analyses x s Γ nodes Q` says what the part `x` of the analysis does in the state `s`:
it ends with the stack `Γ`, changes the depths of `nodes` only, reports static errors only, and
`Q` holds if it reports none.  `Analyses.bind` puts two parts together; the conclusions of both are
at hand because the diagnostics only grow.

**Results.**
* `analyse_spec`: what the analysis of a program does.
-/

namespace LoxLang
namespace Scope

/-- Whether a resolution agrees with recorded depths on some nodes. -/
def Resolution.Covers (ρ : Resolution) (nodes : List NodeId) (depths : Depths) : Prop :=
  ∀ node ∈ nodes, node < ρ.next ∧ ρ.depths.depth? node = depths.depth? node

namespace Analysis

open Steps

/-- What the analysis of a part of a program with some nodes has done. -/
structure Done (nodes : List NodeId) (Q : Resolution → Prop) (s s' : AnalysisState) : Prop where
  reports : ∃ ds, s'.diagnostics = s.diagnostics ++ ds ∧ ∀ d ∈ ds, d.phase = .static
  kept : ∀ node ∉ nodes, s'.depths.depth? node = s.depths.depth? node
  resolves : s'.diagnostics = s.diagnostics → nodes.Nodup →
    (∀ node ∈ nodes, s.depths.depth? node = none) → ∀ ρ, Resolution.Covers ρ nodes s'.depths → Q ρ

/-- What a part of the analysis does. -/
def Analyses (x : Analysis Unit) (s : AnalysisState) (Γ : Stack Bool) (nodes : List NodeId)
    (Q : Resolution → Prop) : Prop :=
  ∃ s', x s = .ok () s' ∧ s'.stack = Γ ∧ Done nodes Q s s'

section Rules

variable {x y : Analysis Unit} {s : AnalysisState} {Γ Γ' Γ'' : Stack Bool}
  {nodes more : List NodeId} {Q Q' : Resolution → Prop}

theorem Analyses.mono (h : Analyses x s Γ nodes Q) (hQ : ∀ ρ, Q ρ → Q' ρ) :
    Analyses x s Γ nodes Q' := by
  obtain ⟨s', hx, hstack, hdone⟩ := h
  exact ⟨s', hx, hstack, hdone.reports, hdone.kept,
    fun hquiet hnodup hnew ρ hρ => hQ ρ (hdone.resolves hquiet hnodup hnew ρ hρ)⟩

theorem Analyses.congr (hxy : x s = y s) (h : Analyses y s Γ nodes Q) :
    Analyses x s Γ nodes Q := by
  obtain ⟨s', hy, hdone⟩ := h
  exact ⟨s', hxy.trans hy, hdone⟩

theorem Analyses.bind (hx : Analyses x s Γ nodes Q)
    (hy : ∀ s', s'.stack = Γ → Analyses y s' Γ' more Q') :
    Analyses (x >>= fun _ => y) s Γ' (nodes ++ more) (fun ρ => Q ρ ∧ Q' ρ) := by
  obtain ⟨s', hxs, hstack, hx⟩ := hx
  obtain ⟨s'', hys, hstack', hy⟩ := hy s' hstack
  refine ⟨s'', by rw [bind_apply_of_ok hxs, hys], hstack', ?_, ?_, ?_⟩
  · obtain ⟨ds, hds, hstatic⟩ := hx.reports
    obtain ⟨ds', hds', hstatic'⟩ := hy.reports
    refine ⟨ds ++ ds', by rw [hds', hds, List.append_assoc], fun d hd => ?_⟩
    rcases List.mem_append.mp hd with hd | hd
    · exact hstatic d hd
    · exact hstatic' d hd
  · intro node hnode
    have hmem := not_or.mp (mt List.mem_append.mpr hnode)
    rw [hy.kept node hmem.2, hx.kept node hmem.1]
  · intro hquiet hnodup hnew ρ hρ
    obtain ⟨hnodes, hmore, hdisjoint⟩ := List.nodup_append.mp hnodup
    -- Neither part has reported anything, since what was reported stays.
    have hquiets : s'.diagnostics = s.diagnostics ∧ s''.diagnostics = s'.diagnostics := by
      obtain ⟨ds, hds, -⟩ := hx.reports
      obtain ⟨ds', hds', -⟩ := hy.reports
      rw [hds', hds, List.append_assoc, List.append_right_eq_self, List.append_eq_nil_iff] at hquiet
      rw [hds', hds, hquiet.1, hquiet.2]
      simp
    have hfirst : ∀ node ∈ nodes, s''.depths.depth? node = s'.depths.depth? node := by
      intro node hnode
      exact hy.kept node fun hm => hdisjoint node hnode node hm rfl
    have hsecond : ∀ node ∈ more, s'.depths.depth? node = none := by
      intro node hnode
      rw [hx.kept node fun hn => hdisjoint node hn node hnode rfl]
      exact hnew node (List.mem_append_right _ hnode)
    constructor
    · refine hx.resolves hquiets.1 hnodes
        (fun node hn => hnew node (List.mem_append_left _ hn)) ρ ?_
      intro node hnode
      obtain ⟨hknown, hdepth⟩ := hρ node (List.mem_append_left _ hnode)
      exact ⟨hknown, hdepth.trans (hfirst node hnode)⟩
    · refine hy.resolves hquiets.2 hmore hsecond ρ ?_
      exact fun node hnode => hρ node (List.mem_append_right _ hnode)

theorem analyses_pure (hs : s.stack = Γ) : Analyses (pure ()) s Γ [] (fun _ => True) :=
  ⟨s, rfl, hs, ⟨[], by simp⟩, fun _ _ => rfl, fun _ _ _ _ _ => trivial⟩

theorem analyses_report (e : ScopeError) (t : Token) (hs : s.stack = Γ) :
    Analyses (report e t) s Γ [] (fun _ => False) := by
  refine ⟨_, rfl, hs, ⟨[e.at t], rfl, ?_⟩, fun _ _ => rfl, fun hquiet _ _ _ _ => ?_⟩
  · intro d hd
    cases List.mem_singleton.mp hd
    rfl
  · exact List.cons_ne_nil _ _ (List.append_right_eq_self.mp hquiet)

/-- Of what is reported nothing else needs to be known. -/
theorem Analyses.ofReported (h : Analyses x s Γ [] (fun _ => False)) : Analyses x s Γ nodes Q := by
  obtain ⟨s', hx, hstack, hdone⟩ := h
  refine ⟨s', hx, hstack, hdone.reports, fun node _ => hdone.kept node List.not_mem_nil, ?_⟩
  intro hquiet _ _ ρ _
  exact (hdone.resolves hquiet .nil (by simp) ρ (by simp [Resolution.Covers])).elim

theorem analyses_reportIf (condition : Bool) (e : ScopeError) (t : Token) (hs : s.stack = Γ) :
    Analyses (reportIf condition e t) s Γ [] (fun _ => condition = false) := by
  cases condition with
  | false => exact (analyses_pure hs).mono fun _ _ => rfl
  | true => exact (analyses_report e t hs).mono fun _ h => h.elim

theorem analyses_mark (t : Token) (finished : Bool) (hs : s.stack = Γ) :
    Analyses (mark t finished) s (Γ.mark t.lexeme finished) [] (fun _ => True) := by
  subst hs
  obtain ⟨⟨scopes⟩, depths, diagnostics⟩ := s
  cases scopes with
  | nil => exact ⟨_, rfl, rfl, ⟨[], by simp⟩, fun _ _ => rfl, fun _ _ _ _ _ => trivial⟩
  | cons scope outer => exact ⟨_, rfl, rfl, ⟨[], by simp⟩, fun _ _ => rfl, fun _ _ _ _ _ => trivial⟩

theorem analyses_declare (t : Token) (hs : s.stack = Γ) :
    Analyses (declare t) s (Γ.mark t.lexeme false) []
      (fun _ => Γ.innermost? t.lexeme = none) := by
  have hpeel : declare t s =
      (reportIf (s.stack.innermost? t.lexeme).isSome .alreadyDeclared t >>= fun _ =>
        mark t false) s := rfl
  rw [hs] at hpeel
  refine Analyses.congr hpeel (((analyses_reportIf _ _ t hs).bind
    fun _ => analyses_mark t false).mono fun _ h => ?_)
  exact Option.not_isSome_iff_eq_none.mp (Bool.eq_false_iff.mp h.1)

theorem analyses_define (t : Token) (hs : s.stack = Γ.mark t.lexeme false) :
    Analyses (define t) s (Γ.mark t.lexeme true) [] (fun _ => True) := by
  rw [← Stack.mark_mark Γ t.lexeme false true]
  exact analyses_mark t true hs

theorem analyses_introduce (t : Token) (hs : s.stack = Γ) :
    Analyses (introduce t) s (Γ.mark t.lexeme true) []
      (fun _ => Γ.innermost? t.lexeme = none) :=
  ((analyses_declare t hs).bind fun _ => analyses_define t).mono fun _ h => h.1

/-- Names that are introduced in a scope are new there, and differ from each other. -/
theorem analyses_introduceAll (ts : List Token) {s : AnalysisState} {Γ : Stack Bool}
    (hlocal : Γ.isLocal = true) (hs : s.stack = Γ) :
    Analyses (introduceAll ts) s (Γ.markAll (ts.map Token.lexeme)) []
      (fun _ => (ts.map Token.lexeme).Nodup ∧ ∀ t ∈ ts, Γ.innermost? t.lexeme = none) := by
  induction ts generalizing s Γ with
  | nil => exact (analyses_pure hs).mono fun _ _ => by simp
  | cons t rest ih =>
    refine ((analyses_introduce t hs).bind fun _ => ih (Γ.isLocal_mark t.lexeme true ▸ hlocal)).mono
      fun _ ⟨hnew, hnodup, hothers⟩ => ?_
    -- A name that follows is new behind the first one, and therefore another one.
    have hne : ∀ other ∈ rest, t.lexeme ≠ other.lexeme := by
      intro other hother heq
      have h := hothers other hother
      rw [← heq, Stack.innermost?_mark_self, if_pos hlocal] at h
      cases h
    refine ⟨List.nodup_cons.mpr ⟨?_, hnodup⟩, List.forall_mem_cons.mpr ⟨hnew, ?_⟩⟩
    · rw [List.mem_map]
      rintro ⟨other, hother, heq⟩
      exact hne other hother heq.symm
    · intro other hother
      rw [← Stack.innermost?_mark_of_ne (hne other hother) true]
      exact hothers other hother

theorem analyses_record (use : Use) (r : Reference) (hs : s.stack = Γ) :
    Analyses (record use r) s Γ [r.node] (fun ρ => ρ.Places Γ r) := by
  subst hs
  cases hdistance : s.stack.distance? r.name with
  | none =>
    have hx : record use r s = .ok () s := by
      unfold record
      rw [hdistance]
    refine ⟨s, hx, rfl, ⟨[], by simp⟩, fun _ _ => rfl, fun _ _ hnew ρ hρ => ?_⟩
    obtain ⟨hknown, hdepth⟩ := hρ r.node List.mem_cons_self
    refine ⟨hknown, ?_⟩
    rw [hdepth, hnew r.node List.mem_cons_self, hdistance]
    rfl
  | some d =>
    have hx : record use r s = .ok () { s with depths := s.depths.record use r d } := by
      unfold record
      rw [hdistance]
    refine ⟨_, hx, rfl, ⟨[], by simp⟩, fun node hnode => ?_, fun _ _ _ ρ hρ => ?_⟩
    · rw [Depths.depth?_record, if_neg (Ne.symm (mt List.mem_singleton.mpr hnode))]
    · obtain ⟨hknown, hdepth⟩ := hρ r.node List.mem_cons_self
      refine ⟨hknown, ?_⟩
      rw [hdepth, Depths.depth?_record, if_pos rfl, hdistance]
      rfl

/-- A scope is left behind with all that was declared in it. -/
theorem analyses_inScope (names : List String) {scope : Bindings Bool} (hs : s.stack = Γ)
    (h : ∀ s', s'.stack = Γ.push (names.map fun name => (name, true)) →
      Analyses x s' (Γ.push scope) nodes Q) :
    Analyses (inScope names x) s Γ nodes Q := by
  subst hs
  obtain ⟨s', hx, hstack, hdone⟩ :=
    h { s with stack := s.stack.push (names.map fun name => (name, true)) } rfl
  have hleave : leave s' = .ok () { s' with stack := s.stack } := by
    unfold leave
    rw [hstack]
    rfl
  refine ⟨{ s' with stack := s.stack }, ?_, rfl, hdone.reports, hdone.kept, hdone.resolves⟩
  have hpeel : inScope names x s =
      (x >>= fun _ => leave)
        { s with stack := s.stack.push (names.map fun name => (name, true)) } :=
    rfl
  rw [hpeel, bind_apply_of_ok hx, hleave]

end Rules

section Expressions

/-- What is known of the stack at an expression. -/
structure Around (around : Surroundings) (Γ : Stack Bool) : Prop where
  unfinished : ∀ name, Γ.nearest? name = some false →
    Plain name ∧ Γ.innermost? name = some false
  inClass : around.inClass ≠ .none → Γ.BindsThis
  derived : around.inClass = .derived → ∃ d, Γ.BindsSuper d

variable {around : Surroundings} {Γ : Stack Bool} {s : AnalysisState}

theorem readVariable_apply (r : Reference) (s : AnalysisState) :
    readVariable r s =
      (reportIf (s.stack.innermost? r.name == some false) .readInOwnValue r.token >>= fun _ =>
        record .read r) s := rfl

theorem analyses_readVariable (hΓ : Around around Γ) (r : Reference) (hs : s.stack = Γ) :
    Analyses (readVariable r) s Γ [r.node] (fun ρ => ρ.Reads Γ r) := by
  have hpeel := readVariable_apply r s
  rw [hs] at hpeel
  refine Analyses.congr hpeel (((analyses_reportIf _ _ _ hs).bind
    fun _ => analyses_record .read r).mono fun ρ ⟨hinner, hplaces⟩ => ⟨hplaces, ?_⟩)
  intro hunfinished
  rw [(hΓ.unfinished _ hunfinished).2] at hinner
  cases hinner

theorem analyses_receiver (hΓ : Around around Γ) (r : Reference) (hr : r.name = "this")
    (hs : s.stack = Γ) :
    Analyses (receiver around r) s Γ [r.node]
      (fun ρ => r.name = "this" ∧ Γ.BindsThis ∧ ρ.Reads Γ r) := by
  unfold receiver
  split
  · exact (analyses_report .thisOutsideClass r.token hs).ofReported
  · rename_i hclass
    refine (analyses_record .receiver r hs).mono fun ρ hplaces =>
      ⟨hr, hΓ.inClass hclass, hplaces, fun hunfinished => ?_⟩
    exact (hΓ.unfinished _ hunfinished).1.1 hr

theorem analyses_superMethod (hΓ : Around around Γ) (r : Reference) (hr : r.name = "super")
    (hs : s.stack = Γ) :
    Analyses (superMethod around r) s Γ [r.node]
      (fun ρ => r.name = "super" ∧ ρ.Places Γ r ∧ ∃ d, Γ.BindsSuper d) := by
  unfold superMethod
  cases hclass : around.inClass with
  | none =>
    exact ((analyses_report _ _ hs).bind fun _ => analyses_record _ r).mono fun _ h => h.1.elim
  | base =>
    exact ((analyses_report _ _ hs).bind fun _ => analyses_record _ r).mono fun _ h => h.1.elim
  | derived =>
    exact ((analyses_pure hs).bind fun _ => analyses_record _ r).mono
      fun _ h => ⟨hr, h.2, hΓ.derived hclass⟩

/-- Whether assignments to an unfinished variable stand at nodes that may have them. -/
def Owns (ρ : Resolution) (Γ : Stack Bool) (targets : List Reference) : Prop :=
  ∀ r ∈ targets, Γ.nearest? r.name = some false → ρ.own r.node = true

theorem owns_append {ρ : Resolution} {targets more : List Reference} :
    Owns ρ Γ (targets ++ more) ↔ Owns ρ Γ targets ∧ Owns ρ Γ more :=
  List.forall_mem_append

mutual

theorem analyses_expr (hΓ : Around around Γ) :
    ∀ (e : Expr) (s : AnalysisState), e.WellFormed → s.stack = Γ →
      Analyses (expr around e) s Γ e.nodes fun ρ => Owns ρ Γ e.targets → e.Resolved ρ Γ
  | .assign target value, s, ⟨hname, hw⟩, hs => by
    refine ((analyses_expr hΓ value s hw hs).bind fun _ => analyses_record .assign target).mono
      fun ρ ⟨hvalue, hplaces⟩ howns => ?_
    obtain ⟨howns, htarget⟩ := owns_append.mp howns
    exact ⟨hvalue howns, hname, hplaces, htarget target List.mem_cons_self⟩
  | .binary left _ right, s, ⟨hkind, hleft, hright⟩, hs =>
    ((analyses_expr hΓ left s hleft hs).bind fun s' => analyses_expr hΓ right s' hright).mono
      fun _ ⟨hl, hr⟩ howns =>
        ⟨hkind, hl (owns_append.mp howns).1, hr (owns_append.mp howns).2⟩
  | .call callee _ arguments, s, ⟨hcallee, harguments⟩, hs =>
    ((analyses_expr hΓ callee s hcallee hs).bind fun s' =>
      analyses_exprs hΓ arguments s' harguments).mono
      fun _ ⟨hl, hr⟩ howns => ⟨hl (owns_append.mp howns).1, hr (owns_append.mp howns).2⟩
  | .get object _, s, hw, hs => analyses_expr hΓ object s hw hs
  | .grouping inner, s, hw, hs => analyses_expr hΓ inner s hw hs
  | .literal _, _, _, hs => (analyses_pure hs).mono fun _ _ _ => trivial
  | .logical left _ right, s, ⟨hleft, hright⟩, hs =>
    ((analyses_expr hΓ left s hleft hs).bind fun s' => analyses_expr hΓ right s' hright).mono
      fun _ ⟨hl, hr⟩ howns => ⟨hl (owns_append.mp howns).1, hr (owns_append.mp howns).2⟩
  | .set object _ value, s, ⟨hobject, hvalue⟩, hs =>
    ((analyses_expr hΓ value s hvalue hs).bind fun s' => analyses_expr hΓ object s' hobject).mono
      fun _ ⟨hl, hr⟩ howns => ⟨hl (owns_append.mp howns).1, hr (owns_append.mp howns).2⟩
  | .superMethod keyword _, s, hw, hs =>
    (analyses_superMethod hΓ keyword hw hs).mono fun _ h _ => h
  | .receiver keyword, s, hw, hs => (analyses_receiver hΓ keyword hw hs).mono fun _ h _ => h
  | .unary _ operand, s, ⟨hkind, hw⟩, hs =>
    (analyses_expr hΓ operand s hw hs).mono fun _ h howns => ⟨hkind, h howns⟩
  | .variable name, s, _, hs => (analyses_readVariable hΓ name hs).mono fun _ h _ => h

theorem analyses_exprs (hΓ : Around around Γ) :
    ∀ (es : List Expr) (s : AnalysisState), Expr.WellFormedAll es → s.stack = Γ →
      Analyses (exprs around es) s Γ (Expr.nodesAll es)
        fun ρ => Owns ρ Γ (Expr.targetsAll es) → Expr.ResolvedAll ρ Γ es
  | [], _, _, hs => (analyses_pure hs).mono fun _ _ _ => trivial
  | e :: rest, s, ⟨he, hrest⟩, hs =>
    ((analyses_expr hΓ e s he hs).bind fun s' => analyses_exprs hΓ rest s' hrest).mono
      fun _ ⟨hl, hr⟩ howns => ⟨hl (owns_append.mp howns).1, hr (owns_append.mp howns).2⟩

end

end Expressions

section Statements

/-- What is known of the stack at a statement. -/
structure Between (around : Surroundings) (Γ : Stack Bool) : Prop where
  finished : Γ.Finished
  inClass : around.inClass ≠ .none → Γ.BindsThis
  derived : around.inClass = .derived → ∃ d, Γ.BindsSuper d

namespace Between

variable {around : Surroundings} {Γ : Stack Bool}

theorem expr (h : Between around Γ) : Around around Γ :=
  ⟨fun name hname => absurd hname (h.finished name), h.inClass, h.derived⟩

/-- The value of a local variable. -/
theorem value (h : Between around Γ) {name : String} (hname : Plain name) :
    Around around (Γ.mark name false) := by
  refine ⟨fun other hother => ?_, fun hclass => (h.inClass hclass).mark hname false,
    fun hclass => ?_⟩
  · obtain ⟨rfl, hinner⟩ := h.finished.eq_of_nearest?_mark hother
    exact ⟨hname, hinner⟩
  · obtain ⟨d, hd⟩ := h.derived hclass
    exact ⟨d, hd.mark hname false⟩

theorem mark (h : Between around Γ) {name : String} (hname : Plain name) :
    Between around (Γ.mark name true) := by
  refine ⟨h.finished.mark name, fun hclass => (h.inClass hclass).mark hname true,
    fun hclass => ?_⟩
  obtain ⟨d, hd⟩ := h.derived hclass
  exact ⟨d, hd.mark hname true⟩

/-- Behind a statement. -/
theorem after (h : Between around Γ) {d : Stmt} (hd : d.WellFormed) :
    Between around (Γ.after d) := by
  cases d with
  | classDecl _ _ _ => exact h.mark hd.1
  | funDecl _ => exact h.mark hd.1
  | varDecl _ _ => exact h.mark hd.1
  | _ => exact h

theorem markAll (h : Between around Γ) {names : List String} (hnames : ∀ n ∈ names, Plain n) :
    Between around (Γ.markAll names) := by
  induction names generalizing Γ with
  | nil => exact h
  | cons name rest ih =>
    obtain ⟨hname, hrest⟩ := List.forall_mem_cons.mp hnames
    exact ih (h.mark hname) hrest

theorem block (h : Between around Γ) : Between around (Γ.push []) := by
  refine ⟨h.finished.push_nil, fun hclass => (h.inClass hclass).push [], fun hclass => ?_⟩
  obtain ⟨d, hd⟩ := h.derived hclass
  exact ⟨d + 1, hd.push rfl rfl⟩

theorem classBody (h : Between around Γ) (parent : Option Reference) :
    Between { around with inClass := classKind parent } (Γ.classBody parent) := by
  refine ⟨h.finished.classBody parent, fun _ => Γ.bindsThis_classBody parent, fun hclass => ?_⟩
  cases parent with
  | none => cases hclass
  | some r => exact ⟨0, Stack.bindsSuper_push_push Γ⟩

/-- The kind of the function around a place does not matter to the stack. -/
theorem inFunction (h : Between around Γ) (kind : FunctionKind) :
    Between { around with inFunction := kind } Γ :=
  ⟨h.finished, h.inClass, h.derived⟩

end Between

/-- The stack behind statements. -/
def afterAll (Γ : Stack Bool) : List Stmt → Stack Bool
  | [] => Γ
  | s :: rest => afterAll (Γ.after s) rest

/-- Statements leave the scopes around them as they are. -/
theorem afterAll_push (Γ : Stack Bool) (scope : Bindings Bool) (ss : List Stmt) :
    ∃ scope', afterAll (Γ.push scope) ss = Γ.push scope' := by
  induction ss generalizing scope with
  | nil => exact ⟨scope, rfl⟩
  | cons s rest ih =>
    rw [afterAll, Stack.after]
    cases s.declared? with
    | none => exact ih scope
    | some name => exact ih (scope.set name true)

variable {around : Surroundings} {Γ : Stack Bool}

theorem analyses_variableParent (hΓ : Between around Γ) (name : Token) (hname : Plain name.lexeme)
    (parent : Option Reference) {s : AnalysisState} (hs : s.stack = Γ.mark name.lexeme true) :
    Analyses (superclass around name parent) s (Γ.mark name.lexeme true)
      (parent.map Reference.node).toList
      (fun ρ => Reference.ResolvedParent ρ Γ name parent) := by
  cases parent with
  | none => exact (analyses_pure hs).mono fun _ _ => trivial
  | some r =>
    refine ((analyses_reportIf _ _ _ hs).bind
      fun _ => analyses_readVariable (hΓ.mark hname).expr r).mono fun ρ ⟨hother, hreads⟩ => ?_
    have hne : r.name ≠ name.lexeme := by simpa using hother
    refine ⟨hne, ⟨hreads.places.known, ?_⟩, ?_⟩
    · rw [hreads.places.depth, Stack.distance?_mark_of_ne hne.symm]
    · rw [← Stack.nearest?_mark_of_ne hne.symm true]
      exact hreads.finished

theorem analyses_inClassScopes {parent : Option Reference} {x : Analysis Unit} {s : AnalysisState}
    {nodes : List NodeId} {Q : Resolution → Prop} (hs : s.stack = Γ)
    (h : ∀ s', s'.stack = Γ.classBody parent → Analyses x s' (Γ.classBody parent) nodes Q) :
    Analyses (inClassScopes parent x) s Γ nodes Q := by
  cases parent with
  | none => exact analyses_inScope ["this"] hs h
  | some _ => exact analyses_inScope ["super"] hs fun _ hs' => analyses_inScope ["this"] hs' h

/-- Whether the assignments to local variables in their own values stand at nodes that may have
them. -/
def OwnsAll (ρ : Resolution) (targets : List Reference) : Prop :=
  ∀ r ∈ targets, ρ.own r.node = true

theorem ownsAll_append {ρ : Resolution} {targets more : List Reference} :
    OwnsAll ρ (targets ++ more) ↔ OwnsAll ρ targets ∧ OwnsAll ρ more :=
  List.forall_mem_append

/-- Between statements there is no unfinished variable. -/
theorem Between.owns (h : Between around Γ) {ρ : Resolution} (targets : List Reference) :
    Owns ρ Γ targets :=
  fun r _ hr => absurd hr (h.finished r.name)

/-- In the value of a local variable, it is the one that is unfinished. -/
theorem Between.owns_value (h : Between around Γ) {ρ : Resolution} {name : Token} {value : Expr}
    (howns : OwnsAll ρ (Stmt.ownAssignments Γ.isLocal (.varDecl name (some value)))) :
    Owns ρ (Γ.mark name.lexeme false) value.targets := by
  intro r hr hunfinished
  obtain ⟨hname, hinner⟩ := h.finished.eq_of_nearest?_mark hunfinished
  rw [hname, Stack.innermost?_mark_self] at hinner
  cases hlocal : Γ.isLocal with
  | false => simp [hlocal] at hinner
  | true =>
    refine howns r ?_
    simp [Stmt.ownAssignments, hlocal, hr, hname]

theorem analyses_returnKeyword (keyword : Token) (hasValue : Bool) {s : AnalysisState}
    (hs : s.stack = Γ) :
    Analyses (returnKeyword around keyword hasValue) s Γ []
      (fun _ => decide (around.inFunction ≠ .none) = true) :=
  ((analyses_reportIf _ _ _ hs).bind fun _ => analyses_reportIf _ _ _).mono
    fun _ h => by simpa using h.1

theorem methodKind_ne_none (f : Function) : methodKind f ≠ .none := by
  unfold methodKind
  split <;> decide

mutual

theorem analyses_stmt {around : Surroundings} {Γ : Stack Bool} (hΓ : Between around Γ) :
    ∀ (d : Stmt) (s : AnalysisState), d.WellFormed → s.stack = Γ →
      Analyses (stmt around d) s (Γ.after d) d.nodes fun ρ =>
        OwnsAll ρ (d.ownAssignments Γ.isLocal) →
          d.Resolved ρ (around.inFunction ≠ .none) Γ
  | .block body, s, hw, hs => by
    obtain ⟨scope, hscope⟩ := afterAll_push Γ [] body
    have hbody : ∀ s', s'.stack = Γ.push [] →
        Analyses (stmts around body) s' (Γ.push scope) (Stmt.nodesAll body) _ :=
      fun s' hs' => hscope ▸ analyses_stmts hΓ.block body s' hw hs'
    exact analyses_inScope [] hs hbody
  | .classDecl name parent members, s, ⟨hname, hparent, hmembers⟩, hs => by
    refine ((analyses_introduce name hs).bind fun _ hs' =>
      (analyses_variableParent hΓ name hname parent hs').bind fun _ hs'' =>
      analyses_inClassScopes hs'' fun s₃ hs₃ =>
      analyses_methods ((hΓ.mark hname).classBody parent) members s₃ hmembers hs₃).mono ?_
    rintro ρ ⟨hnew, hresolved, hmethods⟩ howns
    exact ⟨⟨hname, hnew⟩, hresolved, hmethods howns⟩
  | .expression e, s, hw, hs =>
    (analyses_expr hΓ.expr e s hw hs).mono fun _ h _ => h (hΓ.owns _)
  | .funDecl f, s, ⟨hname, hf⟩, hs => by
    refine ((analyses_introduce f.token hs).bind fun s' hs' =>
      analyses_function (hΓ.mark hname) .function (by decide) f s' hf hs').mono ?_
    rintro ρ ⟨hnew, hresolved⟩ howns
    exact ⟨⟨hname, hnew⟩, hresolved howns⟩
  | .ifElse condition thenBranch none, s, ⟨hcondition, hthen, hd⟩, hs => by
    have hbranch : ∀ s', s'.stack = Γ →
        Analyses (stmt around thenBranch) s' Γ thenBranch.nodes _ :=
      fun s' hs' => Stack.after_of_none (Γ := Γ) hd ▸ analyses_stmt hΓ thenBranch s' hthen hs'
    refine ((analyses_expr hΓ.expr condition s hcondition hs).bind hbranch).mono ?_
    rintro ρ ⟨hc, ht⟩ howns
    exact ⟨hc (hΓ.owns _), ht howns, hd⟩
  | .ifElse condition thenBranch (some elseBranch), s,
      ⟨hcondition, ⟨hthen, hd⟩, helse, hd'⟩, hs => by
    have hbranch : ∀ s', s'.stack = Γ →
        Analyses (stmt around thenBranch) s' Γ thenBranch.nodes _ :=
      fun s' hs' => Stack.after_of_none (Γ := Γ) hd ▸ analyses_stmt hΓ thenBranch s' hthen hs'
    have hbranch' : ∀ s', s'.stack = Γ →
        Analyses (stmt around elseBranch) s' Γ elseBranch.nodes _ :=
      fun s' hs' => Stack.after_of_none (Γ := Γ) hd' ▸ analyses_stmt hΓ elseBranch s' helse hs'
    refine ((analyses_expr hΓ.expr condition s hcondition hs).bind
      fun s' hs' => (hbranch s' hs').bind hbranch').mono ?_
    rintro ρ ⟨hc, ht, he⟩ howns
    obtain ⟨howns, howns'⟩ := ownsAll_append.mp howns
    exact ⟨hc (hΓ.owns _), ⟨ht howns, hd⟩, he howns', hd'⟩
  | .print e, s, hw, hs =>
    (analyses_expr hΓ.expr e s hw hs).mono fun _ h _ => h (hΓ.owns _)
  | .returnStmt keyword none, s, _, hs =>
    (analyses_returnKeyword keyword false hs).mono fun _ hreturns _ => ⟨hreturns, trivial⟩
  | .returnStmt keyword (some value), s, hw, hs =>
    ((analyses_returnKeyword keyword true hs).bind
      fun s' => analyses_expr hΓ.expr value s' hw).mono
      fun _ ⟨hreturns, hvalue⟩ _ => ⟨hreturns, hvalue (hΓ.owns _)⟩
  | .varDecl name none, s, ⟨hname, _⟩, hs =>
    (analyses_introduce name hs).mono fun _ hnew _ => ⟨⟨hname, hnew⟩, trivial⟩
  | .varDecl name (some value), s, ⟨hname, hw⟩, hs => by
    have h := (analyses_declare name hs).bind fun s' hs' =>
      (analyses_expr (hΓ.value hname) value s' hw hs').bind fun _ => analyses_define name
    rw [List.nil_append, List.append_nil] at h
    refine h.mono ?_
    rintro ρ ⟨hnew, hvalue, -⟩ howns
    exact ⟨⟨hname, hnew⟩, hvalue (hΓ.owns_value howns)⟩
  | .whileLoop condition body, s, ⟨hcondition, hbody, hd⟩, hs => by
    have hround : ∀ s', s'.stack = Γ → Analyses (stmt around body) s' Γ body.nodes _ :=
      fun s' hs' => Stack.after_of_none (Γ := Γ) hd ▸ analyses_stmt hΓ body s' hbody hs'
    refine ((analyses_expr hΓ.expr condition s hcondition hs).bind hround).mono ?_
    rintro ρ ⟨hc, hb⟩ howns
    exact ⟨hc (hΓ.owns _), hb howns, hd⟩

theorem analyses_stmts {around : Surroundings} {Γ : Stack Bool} (hΓ : Between around Γ) :
    ∀ (ds : List Stmt) (s : AnalysisState), Stmt.WellFormedAll ds → s.stack = Γ →
      Analyses (stmts around ds) s (afterAll Γ ds) (Stmt.nodesAll ds) fun ρ =>
        OwnsAll ρ (Stmt.ownAssignmentsAll Γ.isLocal ds) →
          Stmt.ResolvedAll ρ (around.inFunction ≠ .none) Γ ds
  | [], _, _, hs => (analyses_pure hs).mono fun _ _ _ => trivial
  | d :: rest, s, ⟨hd, hrest⟩, hs => by
    refine ((analyses_stmt hΓ d s hd hs).bind fun s' =>
      analyses_stmts (hΓ.after hd) rest s' hrest).mono ?_
    rintro ρ ⟨hfirst, hothers⟩ howns
    obtain ⟨howns, howns'⟩ := ownsAll_append.mp howns
    rw [← Stack.isLocal_after Γ d] at howns'
    exact ⟨hfirst howns, hothers howns'⟩

theorem analyses_function {around : Surroundings} {Γ : Stack Bool} (hΓ : Between around Γ)
    (kind : FunctionKind) (hkind : kind ≠ .none) :
    ∀ (f : Function) (s : AnalysisState), f.WellFormed → s.stack = Γ →
      Analyses (function around kind f) s Γ f.nodes fun ρ =>
        OwnsAll ρ f.ownAssignments → f.Resolved ρ Γ
  | .mk _ parameters body, s, ⟨hparameters, hbody⟩, hs => by
    have hnames : ∀ n ∈ parameters.map Token.lexeme, Plain n := by
      simpa only [List.forall_mem_map] using hparameters
    obtain ⟨scope, hscope⟩ := afterAll_push Γ
      (Bindings.setAll [] ((parameters.map Token.lexeme).map fun name => (name, true))) body
    rw [← Stack.markAll_push] at hscope
    have hstmts : ∀ s', s'.stack = (Γ.push []).markAll (parameters.map Token.lexeme) →
        Analyses (stmts { around with inFunction := kind } body) s' (Γ.push scope)
          (Stmt.nodesAll body) _ :=
      fun s' hs' =>
        hscope ▸ analyses_stmts ((hΓ.block.markAll hnames).inFunction kind) body s' hbody hs'
    have h := analyses_inScope [] hs fun s' hs' =>
      (analyses_introduceAll parameters rfl hs').bind hstmts
    refine h.mono ?_
    rintro ρ ⟨⟨hnodup, -⟩, hresolved⟩ howns
    refine ⟨hparameters, hnodup, ?_⟩
    have hreturns : decide (kind ≠ .none) = true := decide_eq_true hkind
    rw [Stack.isLocal_markAll] at hresolved
    rw [← hreturns]
    exact hresolved howns

theorem analyses_methods {around : Surroundings} {Γ : Stack Bool} (hΓ : Between around Γ) :
    ∀ (fs : List Function) (s : AnalysisState), Function.WellFormedAll fs → s.stack = Γ →
      Analyses (methods around fs) s Γ (Function.nodesAll fs) fun ρ =>
        OwnsAll ρ (Function.ownAssignmentsAll fs) → Function.ResolvedAll ρ Γ fs
  | [], _, _, hs => (analyses_pure hs).mono fun _ _ _ => trivial
  | f :: rest, s, ⟨hf, hrest⟩, hs => by
    refine ((analyses_function hΓ (methodKind f) (methodKind_ne_none f) f s hf hs).bind fun s' =>
      analyses_methods hΓ rest s' hrest).mono ?_
    rintro ρ ⟨hfirst, hothers⟩ howns
    obtain ⟨howns, howns'⟩ := ownsAll_append.mp howns
    exact ⟨hfirst howns, hothers howns'⟩

end

end Statements

end Analysis

/-- What the analysis of a program does. -/
structure AnalysedWell (depths : Depths) (program : List Stmt) : Prop where
  noFault : (analyse depths program).fault = none
  static : ∀ d ∈ (analyse depths program).diagnostics, d.phase = .static
  kept : ∀ node ∉ Stmt.nodesAll program,
    (analyse depths program).depths.depth? node = depths.depth? node
  resolves : (analyse depths program).diagnostics = [] → (Stmt.nodesAll program).Nodup →
    (∀ node ∈ Stmt.nodesAll program, depths.depth? node = none) →
    ∀ ρ, Resolution.Covers ρ (Stmt.nodesAll program) (analyse depths program).depths →
      Analysis.OwnsAll ρ (Stmt.ownAssignmentsAll false program) →
      Stmt.ResolvedAll ρ false .empty program

theorem analyse_spec (depths : Depths) (program : List Stmt) (hw : Stmt.WellFormedAll program) :
    AnalysedWell depths program := by
  have hbetween : Analysis.Between .topLevel .empty :=
    ⟨Stack.Finished.empty, fun hclass => absurd rfl hclass, nofun⟩
  obtain ⟨s', hx, -, hdone⟩ :=
    Analysis.analyses_stmts hbetween program ⟨.empty, depths, []⟩ hw rfl
  have hanalyse : analyse depths program = ⟨s'.depths, s'.diagnostics, none⟩ := by
    rw [analyse, hx]
  constructor
  · rw [hanalyse]
  · rw [hanalyse]
    obtain ⟨ds, hds, hstatic⟩ := hdone.reports
    rw [hds]
    exact hstatic
  · rw [hanalyse]
    exact hdone.kept
  · rw [hanalyse]
    exact hdone.resolves

end Scope
end LoxLang
