import LoxLang.Evaluation
import LoxLang.Proofs.Frames.Access
import LoxLang.Proofs.Renaming.Values
import LoxLang.Proofs.Steps

/-!
# Operations on renamed machines

**States.** A twin is a machine together with one that has come equally far with a renamed program.

**Steps.** `Agrees` says that two steps that start in a twin end in a twin, both with a value or
both with the same stop on the same line.  While they run, frames are added and bind further names,
and the active environment stays the same.

**Results.**
* `Agrees.bind`, `agrees_within`: steps one after another, and in another environment.
* `agrees_lookUp`, `agrees_store`, `agrees_superMethod`: references with recorded depths.
* `agrees_enclosed`, `agrees_bind`, `agrees_property`: frames, methods and properties.
-/

namespace LoxLang
namespace Renaming

open Scope Step Steps

/-- A machine and one that runs a renamed program. -/
structure Twin where
  /-- Whether the scopes of the frames are renamed. -/
  marks : List Bool
  machine : Machine
  other : Machine

/-- Whether both machines have come equally far. -/
def Twin.Renamed (ν : Renaming) (t : Twin) : Prop := t.machine.Renamed ν t.marks t.other

/-- The twin in another environment. -/
def Twin.inside (t : Twin) (env : Env) : Twin :=
  ⟨t.marks, { t.machine with env := env }, { t.other with env := env }⟩

/-- Whether the programs stand in scopes that are renamed as the marks say. -/
structure Twin.Stands (ν : Renaming) (t : Twin) (marks : List Bool) : Prop where
  renamed : t.Renamed ν
  env : t.machine.env.Marked t.marks marks

/-- What lies between two points of a run. -/
structure Leads (ν : Renaming) (t u : Twin) : Prop where
  renamed : u.Renamed ν
  marks : t.marks <+: u.marks
  grows : t.machine.frames.Grows u.machine.frames
  env : u.machine.env = t.machine.env

/-- Whether two steps end alike. -/
def Agrees {α γ : Type} (ν : Renaming) (x : Step α) (y : Step γ) (t : Twin)
    (P : α → γ → Twin → Prop) : Prop :=
  (∃ a c u, x t.machine = .ok a u.machine ∧ y t.other = .ok c u.other ∧ Leads ν t u ∧ P a c u) ∨
    ∃ stop u, x t.machine = .error stop u.machine ∧ y t.other = .error stop u.other ∧ Leads ν t u

section States

variable {ν : Renaming} {t u u' : Twin} {marks : List Bool} {w : List Bool} {m m' : Machine}

theorem Leads.refl (h : t.Renamed ν) : Leads ν t t := ⟨h, List.prefix_rfl, .refl _, rfl⟩

theorem Leads.trans (h : Leads ν t u) (h' : Leads ν u u') : Leads ν t u' :=
  ⟨h'.renamed, h.marks.trans h'.marks, h.grows.trans h'.grows, h'.env.trans h.env⟩

theorem Twin.Stands.lead (h : t.Stands ν marks) (hleads : Leads ν t u) : u.Stands ν marks :=
  ⟨hleads.renamed, hleads.env ▸ h.env.mono hleads.marks⟩

/-- The active environment does not count. -/
theorem Twin.Renamed.inside (h : t.Renamed ν) (env : Env) : (t.inside env).Renamed ν :=
  { h with env := rfl }

/-- Frames may change alone. -/
theorem Twin.Renamed.withFrames (h : t.Renamed ν) (hw : t.marks <+: w) {fs fs' : Frames Value}
    (hframes : fs.Renamed ν w fs') :
    Twin.Renamed ν ⟨w, { t.machine with frames := fs }, { t.other with frames := fs' }⟩ :=
  { h with
    frames := hframes
    fields := fun address => (h.fields address).mono fun _ _ hv => Value.Renamed.grow hv hw
    kept := getElem?_of_isPrefix hw h.kept }

end States

section Composition

variable {α α' γ γ' : Type} {ν : Renaming} {t u : Twin} {x : Step α} {y : Step γ}
  {P Q : α → γ → Twin → Prop}

theorem agrees_of_ok {a : α} {c : γ} (hx : x t.machine = .ok a u.machine)
    (hy : y t.other = .ok c u.other) (hleads : Leads ν t u) (hP : P a c u) :
    Agrees ν x y t P :=
  Or.inl ⟨a, c, u, hx, hy, hleads, hP⟩

theorem agrees_of_error {stop : Stop} (hx : x t.machine = .error stop u.machine)
    (hy : y t.other = .error stop u.other) (hleads : Leads ν t u) : Agrees ν x y t P :=
  Or.inr ⟨stop, u, hx, hy, hleads⟩

theorem agrees_pure (h : t.Renamed ν) {a : α} {c : γ} (hP : P a c t) :
    Agrees ν (pure a) (pure c) t P :=
  agrees_of_ok rfl rfl (.refl h) hP

theorem agrees_throw (h : t.Renamed ν) (stop : Stop) :
    Agrees ν (throw stop : Step α) (throw stop : Step γ) t P :=
  agrees_of_error rfl rfl (.refl h)

theorem Agrees.congr {x' : Step α} {y' : Step γ} (hx : x t.machine = x' t.machine)
    (hy : y t.other = y' t.other) (h : Agrees ν x' y' t P) : Agrees ν x y t P := by
  unfold Agrees at h ⊢
  rwa [hx, hy]

theorem Agrees.mono (h : Agrees ν x y t P) (hPQ : ∀ a c u, Leads ν t u → P a c u → Q a c u) :
    Agrees ν x y t Q := by
  rcases h with ⟨a, c, u, hx, hy, hleads, hP⟩ | ⟨stop, u, hx, hy, hleads⟩
  · exact agrees_of_ok hx hy hleads (hPQ a c u hleads hP)
  · exact agrees_of_error hx hy hleads

/-- Steps one after another. -/
theorem Agrees.bind {f : α → Step α'} {g : γ → Step γ'} {Q : α' → γ' → Twin → Prop}
    (h : Agrees ν x y t P)
    (hnext : ∀ a c u, Leads ν t u → P a c u → Agrees ν (f a) (g c) u Q) :
    Agrees ν (x >>= f) (y >>= g) t Q := by
  rcases h with ⟨a, c, u, hx, hy, hleads, hP⟩ | ⟨stop, u, hx, hy, hleads⟩
  · rcases hnext a c u hleads hP with
      ⟨a', c', u', hf, hg, hleads', hQ⟩ | ⟨stop, u', hf, hg, hleads'⟩
    · exact agrees_of_ok ((bind_apply_of_ok hx).trans hf) ((bind_apply_of_ok hy).trans hg)
        (hleads.trans hleads') hQ
    · exact agrees_of_error ((bind_apply_of_ok hx).trans hf) ((bind_apply_of_ok hy).trans hg)
        (hleads.trans hleads')
  · exact agrees_of_error (bind_apply_of_error hx) (bind_apply_of_error hy) hleads

/-- A look at the machine in front of a step. -/
theorem agrees_get {k : Machine → Step α} {l : Machine → Step γ}
    (h : Agrees ν (k t.machine) (l t.other) t P) : Agrees ν (get >>= k) (get >>= l) t P :=
  h.congr rfl rfl

/-- Steps in another environment. -/
theorem agrees_within {env : Env} (ht : t.Renamed ν) (h : Agrees ν x y (t.inside env) P)
    (hQ : ∀ a c u, P a c u → Q a c (u.inside t.machine.env)) :
    Agrees ν (within env x) (within env y) t Q := by
  have hback (u : Twin) (hu : Leads ν (t.inside env) u) : Leads ν t (u.inside t.machine.env) :=
    ⟨hu.renamed.inside _, hu.marks, hu.grows, rfl⟩
  have henv : t.other.env = t.machine.env := ht.env
  rcases h with ⟨a, c, u, hx, hy, hleads, hP⟩ | ⟨stop, u, hx, hy, hleads⟩
  · have hx : x { t.machine with env := env } = .ok a u.machine := hx
    have hy : y { t.other with env := env } = .ok c u.other := hy
    exact agrees_of_ok (u := u.inside t.machine.env) (by rw [Step.within, hx]; rfl)
      (by rw [Step.within, hy, henv]; rfl) (hback u hleads) (hQ a c u hP)
  · have hx : x { t.machine with env := env } = .error stop u.machine := hx
    have hy : y { t.other with env := env } = .error stop u.other := hy
    exact agrees_of_error (u := u.inside t.machine.env) (by rw [Step.within, hx]; rfl)
      (by rw [Step.within, hy, henv]; rfl) (hback u hleads)

/-- The answers of an operator, if they are the same. -/
theorem agrees_ofAnswer (h : t.Renamed ν) {answer : Except Stop α} {answer' : Except Stop γ}
    (hanswers : (∃ stop, answer = .error stop ∧ answer' = .error stop) ∨
      ∃ a c, answer = .ok a ∧ answer' = .ok c ∧ P a c t) :
    Agrees ν (ofAnswer answer) (ofAnswer answer') t P := by
  rcases hanswers with ⟨stop, rfl, rfl⟩ | ⟨a, c, rfl, rfl, hP⟩
  · exact agrees_throw h stop
  · exact agrees_pure h hP

end Composition

section Variables

variable {ν : Renaming} {t : Twin} {env : Env} {marks : List Bool} {name : String} {v v' : Value}

/-- Binding a name in a frame. -/
theorem leads_define (h : t.Renamed ν) {frame : FrameId} {mark : Bool}
    (hmark : t.marks[frame]? = some mark) (hname : name ≠ ν.new) (hv : v.Renamed ν t.marks v') :
    Leads ν t ⟨t.marks, { t.machine with frames := t.machine.frames.define frame name v },
      { t.other with frames := t.other.frames.define frame (ν.name mark name) v' }⟩ :=
  ⟨h.withFrames List.prefix_rfl (h.frames.define hmark hname hv), List.prefix_rfl,
    .define _ (h.frames.lt hmark) name v, rfl⟩

/-- A name that is declared is bound in the active frame. -/
theorem agrees_define (h : t.Stands ν marks) (hname : name ≠ ν.new)
    (hv : v.Renamed ν t.marks v') :
    Agrees ν (define name v) (define (ν.name (innerMark marks) name) v') t
      fun _ _ u => u.machine.frames.binds u.machine.env.frame name = true := by
  have hframe : t.other.env.frame = t.machine.env.frame := congrArg Env.frame h.renamed.env
  have hmark := h.env.innermost
  refine agrees_of_ok (a := ()) (c := ()) rfl ?_ (leads_define h.renamed hmark hname hv)
    (Frames.binds_define_self _ (h.renamed.frames.lt hmark) name v)
  rw [define, hframe]

/-- The value of a name some links out. -/
theorem agrees_readAt (h : t.Renamed ν) (henv : env.Marked t.marks marks) (distance : Int)
    (hname : name ≠ ν.new) :
    Agrees ν (readAt env distance name)
      (readAt env distance (ν.name (marks[distance.toNat]?.getD false) name)) t
      fun v v' u => v.Renamed ν u.marks v' := by
  have hpeel : Agrees ν (ofExcept (t.machine.frames.getAt env distance name))
      (ofExcept (t.other.frames.getAt env distance
        (ν.name (marks[distance.toNat]?.getD false) name))) t
      fun v v' u => v.Renamed ν u.marks v' := by
    unfold Frames.getAt
    cases hframe : env.ancestor distance with
    | error f => exact agrees_throw h _
    | ok frame =>
      dsimp only
      rcases h.frames.lookup? (henv.ancestor hframe) hname with ⟨hv, hv'⟩ | ⟨v, v', hv, hv', hvv'⟩
      · rw [hv, hv']
        exact agrees_throw h _
      · rw [hv, hv']
        exact agrees_pure h hvv'
  exact hpeel.congr rfl rfl

/-- Reading in the active environment. -/
theorem agrees_readLocal (h : t.Renamed ν) {distance : Int} {name' : String}
    (hread : Agrees ν (readAt t.machine.env distance name) (readAt t.machine.env distance name') t
      fun v v' u => v.Renamed ν u.marks v') :
    Agrees ν (readLocal distance name) (readLocal distance name') t
      fun v v' u => v.Renamed ν u.marks v' := by
  have henv : t.other.env = t.machine.env := h.env
  refine hread.congr rfl ?_
  rw [← henv]
  rfl

/-- A keyword is not renamed, whatever scope it leads to. -/
theorem agrees_readKeyword (hν : ν.Proper) (h : t.Renamed ν) (henv : env.Marked t.marks marks)
    (distance : Int) (hname : ¬ Plain name) :
    Agrees ν (readAt env distance name) (readAt env distance name) t
      fun v v' u => v.Renamed ν u.marks v' := by
  have hne {other : String} (hother : Plain other) : name ≠ other := by
    rintro rfl
    exact hname hother
  have hread := agrees_readAt h henv distance (hne hν.new)
  rwa [ν.name_of_ne _ (hne hν.old)] at hread

/-- A global name is not renamed. -/
theorem agrees_readGlobal (h : t.Renamed ν) {r : Token} (hname : r.lexeme ≠ ν.new) :
    Agrees ν (readGlobal r) (readGlobal r) t fun v v' u => v.Renamed ν u.marks v' := by
  have hglobals : t.other.globals = t.machine.globals := h.globals
  have hlookup := h.frames.lookup? h.kept hname
  rw [name_false, ← Frames.get?_root, ← Frames.get?_root] at hlookup
  have hroot : Agrees ν (readNearest (Env.root t.machine.globals) r)
      (readNearest (Env.root t.machine.globals) r) t fun v v' u => v.Renamed ν u.marks v' := by
    rcases hlookup with ⟨hv, hv'⟩ | ⟨v, v', hv, hv', hvv'⟩
    · exact agrees_of_error (readNearest_of_none hv) (readNearest_of_none hv') (.refl h)
    · exact agrees_of_ok (readNearest_of_some hv) (readNearest_of_some hv') (.refl h) hvv'
  refine hroot.congr rfl ?_
  rw [← hglobals]
  rfl

/-- Binding a name anew some links out. -/
theorem agrees_assignLocal (h : t.Stands ν marks) (distance : Int) (hname : name ≠ ν.new)
    (hv : v.Renamed ν t.marks v') :
    Agrees ν (assignLocal distance name v)
      (assignLocal distance (ν.name (marks[distance.toNat]?.getD false) name) v') t
      fun _ _ _ => True := by
  have henv : t.other.env = t.machine.env := h.renamed.env
  have hassign : Agrees ν (assignAt t.machine.env distance name v)
      (assignAt t.machine.env distance (ν.name (marks[distance.toNat]?.getD false) name) v') t
      fun _ _ _ => True := by
    unfold assignAt
    cases hframe : t.machine.env.ancestor distance with
    | error f => exact agrees_throw h.renamed _
    | ok frame =>
      exact agrees_of_ok rfl rfl
        (leads_define h.renamed (h.env.ancestor hframe) hname hv) trivial
  refine hassign.congr rfl ?_
  rw [← henv]
  rfl

/-- Binding a global name anew. -/
theorem agrees_assignGlobal (h : t.Renamed ν) {r : Token} (hname : r.lexeme ≠ ν.new)
    (hv : v.Renamed ν t.marks v') :
    Agrees ν (assignGlobal r v) (assignGlobal r v') t fun _ _ _ => True := by
  have hglobals : t.other.globals = t.machine.globals := h.globals
  have hbinds := h.frames.binds h.kept hname
  rw [name_false] at hbinds
  have hroot : Agrees ν (assignNearest (Env.root t.machine.globals) r v)
      (assignNearest (Env.root t.machine.globals) r v') t fun _ _ _ => True := by
    cases hbound : t.machine.frames.binds t.machine.globals r.lexeme with
    | true =>
      have hleads := leads_define h h.kept hname hv
      rw [name_false] at hleads
      exact agrees_of_ok (assignNearest_of_home (by rw [Frames.home?_root, hbound, if_pos rfl]) v)
        (assignNearest_of_home (by rw [Frames.home?_root, hbinds, hbound, if_pos rfl]) v') hleads
        trivial
    | false =>
      exact agrees_of_error (assignNearest_of_none (by rw [Frames.home?_root, hbound]; rfl) v)
        (assignNearest_of_none (by rw [Frames.home?_root, hbinds, hbound]; rfl) v') (.refl h)
  refine hroot.congr rfl ?_
  rw [← hglobals]
  rfl

/-- Binding a name anew that the active frame binds. -/
theorem agrees_assignDeclared (h : t.Stands ν marks) {r : Token} (hname : r.lexeme ≠ ν.new)
    (hbound : t.machine.frames.binds t.machine.env.frame r.lexeme = true)
    (hv : v.Renamed ν t.marks v') :
    Agrees ν (assignNearest t.machine.env r v)
      (assignNearest t.machine.env (ν.token (innerMark marks) r) v') t fun _ _ _ => True := by
  have hmark := h.env.innermost
  have hbound' := h.renamed.frames.binds hmark hname
  rw [hbound] at hbound'
  exact agrees_of_ok (assignNearest_of_home (Frames.home?_of_binds hbound) v)
    (assignNearest_of_home (Frames.home?_of_binds hbound') v')
    (leads_define h.renamed hmark hname hv) trivial

end Variables

section Objects

variable {ν : Renaming} {t : Twin} {env : Env} {marks : List Bool} {v v' : Value}

/-- A new frame. -/
theorem agrees_enclosed (h : t.Renamed ν) (henv : env.Marked t.marks marks) (mark : Bool)
    {b b' : Bindings Value} (hb : b.Renamed ν t.marks mark b') :
    Agrees ν (enclosed env b) (enclosed env b') t
      fun e e' u => e' = e ∧ e.Marked u.marks (mark :: marks) := by
  have hw : t.marks <+: t.marks ++ [mark] := List.prefix_append _ _
  have hsize : t.other.frames.size = t.machine.frames.size :=
    h.frames.size'.trans h.frames.size.symm
  have hmark : (t.marks ++ [mark])[t.machine.frames.size]? = some mark := by
    rw [h.frames.size]
    simp
  exact agrees_of_ok
    (u := ⟨t.marks ++ [mark], { t.machine with frames := t.machine.frames.create b },
      { t.other with frames := t.other.frames.create b' }⟩) rfl rfl
    ⟨h.withFrames hw (h.frames.create mark hb), hw, .create _ b, rfl⟩
    ⟨congrArg env.enter hsize, (henv.mono hw).enter hmark⟩

/-- The next number is the same on both sides. -/
theorem agrees_freshId (h : t.Renamed ν) :
    Agrees ν freshId freshId t fun id id' _ => id' = id := by
  have hid : t.other.nextId = t.machine.nextId := h.nextId
  exact agrees_of_ok
    (u := ⟨t.marks, { t.machine with nextId := t.machine.nextId + 1 },
      { t.other with nextId := t.other.nextId + 1 }⟩) rfl rfl
    ⟨{ h with nextId := congrArg (· + 1) hid }, List.prefix_rfl, .refl _, rfl⟩ hid

/-- A function that captures an environment. -/
theorem agrees_closure (h : t.Renamed ν) (henv : env.Marked t.marks marks) (awaited : List Bool)
    (χ : Choice) {f : Function} (hmade : f.MadeOf ν.Spares) (hdistinct : f.Distinct)
    (isInit : Bool) :
    Agrees ν (closure f env isInit) (closure (f.rename ν (awaited ++ marks) χ) env isInit) t
      fun c c' u => c.Renamed ν u.marks awaited c' := by
  refine (agrees_freshId h).bind ?_
  rintro id _ u hleads rfl
  exact agrees_pure hleads.renamed
    ⟨rfl, rfl, rfl, hmade, hdistinct, marks, χ, henv.mono hleads.marks, rfl⟩

/-- The frame of a receiver or a superclass is not renamed. -/
theorem renamed_singleton {w : List Bool} (name : String) (hv : v.Renamed ν w v') :
    Bindings.Renamed ν w false [(name, v)] [(name, v')] :=
  .cons ⟨rfl, hv⟩ .nil

/-- A bound method can be called. -/
theorem agrees_bind (h : t.Renamed ν) {f f' : Closure} (hf : Closure.Waiting.Renamed ν t.marks f f')
    (hv : v.Renamed ν t.marks v') :
    Agrees ν (Step.bind f v) (Step.bind f' v') t
      fun g g' u => Closure.Ready.Renamed ν u.marks g g' := by
  obtain ⟨marks, χ, hmarks, hrename⟩ := hf.exists_marks
  unfold Step.bind
  rw [hf.env, hf.isInit, hrename]
  refine (agrees_enclosed h hmarks false (renamed_singleton receiverName hv)).bind ?_
  rintro e _ u hleads ⟨rfl, he⟩
  exact agrees_closure hleads.renamed he [] χ hf.made hf.distinct f.isInit

theorem agrees_instantiate (h : t.Renamed ν) {c c' : Class} (hc : c.Renamed ν t.marks c') :
    Agrees ν (instantiate c) (instantiate c') t fun v v' u => v.Renamed ν u.marks v' := by
  have hcount : t.other.fields.size = t.machine.fields.size := h.fieldCount
  have hrenamed : Twin.Renamed ν ⟨t.marks, { t.machine with fields := t.machine.fields.push [] },
      { t.other with fields := t.other.fields.push [] }⟩ := by
    refine { h with fieldCount := ?_, fields := fun address => ?_ }
    · simp [hcount]
    · simp only [Array.getElem?_push, hcount]
      split
      · exact Bindings.alike_nil _
      · exact h.fields address
  refine agrees_of_ok rfl rfl ⟨hrenamed, List.prefix_rfl, .refl _, rfl⟩ ?_
  rw [hcount]
  exact .instanceObject _ hc

/-- A property is a field or a bound method. -/
theorem agrees_property (h : t.Renamed ν) (hv : v.Renamed ν t.marks v') (name : Token) :
    Agrees ν (property v name) (property v' name) t fun v v' u => v.Renamed ν u.marks v' := by
  have hobject := hv
  cases hv with
  | @instanceObject address c c' hc =>
    refine agrees_get ?_
    rcases (h.fields address).get? name.lexeme with ⟨hf, hf'⟩ | ⟨v, v', hf, hf', hvv'⟩
    · rw [hf, hf']
      dsimp only
      rcases hc.findMethod? name.lexeme with ⟨hg, hg'⟩ | ⟨g, g', hg, hg', hgg'⟩
      · rw [hg, hg']
        exact agrees_throw h _
      · rw [hg, hg']
        refine (agrees_bind h hgg' hobject).bind fun f f' u hleads hff' => ?_
        exact agrees_pure hleads.renamed (.function hff')
    · rw [hf, hf']
      exact agrees_pure h hvv'
  | _ => exact agrees_throw h _

theorem agrees_fieldsOf (h : t.Renamed ν) (hv : v.Renamed ν t.marks v') (name : Token) :
    Agrees ν (fieldsOf v name) (fieldsOf v' name) t fun address address' _ =>
      address' = address := by
  cases hv with
  | instanceObject address => exact agrees_pure h rfl
  | _ => exact agrees_throw h _

theorem agrees_setField (h : t.Renamed ν) (address : Nat) (name : String)
    (hv : v.Renamed ν t.marks v') :
    Agrees ν (setField address name v) (setField address name v') t fun _ _ _ => True := by
  have hcount : t.other.fields.size = t.machine.fields.size := h.fieldCount
  have hrenamed : Twin.Renamed ν ⟨t.marks,
      { t.machine with fields := t.machine.fields.modify address fun b => b.set name v },
      { t.other with fields := t.other.fields.modify address fun b => b.set name v' }⟩ := by
    refine { h with fieldCount := ?_, fields := fun other => ?_ }
    · simp [hcount]
    · rw [getD_modify, getD_modify, hcount]
      split
      · exact (h.fields other).set name hv
      · exact h.fields other
  exact agrees_of_ok rfl rfl ⟨hrenamed, List.prefix_rfl, .refl _, rfl⟩ trivial

/-- The methods of a class declaration wait for their receivers. -/
theorem agrees_methods (h : t.Stands ν marks) (χ : Choice) (i : Nat) {members : List Function}
    (hmade : Function.MadeOfAll ν.Spares members) (hdistinct : Function.DistinctAll members)
    {done done' : Bindings Closure}
    (hdone : Bindings.Alike (Closure.Waiting.Renamed ν t.marks) done done') :
    Agrees ν (methods members done)
      (methods (Function.renameAll ν (false :: marks) χ i members) done') t
      fun b b' u => Bindings.Alike (Closure.Waiting.Renamed ν u.marks) b b' := by
  induction members generalizing t i done done' with
  | nil => exact agrees_pure h.renamed hdone
  | cons f rest ih =>
    have henv : t.other.env = t.machine.env := h.renamed.env
    simp only [Function.renameAll, methods, Function.name_rename]
    refine agrees_get ?_
    rw [henv]
    refine (agrees_closure h.renamed h.env [false] (χ.part i) hmade.1 hdistinct.1 _).bind
      fun c c' u hleads hc => ?_
    exact ih (h.lead hleads) (i + 1) hmade.2 hdistinct.2
      ((hdone.mono fun _ _ hf => hf.mono hleads.marks).set f.name hc)

end Objects

section Effects

variable {ν : Renaming} {t : Twin} {v v' l l' : Value}

theorem agrees_print (h : t.Renamed ν) (line : String) :
    Agrees ν (print line) (print line) t fun _ _ _ => True := by
  have houtput : t.other.output = t.machine.output := h.output
  exact agrees_of_ok
    (u := ⟨t.marks, { t.machine with output := t.machine.output ++ line ++ "\n" },
      { t.other with output := t.other.output ++ line ++ "\n" }⟩) rfl rfl
    ⟨{ h with output := congrArg (· ++ line ++ "\n") houtput }, List.prefix_rfl, .refl _, rfl⟩
    trivial

theorem agrees_callNative (h : t.Renamed ν) (n : Native) (arguments arguments' : List Value) :
    Agrees ν (callNative n arguments) (callNative n arguments') t
      fun v v' u => v.Renamed ν u.marks v' := by
  have htime : t.other.time = t.machine.time := h.time
  obtain ⟨id, arity, body⟩ := n
  cases body with
  | clock =>
    refine agrees_of_ok
      (u := ⟨t.marks, { t.machine with time := t.machine.time + 1 },
        { t.other with time := t.other.time + 1 }⟩) rfl rfl
      ⟨{ h with time := congrArg (· + 1) htime }, List.prefix_rfl, .refl _, rfl⟩ ?_
    rw [htime]
    exact .number _
  | host handle =>
    have hnil {m : Machine} (hm : m.hosts = #[]) (vs : List Value) :
        callNative ⟨id, arity, .host handle⟩ vs m = .ok .nil m := by
      simp [callNative, hm]
    exact agrees_of_ok (hnil h.hosts _) (hnil h.hosts' _) (.refl h) .nil

theorem agrees_constant (h : t.Renamed ν) (c : Constant) :
    Agrees ν (pure (.ofConstant c) : Step Value) (pure (.ofConstant c) : Step Value) t
      fun v v' u => v.Renamed ν u.marks v' :=
  agrees_pure h (Value.like_ofConstant c)

/-- The answer of an operator is a constant. -/
theorem agrees_answer (h : t.Renamed ν) {answer answer' : Except Stop Constant}
    (hanswer : answer = answer') :
    Agrees ν (ofAnswer answer >>= fun c => pure (Value.ofConstant c))
      (ofAnswer answer' >>= fun c => pure (Value.ofConstant c)) t
      fun v v' u => v.Renamed ν u.marks v' := by
  subst hanswer
  cases answer with
  | error stop => exact agrees_throw h stop
  | ok c => exact agrees_constant h c

theorem agrees_binary (h : t.Renamed ν) (operator : Token) (hv : v.Renamed ν t.marks v')
    (hl : l.Renamed ν t.marks l') :
    Agrees ν (binary operator v l) (binary operator v' l') t
      fun v v' u => v.Renamed ν u.marks v' :=
  agrees_answer h (Operator.binary_like operator hv hl fun _ _ hf => hf.same)

theorem agrees_unary (h : t.Renamed ν) (operator : Token) (hv : v.Renamed ν t.marks v') :
    Agrees ν (unary operator v) (unary operator v') t fun v v' u => v.Renamed ν u.marks v' :=
  agrees_answer h (Operator.unary_like operator hv)

theorem agrees_callee (h : t.Renamed ν) (paren : Token) (hv : v.Renamed ν t.marks v')
    {vs vs' : List Value} (hvs : List.Forall₂ (Value.Renamed ν t.marks) vs vs') :
    Agrees ν (callee paren v vs) (callee paren v' vs') t fun c c' u => c.Renamed ν u.marks c' := by
  refine agrees_ofAnswer h ?_
  rcases Operator.callee_like paren hv hvs.length_eq (fun _ _ hf => hf.same) fun _ _ hf => hf.same
    with hstop | ⟨c, c', hc, hc', hcc', -⟩
  · exact Or.inl hstop
  · exact Or.inr ⟨c, c', hc, hc', hcc'⟩

end Effects

section References

variable {ν : Renaming} {t : Twin} {marks : List Bool} {depths : Depths} {r : Reference}
  {v v' : Value}

/-- Whether renamed references have the recorded depths of the references. -/
def KeepsDepths (ν : Renaming) (depths : Depths) : Prop :=
  ∀ node, depths.depth? (ν.node node) = ν.depths.depth? node

/-- A reference is renamed with the scope that it leads to. -/
theorem reaches_of_depth {distance : Int} (h : ν.depths.depth? r.node = some distance) :
    ν.reaches marks r = marks[distance.toNat]?.getD false := by
  rw [reaches, h]

/-- A global reference is not renamed. -/
theorem reference_of_global (h : ν.depths.depth? r.node = none) :
    (ν.reference marks r).token = r.token := by
  rw [reference, reaches, h, token_false]

theorem agrees_lookUp (hdepths : ν.KeepsDepths depths) (h : t.Stands ν marks)
    (hname : r.name ≠ ν.new) :
    Agrees ν (Evaluation.lookUp ν.depths r) (Evaluation.lookUp depths (ν.reference marks r)) t
      fun v v' u => v.Renamed ν u.marks v' := by
  unfold Evaluation.lookUp
  rw [node_reference, hdepths r.node]
  cases hdepth : ν.depths.depth? r.node with
  | none =>
    rw [reference_of_global hdepth]
    exact agrees_readGlobal h.renamed hname
  | some distance =>
    rw [name_reference, reaches_of_depth hdepth]
    exact agrees_readLocal h.renamed (agrees_readAt h.renamed h.env distance hname)

theorem agrees_store (hdepths : ν.KeepsDepths depths) (h : t.Stands ν marks)
    (hname : r.name ≠ ν.new) (hv : v.Renamed ν t.marks v') :
    Agrees ν (Evaluation.store ν.depths r v) (Evaluation.store depths (ν.reference marks r) v') t
      fun _ _ _ => True := by
  unfold Evaluation.store
  rw [node_reference, hdepths r.node]
  cases hdepth : ν.depths.depth? r.node with
  | none =>
    rw [reference_of_global hdepth]
    exact agrees_assignGlobal h.renamed hname hv
  | some distance =>
    rw [name_reference, reaches_of_depth hdepth]
    exact agrees_assignLocal h distance hname hv

theorem agrees_superMethod (hν : ν.Proper) (hdepths : ν.KeepsDepths depths)
    (h : t.Stands ν marks) (keyword : Reference) (method : Token) :
    Agrees ν (Evaluation.superMethod ν.depths keyword method)
      (Evaluation.superMethod depths (ν.keyword keyword) method) t
      fun v v' u => v.Renamed ν u.marks v' := by
  unfold Evaluation.superMethod
  rw [node_keyword, hdepths keyword.node]
  cases ν.depths.depth? keyword.node with
  | none => exact agrees_throw h.renamed _
  | some distance =>
    refine (agrees_readLocal h.renamed (agrees_readKeyword hν h.renamed h.env distance
      (by simp [Plain, superclassName]))).bind fun parent parent' u hleads hparent => ?_
    have hu := h.lead hleads
    refine (agrees_readLocal hu.renamed (agrees_readKeyword hν hu.renamed hu.env (distance - 1)
      (by simp [Plain, receiverName]))).bind fun receiver receiver' u' hleads' hreceiver => ?_
    have hobject := hreceiver
    have hparent := hparent.grow hleads'.marks
    cases hparent with
    | classObject hc =>
      cases hreceiver with
      | instanceObject address =>
        dsimp only
        rcases hc.findMethod? method.lexeme with ⟨hf, hf'⟩ | ⟨f, f', hf, hf', hff'⟩
        · rw [hf, hf']
          exact agrees_throw hleads'.renamed _
        · rw [hf, hf']
          refine (agrees_bind hleads'.renamed hff' hobject).bind fun g g' u'' hleads'' hgg' => ?_
          exact agrees_pure hleads''.renamed (.function hgg')
      | _ => exact agrees_throw hleads'.renamed _
    | _ => exact agrees_throw hleads'.renamed _

end References
end Renaming
end LoxLang
