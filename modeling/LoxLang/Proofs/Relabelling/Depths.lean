import LoxLang.Proofs.Relabelling.Evaluation
import LoxLang.Proofs.Relabelling.Sites
import Mathlib.Logic.Encodable.Basic

/-!
# Depths as labels

**Coding.** Instead of a number under which its depth is recorded, a reference can have a number
that is the code of its depth.  A coded program needs no table (`Access.told`), and does on a coded
machine what the program does with its table.  Programs of one outline whose references are equally
deep have the same code, and so do the same, wherever their references are recorded.

**Later tables.** A machine that a program was executed on refers to depths that were recorded then.
A table that keeps them and goes on with further references gives the machine the same code
(`relabel_coded_of_run`), because no reference of another program has come to it.

**Results.**
* `commutes_coded`: a coded program on a coded machine.
* `program_joined`: executing a program behind another one, with two tables or with one.
-/

namespace LoxLang
namespace Relabelling

open Scope Step Steps Evaluation

section Coding

/-- References have the codes of their depths for numbers, and all tokens are on line zero. -/
def coded (d : Depths) : Relabelling :=
  ⟨fun node => Encodable.encode (d.depth? node), fun _ => 0⟩

/-- A table with the depth that a number is the code of. -/
def told (code : NodeId) : Depths :=
  match Encodable.decode (α := Option Int) code with
  | some (some depth) => .record .empty .read ⟨code, .bare .endOfInput "" 0⟩ depth
  | _ => .empty

theorem depth?_told (d : Depths) (node : NodeId) :
    (told ((coded d).node node)).depth? ((coded d).node node) = d.depth? node := by
  unfold told coded
  rw [Encodable.encodek]
  cases d.depth? node with
  | none => rfl
  | some depth => simp [Depths.depth?_record]

/-- The access by depths that are told by the references themselves. -/
def Access.told : Access where
  lookUp r := Evaluation.lookUp (Relabelling.told r.node) r
  store r := Evaluation.store (Relabelling.told r.node) r
  superMethod keyword := Evaluation.superMethod (Relabelling.told keyword.node) keyword

/-- A coded program on a coded machine does what the program does with its table. -/
theorem commutes_coded (d : Depths) (before : String) (n : Nat) (ss : List Stmt) :
    Commutes (coded d) before id (program (.recorded d) n ss)
      (program Access.told n (Stmt.relabelAll (coded d) ss)) :=
  commutes_program
    { lookUp := fun r => commutes_lookUp (depth?_told d r.node)
      store := fun r => commutes_store (depth?_told d r.node)
      superMethod := fun keyword => commutes_superMethod (depth?_told d keyword.node) } n ss

end Coding

section Tables

variable {d d' : Depths} {n : Nat} {ss : List Stmt} {m : Machine} {next limit : NodeId}

theorem relabel_initial (φ : Relabelling) : Machine.initial.relabel φ "" = .initial := by
  simp [Machine.relabel, Machine.initial, Machine.withFreshGlobals, Frames.relabel, Frames.create,
    Frames.empty, Bindings.relabel, Bindings.mapValues, Value.relabel]

/-- Keeps the numbers below a limit, and has one number for all others. -/
def clamp (next limit : NodeId) : Relabelling :=
  ⟨fun node => if node < next then node else limit, fun line => line⟩

/-- A machine refers to the nodes of the program that was executed on it only. -/
theorem relabel_clamp_of_run (hss : ∀ node ∈ Stmt.nodesAll ss, node < next)
    (hnew : ∀ node, next ≤ node → d.depth? node = none) (hlimit : next ≤ limit)
    (hrun : program (.recorded d) n ss .initial = .ok () m) :
    m.relabel (clamp next limit) "" = m := by
  have hkept : Stmt.relabelAll (clamp next limit) ss = ss :=
    Stmt.relabelAll_eq_self (fun node hnode => if_pos (hss node hnode)) rfl
  have hdepths (node : NodeId) : d.depth? ((clamp next limit).node node) = d.depth? node := by
    by_cases h : node < next
    · simp [clamp, h]
    · simp [clamp, h, hnew node (Nat.not_lt.mp h), hnew limit hlimit]
  have hobeys : Obeys (clamp next limit) "" (.recorded d) (.recorded d) := obeys_recorded hdepths
  have hrelabelled := (commutes_program hobeys n ss .initial rfl).1
  rw [hkept, relabel_initial, hrun] at hrelabelled
  exact ((EStateM.Result.ok.inj hrelabelled).2).symm

/-- A later table gives a machine the same code. -/
theorem relabel_coded_of_run (hss : ∀ node ∈ Stmt.nodesAll ss, node < next)
    (hnew : ∀ node, next ≤ node → d.depth? node = none)
    (hagree : ∀ node, node < next → d'.depth? node = d.depth? node) (hlimit : next ≤ limit)
    (hnone : d'.depth? limit = none) (hrun : program (.recorded d) n ss .initial = .ok () m)
    (before : String) : m.relabel (coded d') before = m.relabel (coded d) before := by
  have hclamp := relabel_clamp_of_run hss hnew hlimit hrun
  have hcodes : (coded d').after (clamp next limit) = (coded d).after (clamp next limit) := by
    have hnode (node : NodeId) :
        d'.depth? ((clamp next limit).node node) = d.depth? ((clamp next limit).node node) := by
      by_cases h : node < next
      · simp [clamp, h, hagree node h]
      · simp [clamp, h, hnone, hnew limit hlimit]
    simp only [Relabelling.after, coded, hnode]
  rw [← hclamp, Machine.relabel_relabel, Machine.relabel_relabel, hcodes]

end Tables

section Joining

theorem program_append (a : Access) (n : Nat) (ss ts : List Stmt) :
    program a n (ss ++ ts) = program a n ss >>= fun _ => program a n ts := by
  induction ss with
  | nil => rfl
  | cons s rest ih =>
    rw [List.cons_append, program, program, bind_assoc]
    congr 1
    funext c
    cases c with
    | normal => exact ih
    | returned v => rfl

variable {d₁ d₂ d : Depths} {n : Nat} {ss ts whole : List Stmt} {m : Machine}
  {next limit : NodeId}

/-- A program behind another one, on the machine of the other and with the table of both, does what
both do as one program with a table of its own. -/
theorem program_joined (hss : ∀ node ∈ Stmt.nodesAll ss, node < next)
    (hnew : ∀ node, next ≤ node → d₁.depth? node = none)
    (hagree : ∀ node, node < next → d₂.depth? node = d₁.depth? node) (hlimit : next ≤ limit)
    (hnone : d₂.depth? limit = none)
    (houtline : Stmt.relabelAll .outline whole = Stmt.relabelAll .outline (ss ++ ts))
    (hdepths : (Stmt.nodesAll whole).map d.depth? = (Stmt.nodesAll (ss ++ ts)).map d₂.depth?)
    (hrun : program (.recorded d₁) n ss .initial = .ok () m) :
    relabelled (coded d₂) m.output id (program (.recorded d₂) n ts { m with output := "" }) =
      relabelled (coded d) "" id (program (.recorded d) n whole .initial) := by
  -- With codes there is one program and no table.
  have hcodes : Stmt.relabelAll (coded d) whole =
      Stmt.relabelAll (coded d₂) ss ++ Stmt.relabelAll (coded d₂) ts := by
    rw [← Stmt.relabelAll_append]
    refine Stmt.relabelAll_eq_of_outline houtline ?_
    have hencoded := congrArg (List.map Encodable.encode) hdepths
    rwa [List.map_map, List.map_map] at hencoded
  have hfront : Stmt.relabelAll (coded d₂) ss = Stmt.relabelAll (coded d₁) ss := by
    refine Stmt.relabelAll_eq_of_outline rfl (List.map_congr_left fun node hnode => ?_)
    rw [hagree node (hss node hnode)]
  have hwhole := (commutes_coded d "" n whole .initial rfl).1
  obtain ⟨hfirst, hhosts⟩ := commutes_coded d₁ "" n ss .initial rfl
  rw [hrun] at hhosts
  rw [relabel_initial, hrun] at hfirst
  have hsecond := (commutes_coded d₂ m.output n ts { m with output := "" } hhosts).1
  have hmachine : m.relabel (coded d₁) "" =
      Machine.relabel (coded d₂) m.output { m with output := "" } := by
    rw [← relabel_coded_of_run hss hnew hagree hlimit hnone hrun]
    simp [Machine.relabel]
  rw [relabel_initial, hcodes, hfront, program_append, bind_apply_of_ok hfirst, hmachine,
    hsecond] at hwhole
  exact hwhole

end Joining
end Relabelling
end LoxLang
