import Mathlib.Logic.Function.Basic
import ConstFlow.Proofs.GraphShape
import ConstFlow.Proofs.TransferOrder

/-!
# Running programs

A machine that runs the programs that are analysed. It is defined from the program alone, without
supergraphs and facts, so that what an analysis says can be held against it.

A state is a stack of frames, the running one first. A frame stands before a node, and has values
for some variables; a variable may well have none. Control goes wherever the control flow of the
method allows, so a branch may go either way, whatever its condition. A call of a defined method
puts a frame on the stack, and the caller stays before its call until that frame is at the exit.
What a call of an undefined method may give is a parameter of the machine.
-/

namespace ConstFlow

/-! ## Values and environments -/

/-- A 32-bit integer. -/
@[ext] structure Word where
  val : Int
  inRange : Int32.InRange val

def Word.wrap (v : Int) : Word := ⟨Int32.wrap v, Int32.wrap_inRange v⟩

/-- The values of variables, of those that have one. -/
abbrev Env := Var → Option Word

namespace Env

/-- Parameters get the values of arguments, as far as there are both, and nothing else has one. -/
def bind (params args : List Var) (env : Env) : Env :=
  (params.zip args).foldl (fun callee b => Function.update callee b.1 (env b.2)) fun _ => none

/-- A result is put where it is wanted. -/
def receive (env : Env) (receiver : Option Var) (v : Option Word) : Env :=
  match receiver with
  | none => env
  | some x => Function.update env x v

end Env

/-- An operator on values. There is no result if an operand has no value, or the divisor is zero. -/
def Operator.onWords (op : Operator) : Option Word → Option Word → Option Word
  | some a, some b => (op.apply a.val b.val).map Word.wrap
  | _, _ => none

/-- The results of operators are in range as they are. -/
theorem Operator.apply_of_onWords {op : Operator} {v w : Option Word} {c : Word}
    (h : op.onWords v w = some c) :
    ∃ a b, v = some a ∧ w = some b ∧ op.apply a.val b.val = some c.val := by
  cases v with
  | none => cases h
  | some a =>
      cases w with
      | none => cases h
      | some b =>
          obtain ⟨c', hc, rfl⟩ := Option.map_eq_some_iff.mp h
          refine ⟨a, b, rfl, rfl, ?_⟩
          rw [hc]
          exact congrArg some (Int32.wrap_eq_self (inRange_of_apply hc)).symm

/-! ## Statements -/

namespace Action

/-- What a statement that is not a call makes of the values. -/
def run (a : Action) (env : Env) : Env :=
  match a with
  | literal x v => Function.update env x (some (.wrap v))
  | copy x y => Function.update env x (env y)
  | binary x op y z => Function.update env x (op.onWords (env y) (env z))
  | _ => env

/-- What a statement returns. -/
def returned (a : Action) (env : Env) : Option Word :=
  match a with
  | ret (some x) => env x
  | _ => none

theorem of_returned {a : Action} {env : Env} {v : Word} (h : a.returned env = some v) :
    ∃ x, a = ret (some x) ∧ env x = some v ∧ a.run env = env := by
  unfold returned at h
  split at h
  · exact ⟨_, rfl, h, rfl⟩
  · cases h

end Action

/-! ## Steps -/

/-- The nodes to which control may go from a node, inside its method. -/
def Program.next (p : Program) (n : Node) : List Node :=
  p.methods.flatMap fun m =>
    match ControlFlow.build m with
    | .ok c => c.succs n
    | .error _ => []

/-- A method at work: the node that it stands before, the values of its variables, and what the
statement before returned, if that was a return. -/
structure Frame where
  node : Node
  env : Env
  result : Option Word

/-- One step of the machine; `foreign` says what a call of an undefined method may give. -/
inductive Machine.Step (p : Program) (foreign : Option Word → Prop) :
    List Frame → List Frame → Prop where
  | run {f : Frame} {rest : List Frame} {n : Node} (plain : f.node.action.isCall = false)
      (next : n ∈ p.next f.node) :
      Step p foreign (f :: rest)
        (⟨n, f.node.action.run f.env, f.node.action.returned f.env⟩ :: rest)
  | call {f : Frame} {rest : List Frame} {name : Text} {args : List Var} {receiver : Option Var}
      {callee : Method} (site : f.node.action = .call name args receiver)
      (defined : p.find? name = some callee) :
      Step p foreign (f :: rest)
        (⟨callee.entry, .bind callee.params args f.env, none⟩ :: f :: rest)
  | ret {f caller : Frame} {rest : List Frame} {m : Method} {n : Node} (method : m ∈ p.methods)
      (exit : f.node = m.exit) (next : n ∈ p.next caller.node) :
      Step p foreign (f :: caller :: rest)
        (⟨n, caller.env.receive caller.node.action.target? f.result, none⟩ :: rest)
  | foreignCall {f : Frame} {rest : List Frame} {name : Text} {args : List Var}
      {receiver : Option Var} {n : Node} {v : Option Word}
      (site : f.node.action = .call name args receiver) (undefined : p.find? name = none)
      (next : n ∈ p.next f.node) (result : foreign v) :
      Step p foreign (f :: rest) (⟨n, f.env.receive receiver v, none⟩ :: rest)

/-- The states of runs that start in an entry method. Its parameters may have any values, and other
variables have none. -/
inductive Machine.Reachable (p : Program) (entries : List Text) (foreign : Option Word → Prop) :
    List Frame → Prop where
  | start {name : Text} {m : Method} {env : Env} (entry : name ∈ entries)
      (defined : p.find? name = some m) (params : ∀ x, x ∉ m.params → env x = none) :
      Reachable p entries foreign [⟨m.entry, env, none⟩]
  | step {stack stack' : List Frame} (before : Reachable p entries foreign stack)
      (step : Step p foreign stack stack') : Reachable p entries foreign stack'

/-! ## Where control goes -/

namespace Program

variable {p : Program}

theorem mem_next_iff {n n' : Node} :
    n' ∈ p.next n ↔ ∃ m ∈ p.methods, ∃ c, ControlFlow.build m = .ok c ∧
      ∃ e ∈ c.edges, e.source = n ∧ e.target = n' := by
  unfold next
  rw [List.mem_flatMap]
  refine exists_congr fun m => and_congr_right fun _ => ?_
  constructor
  · intro h
    split at h
    · rename_i c hc
      exact ⟨c, hc, (ControlFlow.mem_succs_iff (ControlFlow.indexed_of_build hc)).mp h⟩
    · cases h
  · rintro ⟨c, hc, he⟩
    rw [hc]
    exact (ControlFlow.mem_succs_iff (ControlFlow.indexed_of_build hc)).mpr he

/-- Control stays inside the method. -/
theorem mem_nodes_of_next {m : Method} (hm : m ∈ p.methods) {n n' : Node} (hn : n ∈ m.nodes)
    (h : n' ∈ p.next n) : n' ∈ m.nodes := by
  obtain ⟨c, hc, flow, hflow, e, he, rfl, rfl⟩ := mem_next_iff.mp h
  obtain ⟨hs, ht⟩ := ControlFlow.mem_nodes_of_build hflow he
  rw [eq_of_mem_nodes hm hc hn hs]
  exact ht

theorem isCall_of_resolve? {n : Node} {callee : Method} (h : p.resolve? n = some callee) :
    n.action.isCall = true := by
  obtain ⟨name, hname, -⟩ := Option.bind_eq_some_iff.mp h
  cases ha : n.action with
  | call => rfl
  | _ => rw [ha] at hname; cases hname

theorem mem_methods_of_resolve? {n : Node} {callee : Method} (h : p.resolve? n = some callee) :
    callee ∈ p.methods := by
  obtain ⟨name, -, hf⟩ := Option.bind_eq_some_iff.mp h
  exact mem_of_find? hf

end Program

theorem mem_foldl_iff {α β : Type} {step : List α → β → List α} {x : α} {P : β → Prop}
    (hstep : ∀ seen b, x ∈ step seen b ↔ x ∈ seen ∨ P b) :
    ∀ (bs : List β) (seen : List α), x ∈ bs.foldl step seen ↔ x ∈ seen ∨ ∃ b ∈ bs, P b
  | [], seen => by simp
  | b :: bs, seen => by
      rw [List.foldl_cons, mem_foldl_iff hstep, hstep, List.exists_mem_cons_iff, or_assoc]

/-- The returned variables are those of the return statements. -/
theorem Method.mem_returnVars_iff {m : Method} {x : Var} :
    x ∈ m.returnVars ↔ ∃ s ∈ m.body, s.action = .ret (some x) := by
  refine (mem_foldl_iff (fun seen s => ?_) m.body []).trans (or_iff_right List.not_mem_nil)
  split
  · rename_i y hy
    rw [hy]
    split
    · rename_i hmem
      refine (or_iff_left_of_imp fun h => ?_).symm
      cases h
      exact hmem
    · rw [List.mem_append, List.mem_singleton]
      refine or_congr_right ⟨fun h => h ▸ rfl, fun h => ?_⟩
      cases h
      rfl
  · rename_i hno
    exact (or_iff_left (hno x)).symm

end ConstFlow
