import Mathlib.Logic.Function.Iterate
import ConstFlow.Proofs.LoweredMethods
import ConstFlow.Proofs.Machine

/-!
# Runs of one method

A method can be run as it is written and as it is lowered. Both are `Code`: at each position there
is a `Move`, which has all values that are read already in it, and labels lead to positions. A
literal operand simply is its value when the source is run; the source knows no temporaries.

What others can see of a run are its `Event`s: each item that is come to, with the values that the
variables of the source have there, each call with its arguments and its result, and what is
returned. The rest of the program is a `World` that answers calls and may take everything into
account that was shown before. `Code.Shows` is the set of beginnings of what is shown, so two codes
with the same beginnings also go on for ever together.
-/

namespace ConstFlow

/-! ## Moves -/

/-- What is done at a position, once all values that are read are known. -/
inductive Move where
  | skip
  | assign (target : Var) (value : Option Word)
  | call (callee : Text) (args : List (Option Word)) (receiver : Option Var)
  | ret (value : Option Word)
  | branch (condition : Option Word) (label : Text)
  | jump (label : Text)

def Action.move (env : Env) : Action → Move
  | .nop _ => .skip
  | .literal x v => .assign x (some (.wrap v))
  | .copy x y => .assign x (env y)
  | .binary x op y z => .assign x (op.onWords (env y) (env z))
  | .call f args receiver => .call f (args.map env) receiver
  | .ret x => .ret (x.bind env)
  | .branch op x y l => .branch (op.onWords (env x) (env y)) l
  | .jump l => .jump l

namespace Source

def Operand.value (method : Text) (env : Env) : Operand → Option Word
  | .name n => env ⟨method, n.text⟩
  | .literal n => some (.wrap n.value)

def Statement.move (method : Text) (env : Env) : Statement → Move
  | .pass => .skip
  | .jump l => .jump l.text
  | .ret o => .ret (o.bind (Operand.value method env))
  | .branch op l r label =>
      .branch (op.onWords (l.value method env) (r.value method env)) label.text
  | .assign x (.operand o) => .assign ⟨method, x.text⟩ (o.value method env)
  | .assign x (.binary op l r) =>
      .assign ⟨method, x.text⟩ (op.onWords (l.value method env) (r.value method env))
  | .assign x (.call c) =>
      .call c.callee.text (c.args.map (Operand.value method env)) (some ⟨method, x.text⟩)
  | .call c => .call c.callee.text (c.args.map (Operand.value method env)) none

end Source

/-! ## Worlds -/

/-- What can be seen of a run. -/
inductive Event where
  /-- An item is come to, or the end; the values are those of the watched variables. -/
  | visit (item : Nat) (values : List (Option Word))
  | call (callee : Text) (args : List (Option Word)) (result : Option Word)
  | ret (value : Option Word)

/-- What a run depends on besides its code. -/
structure World where
  result : List Event → Text → List (Option Word) → Option Word
  /-- Where a branch goes whose condition has no value. -/
  undecided : List Event → Bool

def World.taken (w : World) (shown : List Event) : Option Word → Bool
  | some v => v.val ≠ 0
  | none => w.undecided shown

/-! ## Code -/

/-- What can be run. -/
structure Code where
  /-- The move at a position; past the end there is none. -/
  move? : Nat → Env → Option Move
  target? : Text → Option Nat
  /-- The item that starts at a position; the end counts as one. -/
  mark? : Nat → Option Nat
  watched : List Var

/-- A run at some moment. It has no position once it has returned. -/
structure Code.State where
  pos : Option Nat
  env : Env
  shown : List Event

namespace Code

variable (c : Code) (w : World)

def arrive (s : State) (i : Nat) : State where
  pos := some i
  env := s.env
  shown := s.shown ++ (c.mark? i).toList.map fun j => .visit j (c.watched.map s.env)

def follow (s : State) (label : Text) : State :=
  match c.target? label with
  | some i => c.arrive s i
  | none => { s with pos := none }

def perform (s : State) (i : Nat) : Move → State
  | .skip => c.arrive s (i + 1)
  | .assign x v => c.arrive { s with env := Function.update s.env x v } (i + 1)
  | .call f args receiver =>
      let v := w.result s.shown f args
      c.arrive { s with
        env := s.env.receive receiver v
        shown := s.shown ++ [.call f args v] } (i + 1)
  | .ret v => { s with pos := none, shown := s.shown ++ [.ret v] }
  | .branch v l => if w.taken s.shown v then c.follow s l else c.arrive s (i + 1)
  | .jump l => c.follow s l

/-- One step. A run that gets past the end returns nothing. -/
def step (s : State) : State :=
  match s.pos with
  | none => s
  | some i => c.perform w s i ((c.move? i s.env).getD (.ret none))

def start (env : Env) : State := c.arrive ⟨none, env, []⟩ 0

/-- These events are shown first, when a run starts with these values. -/
def Shows (env : Env) (events : List Event) : Prop :=
  ∃ n, events <+: ((c.step w)^[n] (c.start env)).shown

theorem shown_arrive (s : State) (i : Nat) : s.shown <+: (c.arrive s i).shown :=
  List.prefix_append _ _

theorem shown_follow (s : State) (l : Text) : s.shown <+: (c.follow s l).shown := by
  unfold follow
  split
  · exact c.shown_arrive s _
  · exact List.prefix_rfl

theorem shown_perform (s : State) (i : Nat) (m : Move) :
    s.shown <+: (c.perform w s i m).shown := by
  cases m with
  | skip => exact c.shown_arrive s _
  | assign x v => exact c.shown_arrive { s with env := Function.update s.env x v } _
  | call f args receiver => exact (List.prefix_append _ _).trans (c.shown_arrive ⟨_, _, _⟩ _)
  | ret v => exact List.prefix_append _ _
  | branch v l =>
      rw [perform]
      split
      · exact c.shown_follow s l
      · exact c.shown_arrive s _
  | jump l => exact c.shown_follow s l

theorem shown_step (s : State) : s.shown <+: (c.step w s).shown := by
  unfold step
  split
  · exact List.prefix_rfl
  · exact c.shown_perform w s _ _

/-- What was shown stays. -/
theorem shown_iterate_mono (s : State) {n k : Nat} (h : n ≤ k) :
    ((c.step w)^[n] s).shown <+: ((c.step w)^[k] s).shown := by
  induction h with
  | refl => exact List.prefix_rfl
  | step _ ih =>
      rw [Function.iterate_succ_apply']
      exact ih.trans (c.shown_step w _)

end Code

/-- A method, to be run. Which items it was made from is not seen from itself. -/
def Method.code (m : Method) (mark? : Nat → Option Nat) (watched : List Var) : Code where
  move? i env := m.body[i]?.map fun s => s.action.move env
  target? := m.labels.get?
  mark? := mark?
  watched := watched

namespace Source

/-- The variables that a method mentions as it is written. -/
def Decl.vars (d : Decl) : List Var := d.variables.map fun n => ⟨d.name.text, n.text⟩

/-- A method as it is written, to be run item by item. -/
def Decl.code (d : Decl) : Code where
  move? j env := d.items[j]?.map fun i => i.statement.move d.name.text env
  target? l := d.items.findIdx? fun i => decide (l ∈ i.labels.map Name.text)
  mark? j := if j ≤ d.items.length then some j else none
  watched := d.vars

/-- The block that starts at a position, or the end. -/
def blockAt (blocks : List (List Instr)) (i : Nat) : Option Nat :=
  (List.range (blocks.length + 1)).find? fun j => decide (start blocks j = i)

/-- A method as it is lowered, watched at the starts of its items. -/
def Decl.lowered (text : Text) (d : Decl) : Code :=
  (d.method text).code (blockAt (d.blocks text)) d.vars

end Source

end ConstFlow
