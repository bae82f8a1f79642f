import ConstFlow.Analysis.Table
import ConstFlow.Analysis.Worklist

/-!
# The solver

Every node is pending at first. To visit a node is to combine the facts that its incoming edges
carry into the fact before it, and to recompute the fact after it; if that changes, the nodes that
come next are pending again. The solver visits pending nodes until there are none, or until a bound
on the number of visits is reached.

Facts before nodes only rise, and a visit at which the fact before the node stays the same changes
the fact after it only the first time. `visitBudget` counts the visits that this leaves room for.
-/

namespace ConstFlow

/-- Why a run of the solver stops early. -/
inductive Failure where
  /-- The bound was reached with nodes still pending. -/
  | diverged (iterations pending : Nat)
  /-- A constant that is not zero wraps to a zero divisor. -/
  | divisionByZero
  /-- A fact that a visit needs is missing. -/
  | missingFact
  /-- The analysis of that name goes backward. -/
  | backward (name : Text)
  deriving DecidableEq, Repr, Inhabited

/-- A failure in words. -/
def Failure.message : Failure → Text
  | diverged iterations pending =>
    "solver did not reach a fixpoint after " ++ toString iterations ++ " iterations (" ++
      toString pending ++ " nodes still pending)"
  | divisionByZero => "integer division or modulo by zero"
  | missingFact => "no fact to start from"
  | backward name => name ++ " is a backward analysis; only forward analyses are supported"

/-- A node that was visited: whether the fact after it changed, and the facts before and after
it. -/
structure Visit where
  node : Node
  changed : Bool
  inFact : Fact
  outFact : Option Fact

/-! ## One visit -/

/-- The fact before a node, once the facts of its incoming edges are combined into it. -/
def gather (g : Supergraph) (t : Table) (n : Node) (f : Fact) : Fact :=
  (g.inEdges n).foldl (fun f e => f.meet (e.carry (t.outFact? e.source))) f

/-- The mismatches that the incoming edges of a node meet. -/
def mismatchesAt (g : Supergraph) (t : Table) (n : Node) : List Mismatch :=
  (g.inEdges n).filterMap fun e => e.mismatch? (t.outFact? e.source)

/-- Recompute the fact after a node. A call whose fact is missing keeps it so. -/
def recompute (n : Node) (f : Fact) (out : Option Fact) : Except Failure (Option Fact × Bool) :=
  match out with
  | none => if n.action.isCall then .ok (none, false) else .error .missingFact
  | some out =>
    match n.action.localEffect f with
    | none => .error .divisionByZero
    | some e =>
      let r := out.absorb e
      .ok (some r.fact, r.changed)

/-- What a visit leaves: the table, also when the visit fails half-way, and the visit. -/
structure Visited where
  table : Table
  visit : Except Failure Visit

/-- Visit a node. -/
def Table.visit (g : Supergraph) (t : Table) (n : Node) : Visited :=
  let t := { t with iterations := t.iterations + 1 }
  match t.inFact? n with
  | none => ⟨t, .error .missingFact⟩
  | some f =>
    let f := gather g t n f
    let t := t.setIn n (some f)
    match recompute n f (t.outFact? n) with
    | .error e => ⟨t, .error e⟩
    | .ok (out, changed) => ⟨t.setOut n out, .ok ⟨n, changed, f, out⟩⟩

/-! ## Runs -/

/-- How the solver works: the end of the worklist that it takes nodes from, and the bound. -/
structure Settings where
  strategy : Strategy
  bound : Option Int
  deriving DecidableEq, Repr, Inhabited

/-- An analysis, by what it is called and by the way that facts go. -/
structure Direction where
  name : Text
  isForward : Bool
  deriving DecidableEq, Repr, Inhabited

/-- Constants are propagated forward. -/
def Direction.constants : Direction := ⟨"InterConstantPropagation", true⟩

/-- A solver for an analysis, which has to go forward. -/
def Settings.setUp (s : Settings) (d : Direction) : Except Failure Settings :=
  if d.isForward then .ok s else .error (.backward d.name)

/-- Whether a bound allows no further visit. -/
def Settings.reached (s : Settings) (t : Table) : Bool :=
  match s.bound with
  | none => false
  | some b => b ≤ t.iterations

/-- A run of the solver, as far as it has come. -/
structure Run where
  table : Table
  pending : Worklist Node
  /-- All visits, the last one first. -/
  visits : List Visit
  /-- All mismatches that were met, also before the run. -/
  noted : List Mismatch

/-- How a run ends. -/
inductive Ending where
  | fixpoint
  | failed (f : Failure)
  /-- Nodes are still pending, and no further visit was provided for. -/
  | unfinished
  deriving DecidableEq, Repr, Inhabited

/-- A run and how it ended. -/
structure Finished where
  run : Run
  ending : Ending

/-- Visit nodes until none is pending or something stops the run, `fuel` of them at most. -/
def Run.go (g : Supergraph) (s : Settings) : Nat → Run → Finished
  | fuel, r =>
    if r.pending.size = 0 then
      ⟨{ r with table := { r.table with converged := true } }, .fixpoint⟩
    else if s.reached r.table then
      ⟨r, .failed (.diverged r.table.iterations r.pending.size)⟩
    else
      match fuel, r.pending.pop? s.strategy with
      | fuel + 1, some (n, rest) =>
        let noted := noteMismatches r.noted (mismatchesAt g r.table n)
        let v := r.table.visit g n
        match v.visit with
        | .error e => ⟨{ r with table := v.table, pending := rest, noted }, .failed e⟩
        | .ok visit =>
          let pending := if visit.changed then rest.addAll (g.succs n) else rest
          go g s fuel ⟨v.table, pending, visit :: r.visits, noted⟩
      | _, _ => ⟨r, .unfinished⟩

/-- The variables that a fact may bind in a run from a table: those of the table, the parameters
of the methods, and the targets of the statements. -/
def runVars (g : Supergraph) (t : Table) : List Var :=
  t.vars ++ g.methods.flatMap Method.params ++ g.nodes.filterMap fun n => n.action.target?

/-- A bound on the visits of a run from a table. Beside the first visit of each node, a node is
visited when the fact after one before it changed. That takes a first visit there, or a fact before
it that rose, and a fact rises at most twice for each variable. -/
def visitBudget (g : Supergraph) (t : Table) : Nat :=
  g.nodes.length + g.edges.length * (1 + 2 * (runVars g t).length)

/-- Run from a table; `noted` are the mismatches met before. -/
def resume (g : Supergraph) (s : Settings) (noted : List Mismatch) (t : Table) : Finished :=
  Run.go g s (visitBudget g t) ⟨{ t with converged := false }, .ofList g.nodes, [], noted⟩

/-- Run from the start. -/
def solve (g : Supergraph) (s : Settings) (noted : List Mismatch) : Finished :=
  resume g s noted (.start g)

/-- The record of a fixpoint. -/
def fixpointRecord (t : Table) : Log.Record :=
  ⟨.debug, .solver, t.analysis ++ " reached a fixpoint after " ++ toString t.iterations ++
    " iterations (0.0000s)"⟩

/-- The records of the mismatches that a run met first; `noted` were met before it. -/
def Finished.mismatchLog (f : Finished) (warn : Bool) (noted : List Mismatch) : List Log.Record :=
  (f.run.noted.drop noted.length).map (Mismatch.record warn)

/-- The records of a run from the start. -/
def Finished.solveLog (f : Finished) (warn : Bool) (noted : List Mismatch) : List Log.Record :=
  f.mismatchLog warn noted ++
    match f.ending with
    | .fixpoint => [fixpointRecord f.run.table]
    | _ => []

end ConstFlow
