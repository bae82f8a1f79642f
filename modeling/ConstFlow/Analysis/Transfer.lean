import ConstFlow.Fact
import ConstFlow.Graph.Supergraph

/-!
# Transfer functions

How facts change along the graph. A statement has an effect on the fact before it; an edge of the
supergraph carries the fact after its source to its target.

The effect of a call is in the edges alone. The edge past the call drops what is known of the
receiver, the edge into the callee binds parameters to what is known of the arguments, and the
edge back binds the receiver to the combination of everything that may be returned.
-/

namespace ConstFlow

namespace Fact

/-- Nothing is known of the parameters of a method: its start, when anybody may call it. -/
def boundary (m : Method) : Fact := m.params.foldl (fun f x => f.update x .nac) empty

/-- Parameters bound to what is known of the arguments, as far as there are both. -/
def bind (params args : List Var) (f : Fact) : Fact :=
  (params.zip args).foldl (fun g b => g.update b.1 (f.get b.2)) empty

/-- The combination of what is known of several variables. -/
def meetOf (f : Fact) (xs : List Var) : Value := xs.foldl (fun v x => v.meet (f.get x)) .unset

end Fact

/-! ## Statements -/

/-- What an operator gives on two abstract values. A value that is not constant wins over a zero
divisor, and a zero divisor has no result. There is no answer at all when a divisor is not zero as
it stands and wraps to zero. -/
def Operator.applyAbstract (op : Operator) : Value → Value → Option Value
  | .nac, _ => some .nac
  | _, .nac => some .nac
  | v, .const b =>
    if op.isDivision && b = 0 then some .unset
    else
      match v with
      | .const a => (op.apply a b).map Value.const
      | _ => some .unset
  | _, .unset => some .unset

namespace Action

/-- What is known of the value that a statement assigns. -/
def evaluate (f : Fact) : Action → Option Value
  | literal _ v => some (.const (Int32.wrap v))
  | copy _ y => some (f.get y)
  | binary _ op y z => op.applyAbstract (f.get y) (f.get z)
  | _ => some .nac

/-- The fact after a statement, from the fact before it. -/
def effect (a : Action) (f : Fact) : Option Fact :=
  match a.target? with
  | none => some f
  | some x => (a.evaluate f).map (f.update x)

/-- The same where calls are followed: a call has no effect of its own. -/
def localEffect (a : Action) (f : Fact) : Option Fact :=
  if a.isCall then some f else a.effect f

end Action

/-- What comes of recomputing the fact after a node: the new fact, and whether it changed. -/
structure Recomputed where
  fact : Fact
  changed : Bool

/-- Copy an effect into the fact that was there. -/
def Fact.absorb (out effect : Fact) : Recomputed := ⟨out.copyFrom effect, out.copyChanges effect⟩

/-! ## Edges -/

/-- The fact that an edge carries, from the fact after its source. A fact that is missing carries
nothing. -/
def Edge.carry (e : Edge) (out : Option Fact) : Fact :=
  match out with
  | none => .empty
  | some f =>
    match e.kind with
    | .normal => f
    | .callToReturn =>
      match e.source.action.target? with
      | none => f
      | some x => f.remove x
    | .call callee =>
      match e.source.action with
      | .call _ args _ => .bind callee.params args f
      | _ => .empty
    | .ret site callee =>
      match site.action.target? with
      | none => .empty
      | some x => Fact.empty.update x (f.meetOf callee.returnVars)

/-! ## Arguments and parameters -/

/-- A call that passes more or fewer arguments than the callee has parameters. -/
structure Mismatch where
  site : Node
  callee : Text
  args : Nat
  params : Nat
  deriving DecidableEq, Repr, Inhabited

/-- The mismatch that is met when an edge carries a fact. -/
def Edge.mismatch? (e : Edge) (out : Option Fact) : Option Mismatch :=
  match out, e.kind, e.source.action with
  | some _, .call callee, .call _ args _ =>
    if args.length = callee.params.length then none
    else some ⟨e.source, callee.name, args.length, callee.params.length⟩
  | _, _, _ => none

/-- The record of a mismatch: a warning if one is wanted. -/
def Mismatch.record (warn : Bool) (m : Mismatch) : Log.Record :=
  ⟨if warn then .warning else .debug, .analysis,
    "Call to " ++ m.callee ++ " in " ++ m.site.method ++ " (line " ++ toString m.site.line ++
      ") passes " ++ toString m.args ++ " argument(s) for " ++ toString m.params ++
      " parameter(s)"⟩

/-- Note mismatches that were not noted before. -/
def noteMismatches (noted : List Mismatch) : List Mismatch → List Mismatch
  | [] => noted
  | m :: rest =>
    if m ∈ noted then noteMismatches noted rest else noteMismatches (noted ++ [m]) rest

end ConstFlow
