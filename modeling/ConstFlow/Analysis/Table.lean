import ConstFlow.Analysis.Transfer

/-!
# Result tables

The facts before and after each node, with how far the solver has come. A fact may be missing; the
solver itself always works on tables that have both facts for every node.
-/

namespace ConstFlow

/-- The name of the analysis. -/
def analysisName : Text := "inter-constprop"

/-- Facts before and after nodes. -/
structure Table where
  before : Assoc Node (Option Fact)
  after : Assoc Node (Option Fact)
  iterations : Nat
  converged : Bool
  analysis : Text

namespace Table

/-- No facts, for an analysis of that name. -/
def empty (analysis : Text) : Table := ⟨.empty, .empty, 0, false, analysis⟩

instance : Inhabited Table := ⟨empty ""⟩

/-- The fact before a node. -/
def inFact? (t : Table) (n : Node) : Option Fact := (t.before.get? n).join

/-- The fact after a node. -/
def outFact? (t : Table) (n : Node) : Option Fact := (t.after.get? n).join

/-- Put a fact before a node. -/
def setIn (t : Table) (n : Node) (f : Option Fact) : Table := { t with before := t.before.set n f }

/-- Put a fact after a node. -/
def setOut (t : Table) (n : Node) (f : Option Fact) : Table := { t with after := t.after.set n f }

/-- Put the same fact before and after a node. -/
def setBoth (t : Table) (n : Node) (f : Fact) : Table := (t.setIn n (some f)).setOut n (some f)

/-- The nodes with a fact before them, in the order in which they got it. -/
def nodes (t : Table) : List Node := t.before.keys

/-- Nothing is known anywhere. -/
def clear (g : Supergraph) (t : Table) : Table := g.nodes.foldl (fun t n => t.setBoth n .empty) t

/-- The parameters of an entry method may be anything. A method that is not in the graph has no
entry there; in a graph that was built, all entry methods are. -/
def enter (g : Supergraph) (t : Table) (m : Method) : Table :=
  match g.entryOf m with
  | .ok n => t.setBoth n (.boundary m)
  | .error _ => t

/-- The table that solving starts from: nothing is known but what holds at the entry methods. -/
def start (g : Supergraph) : Table := g.entryMethods.foldl (enter g) (clear g (empty analysisName))

/-- The variables that occur in the facts of a table. -/
def vars (t : Table) : List Var :=
  (t.before.entries ++ t.after.entries).flatMap fun e => (e.2.map Fact.vars).getD []

end Table

end ConstFlow
