import ConstFlow.Analysis.Table
import ConstFlow.Json.Basic

/-!
# Reports

The facts of a result, for people and for programs. Temporaries are left out unless they are
asked for.
-/

namespace ConstFlow

/-- A constant as a number, another value as a text. -/
def Value.toJson (v : Value) : Json :=
  match v.constant? with
  | some c => .int c
  | none => .text v.text

/-- Whether a variable is a temporary that stands for a literal. -/
def Var.isTemp (x : Var) : Bool := x.name.head? = some (.scalar '%')

/-- The variables of a fact with their values, by name. Of variables of one name the last counts. -/
def Fact.rows (f : Option Fact) (temps : Bool) : List (Text × Value) :=
  match f with
  | none => []
  | some f =>
    let shown := f.sorted.filter fun b => temps || !b.1.isTemp
    (Assoc.ofList (shown.map fun b => (b.1.name, b.2))).entries

/-- The same as a record. -/
def Fact.toJson (f : Option Fact) (temps : Bool) : Json :=
  .record ((Fact.rows f temps).map fun r => (r.1, r.2.toJson))

/-- What a report shows. -/
structure ReportOptions where
  /-- The methods to show; all if none is named. -/
  methods : List Text
  temps : Bool
  deriving Inhabited

/-- The methods that a report shows, in the order of their discovery. -/
def ReportOptions.select (o : ReportOptions) (g : Supergraph) : List Method :=
  if o.methods.isEmpty then g.methods else g.methods.filter fun m => o.methods.contains m.name

namespace Table

/-- The row of a node in a report for programs. -/
def nodeJson (t : Table) (temps : Bool) (n : Node) : Json :=
  .record [("index", .int n.index), ("line", .int n.line), ("stmt", .text n.action.text),
    ("in", Fact.toJson (t.inFact? n) temps), ("out", Fact.toJson (t.outFact? n) temps)]

/-- A report for programs. -/
def report (t : Table) (g : Supergraph) (o : ReportOptions) : Json :=
  .record [("analysis", .text t.analysis), ("converged", .bool t.converged),
    ("iterations", .int t.iterations), ("elapsed_seconds", .real (.finite false 0 (-1074))),
    ("methods", .record ((o.select g).map fun m =>
      (m.name, .list (m.nodes.map (t.nodeJson o.temps)))))]

/-- A text filled up with spaces. -/
def padded (width : Nat) (t : Text) : Text :=
  t ++ List.replicate (width - t.length) (.scalar ' ')

/-- The line of a node in a report for people: the facts after it. -/
def nodeLine (t : Table) (temps : Bool) (n : Node) : Text :=
  let rows : List Text := (Fact.rows (t.outFact? n) temps).map fun r => r.1 ++ "=" ++ r.2.text
  "  " ++ padded 32 n.label ++ " \x7b" ++ Text.join ", " rows ++ "\x7d"

/-- The lines of a method in a report for people. -/
def methodLines (t : Table) (temps : Bool) (m : Method) : List Text :=
  [] :: ("--- Method: " ++ m.signature ++ " ---") :: m.nodes.map (t.nodeLine temps)

/-- The lines of a report for people. -/
def listingLines (t : Table) (g : Supergraph) (o : ReportOptions) : List Text :=
  List.flatten
    [["=== " ++ t.analysis ++ " ===",
        "Converged: " ++ (if t.converged then "True" else "False"),
        "Iterations: " ++ toString t.iterations],
      (o.select g).flatMap (t.methodLines o.temps),
      [[], List.replicate 40 (.scalar '=')]]

/-- A report for people. -/
def listing (t : Table) (g : Supergraph) (o : ReportOptions) : Text :=
  (t.listingLines g o).flatMap fun l => l ++ "\n"

end Table

end ConstFlow
