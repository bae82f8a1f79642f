import ConstFlow.Graph.Error
import ConstFlow.Graph.Wiring
import ConstFlow.Log

/-!
# Control flow inside a method

The entry leads to the first statement. A return leads to the exit, a jump to its label, a branch
to its label and to the next statement, and any other statement to the next one; after the last
statement comes the exit, and so does a label that is past the end.
-/

namespace ConstFlow

/-- Why control goes along an edge. -/
inductive Flow where
  | entry
  | fallThrough
  | branchTrue
  | branchFalse
  | goto
  | ret
  deriving DecidableEq, Repr, Inhabited

/-- The name of a kind of edge. -/
def Flow.name : Flow → String
  | entry => "entry"
  | fallThrough => "fall-through"
  | branchTrue => "branch-true"
  | branchFalse => "branch-false"
  | goto => "goto"
  | ret => "return"

/-- An edge between two nodes of a method. -/
structure FlowEdge where
  source : Node
  target : Node
  flow : Flow
  deriving DecidableEq, Repr, Inhabited

/-- An edge as one line of text. -/
def FlowEdge.text (e : FlowEdge) : Text :=
  "(" ++ e.source.action.text ++ ")--[" ++ e.flow.name ++ "]-->(" ++ e.target.action.text ++ ")"

namespace Method

/-- The index that a label marks. -/
def labelTarget (m : Method) (label : Text) : Except Graph.Error Nat :=
  match m.labels.get? label with
  | some i => .ok i
  | none => .error (.undefinedLabel m.name label)

/-- The edges that leave the statement at an index. -/
def edgesFrom (m : Method) (i : Nat) (s : Stmt) : Except Graph.Error (List FlowEdge) :=
  let here := s.node
  match s.action with
  | .ret _ => .ok [⟨here, m.exit, .ret⟩]
  | .jump l => do
    let target ← m.labelTarget l
    return [⟨here, m.nodeAt target, .goto⟩]
  | .branch _ _ _ l => do
    let target ← m.labelTarget l
    return [⟨here, m.nodeAt target, .branchTrue⟩, ⟨here, m.nodeAt (i + 1), .branchFalse⟩]
  | _ => .ok [⟨here, m.nodeAt (i + 1), .fallThrough⟩]

end Method

/-- The control flow of one method. -/
structure ControlFlow extends Wiring FlowEdge where
  method : Method

namespace ControlFlow

/-- A method before any edge is drawn. -/
def bare (m : Method) : ControlFlow := { Wiring.empty with method := m }

/-- Draw an edge. -/
def addEdge (g : ControlFlow) (e : FlowEdge) : ControlFlow :=
  { g with toWiring := g.draw e.source e.target e }

/-- Draw the edges that leave statements, the first of which has index `i`. -/
def addBody (g : ControlFlow) (i : Nat) : List Stmt → Except Graph.Error ControlFlow
  | [] => .ok g
  | s :: rest => do
    let here ← g.method.edgesFrom i s
    (here.foldl addEdge g).addBody (i + 1) rest

/-- The control flow of a method, unless it jumps to a label that it does not define. -/
def build (m : Method) : Except Graph.Error ControlFlow :=
  ((bare m).addEdge ⟨m.entry, m.nodeAt 0, .entry⟩).addBody 0 m.body

/-- The nodes, in program order. -/
def nodes (g : ControlFlow) : List Node := g.method.nodes

/-- The nodes that come right after a node. -/
def succs (g : ControlFlow) (n : Node) : List Node := (g.outEdges n).map FlowEdge.target

/-- The nodes that come right before a node. -/
def preds (g : ControlFlow) (n : Node) : List Node := (g.inEdges n).map FlowEdge.source

/-- A graph as one line of text. -/
def summary (g : ControlFlow) : Text :=
  "CFG(method=" ++ Text.quote g.method.name ++ ", nodes=" ++ toString g.nodes.length ++
    ", edges=" ++ toString g.edges.length ++ ")"

/-- The record of having built a graph. -/
def record (g : ControlFlow) : Log.Record := ⟨.debug, .controlFlow, "Built " ++ g.summary⟩

/-! ## Reachability -/

/-- The number of edges that leave nodes which are not among the visited ones. -/
def unvisited (g : ControlFlow) (visited : List Node) : Nat := g.leaving.sizeOutside visited

/-- Visiting a node uses up the edges that leave it. -/
theorem unvisited_cons (g : ControlFlow) {visited : List Node} {n : Node} (h : n ∉ visited) :
    g.unvisited (n :: visited) + (g.succs n).length = g.unvisited visited := by
  rw [succs, List.length_map]
  exact g.leaving.sizeOutside_cons h

/-- Visit what is on a stack and everything that comes after it. Every visit uses up the edges that
leave the node, so the stack runs out. -/
def visit (g : ControlFlow) (visited : List Node) : List Node → List Node
  | [] => visited
  | n :: rest =>
    if n ∈ visited then g.visit visited rest
    else g.visit (n :: visited) (g.succs n ++ rest)
termination_by stack => g.unvisited visited + stack.length
decreasing_by
  · simp only [List.length_cons]; omega
  · rename_i h
    have := g.unvisited_cons h
    simp only [List.length_append, List.length_cons]; omega

/-- The nodes to which a path leads from a node. -/
def reachableFrom (g : ControlFlow) (n : Node) : List Node := g.visit [] [n]

end ControlFlow

namespace Program

/-- The control flow of the method of a name. -/
def controlFlowOf (p : Program) (name : Text) : Except Graph.Error ControlFlow :=
  match p.find? name with
  | some m => ControlFlow.build m
  | none => .error (.unknownMethod name)

/-- The control flow of the named methods, of all if none is named. -/
def controlFlows (p : Program) (names : List Text) : Except Graph.Error (List ControlFlow) :=
  (if names.isEmpty then p.methods.map Method.name else names).mapM p.controlFlowOf

end Program

end ConstFlow
