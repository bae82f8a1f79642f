import ConstFlow.Graph.CallGraph
import ConstFlow.Graph.ControlFlow

/-!
# The supergraph

The control flow of all reachable methods in one graph. A call does not lead to the next statement
like other statements: an edge of its own leads there for what the callee cannot change, another
leads from the call to the entry of the callee, and another from the exit of the callee back to
where the caller goes on. An unresolved call has only the first of them.

The graph is drawn in two rounds. The first adds the methods one after another and notes where a
caller goes on after a call; the second connects the resolved calls, for which it looks that up.
-/

namespace ConstFlow

/-- What an edge of the supergraph is for. -/
inductive EdgeKind where
  | normal
  | callToReturn
  | call (callee : Method)
  | ret (site : Node) (callee : Method)
  deriving DecidableEq

/-- The name of a kind of edge. -/
def EdgeKind.name : EdgeKind → String
  | normal => "normal"
  | callToReturn => "call-to-return"
  | call _ => "call"
  | ret _ _ => "return"

/-- An edge of the supergraph. -/
structure Edge where
  source : Node
  target : Node
  kind : EdgeKind
  deriving DecidableEq

/-- An edge as one line of text. -/
def Edge.text (e : Edge) : Text :=
  "(" ++ e.source.text ++ ")--[" ++ e.kind.name ++ "]-->(" ++ e.target.text ++ ")"

/-- The edge that stands for an edge inside a method. -/
def FlowEdge.lift (e : FlowEdge) : Edge :=
  ⟨e.source, e.target, if e.source.action.isCall then .callToReturn else .normal⟩

/-- The edges of a resolved call: into the callee, and from it to each place where the caller may go
on. -/
def CallEdge.lift (returnSites : List Node) (e : CallEdge) : List Edge :=
  ⟨e.site, e.callee.entry, .call e.callee⟩ ::
    returnSites.map fun r => ⟨e.callee.exit, r, .ret e.site e.callee⟩

/-- The nodes and edges of all reachable methods. -/
structure Supergraph extends Wiring Edge where
  calls : CallGraph
  /-- The control flow of each reachable method, in the order of their discovery. -/
  flows : List ControlFlow
  nodes : List Node
  /-- The method that a node lies in. -/
  homes : Assoc Node Method
  /-- Where the caller goes on after a call. -/
  continuations : Assoc Node (List Node)

namespace Supergraph

/-- A supergraph in which nothing is drawn. -/
def bare (calls : CallGraph) (flows : List ControlFlow) : Supergraph :=
  { Wiring.empty with calls, flows, nodes := [], homes := .empty, continuations := .empty }

/-- Add a node of a method. -/
def addNode (g : Supergraph) (m : Method) (n : Node) : Supergraph :=
  { g with nodes := g.nodes ++ [n], homes := g.homes.set n m }

/-- Draw an edge. -/
def addEdge (g : Supergraph) (e : Edge) : Supergraph :=
  { g with toWiring := g.draw e.source e.target e }

/-- Draw an edge inside a method. After a call, the caller goes on where it leads. -/
def addFlow (g : Supergraph) (e : FlowEdge) : Supergraph :=
  if e.source.action.isCall then
    { g.addEdge e.lift with continuations := g.continuations.push e.source e.target }
  else g.addEdge e.lift

/-- Add the nodes of a method and the edges between them. -/
def addMethod (g : Supergraph) (c : ControlFlow) : Supergraph :=
  c.edges.foldl addFlow (c.nodes.foldl (addNode · c.method ·) g)

/-- Where the caller goes on after a call. -/
def returnSites (g : Supergraph) (site : Node) : List Node := g.continuations.listAt site

/-- Draw the edges of a resolved call. -/
def addCall (g : Supergraph) (e : CallEdge) : Supergraph :=
  (e.lift (g.returnSites e.site)).foldl addEdge g

/-- Put the control flow of the reachable methods together, and connect their calls. -/
def assemble (calls : CallGraph) (flows : List ControlFlow) : Supergraph :=
  calls.edges.foldl addCall (flows.foldl addMethod (bare calls flows))

/-- The supergraph of a program from some entry methods on. -/
def build (p : Program) (entries : List Text) : Except Graph.Error Supergraph := do
  let calls ← CallGraph.build p entries
  let flows ← calls.reachable.mapM ControlFlow.build
  return assemble calls flows

/-- The entry methods. -/
def entryMethods (g : Supergraph) : List Method := g.calls.entries

/-- The methods of the graph, in the order of their discovery. -/
def methods (g : Supergraph) : List Method := g.calls.reachable

/-- The nodes that come right after a node. -/
def succs (g : Supergraph) (n : Node) : List Node := (g.outEdges n).map Edge.target

/-- The nodes that come right before a node. -/
def preds (g : Supergraph) (n : Node) : List Node := (g.inEdges n).map Edge.source

/-- The entry of a method of the graph. -/
def entryOf (g : Supergraph) (m : Method) : Except Graph.Error Node :=
  if g.calls.isReachable m then .ok m.entry else .error (.methodOutside m.name)

/-- The exit of a method of the graph. -/
def exitOf (g : Supergraph) (m : Method) : Except Graph.Error Node :=
  if g.calls.isReachable m then .ok m.exit else .error (.methodOutside m.name)

/-- The method that a node of the graph lies in. -/
def methodOf (g : Supergraph) (n : Node) : Except Graph.Error Method :=
  match g.homes.get? n with
  | some m => .ok m
  | none => .error (.nodeOutside n.text)

/-- A supergraph as one line of text. -/
def summary (g : Supergraph) : Text :=
  "InterproceduralCFG(methods=" ++ toString g.methods.length ++ ", nodes=" ++
    toString g.nodes.length ++ ", edges=" ++ toString g.edges.length ++ ")"

/-- The records of having built a supergraph. -/
def log (g : Supergraph) : List Log.Record :=
  g.calls.log ++ g.flows.map ControlFlow.record ++ [⟨.debug, .supergraph, "Built " ++ g.summary⟩]

end Supergraph

end ConstFlow
