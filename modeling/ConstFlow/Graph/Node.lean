import ConstFlow.Program.Text

/-!
# Nodes

The nodes of the graphs are the statements of a method, between an entry and an exit that do
nothing. A node is told from others by its method and its position there, so equal statements at
different positions are different nodes; it carries its statement with it.
-/

namespace ConstFlow

/-- A point of a method. The entry has position zero, the statement with index `i` has position
`i + 1`, and the exit comes after the last statement. -/
structure Node where
  method : Text
  pos : Nat
  line : Int
  action : Action
  deriving DecidableEq, Repr, Inhabited

namespace Node

/-- The index of the statement; `-1` for the entry. -/
def index (n : Node) : Int := (n.pos : Int) - 1

/-- Index, line and statement of a node. -/
def label (n : Node) : Text :=
  "[" ++ toString n.index ++ "@L" ++ toString n.line ++ "] " ++ n.action.text

/-- A node as one line of text. -/
def text (n : Node) : Text := n.method ++ n.label

end Node

/-- The node of a statement. -/
def Stmt.node (s : Stmt) : Node := ⟨s.method, s.index + 1, s.line, s.action⟩

namespace Method

/-- Where a method starts. -/
def entry (m : Method) : Node := ⟨m.name, 0, 0, .nop "entry"⟩

/-- Where a method ends. -/
def exit (m : Method) : Node := ⟨m.name, m.body.length + 1, 0, .nop "exit"⟩

/-- The statement at an index, or the exit past the last one. -/
def nodeAt (m : Method) (i : Nat) : Node :=
  match m.body[i]? with
  | some s => s.node
  | none => m.exit

/-- The nodes of the statements, in order. -/
def stmtNodes (m : Method) : List Node := m.body.map Stmt.node

/-- All nodes: the entry, the statements and the exit. -/
def nodes (m : Method) : List Node := m.entry :: m.stmtNodes ++ [m.exit]

/-- The nodes of the calls, in order. -/
def callSites (m : Method) : List Node := m.stmtNodes.filter fun n => n.action.isCall

end Method

end ConstFlow
