import ConstFlow.Graph.Node

/-!
# Edges and where they lead

A graph lists its edges in the order in which they were drawn. Beside the list it keeps, under each
node, the edges that leave it and the edges that enter it, so that neither is searched for. An edge
is entered in all three places when it is drawn.
-/

namespace ConstFlow

/-- Edges, and the same edges under the nodes that they leave and under those that they enter. -/
structure Wiring (ε : Type) where
  edges : List ε
  leaving : Assoc Node (List ε)
  entering : Assoc Node (List ε)

namespace Wiring

variable {ε : Type}

/-- No edges. -/
def empty : Wiring ε := ⟨[], .empty, .empty⟩

/-- Draw an edge from one node to another. -/
def draw (w : Wiring ε) (source target : Node) (e : ε) : Wiring ε :=
  ⟨w.edges ++ [e], w.leaving.push source e, w.entering.push target e⟩

/-- The edges that leave a node. -/
def outEdges (w : Wiring ε) (n : Node) : List ε := w.leaving.listAt n

/-- The edges that enter a node. -/
def inEdges (w : Wiring ε) (n : Node) : List ε := w.entering.listAt n

end Wiring

end ConstFlow
