import ConstFlow.Graph.Supergraph

/-!
# Supergraphs for Graphviz

One cluster for each method, then one line for each edge. A node is named by its method and its
position.
-/

namespace ConstFlow

/-- The name of a node in the drawing. -/
def Node.dotId (n : Node) : Text := n.method ++ "_" ++ toString n.pos

/-- A text between double quotes. -/
def dotQuote (t : Text) : Text := "\"" ++ t ++ "\""

/-- Put a backslash before every double quote. -/
def dotEscape (t : Text) : Text :=
  t.flatMap fun c => if c = .scalar '\x22' then [.scalar '\x5c', c] else [c]

/-- How edges of a kind are drawn. -/
def EdgeKind.dotStyle : EdgeKind → String
  | normal => ""
  | callToReturn => " [style=dashed]"
  | call _ => " [color=blue]"
  | ret _ _ => " [color=red]"

/-- The line of a node. -/
def Node.dotLine (n : Node) : Text :=
  "    " ++ dotQuote n.dotId ++ " [label=" ++ dotQuote (dotEscape n.action.text) ++ "];"

/-- The line of an edge. -/
def Edge.dotLine (e : Edge) : Text :=
  "  " ++ dotQuote e.source.dotId ++ " -> " ++ dotQuote e.target.dotId ++ e.kind.dotStyle ++ ";"

/-- The lines of a method. -/
def Method.dotLines (m : Method) (number : Nat) : List Text :=
  List.flatten
    [["  subgraph cluster_" ++ toString number ++ " \x7b", "    label=" ++ dotQuote m.name ++ ";"],
      m.nodes.map Node.dotLine,
      ["  \x7d"]]

namespace Supergraph

/-- The lines of a drawing. -/
def dotLines (g : Supergraph) (title : Text) : List Text :=
  List.flatten
    [["digraph " ++ dotQuote title ++ " \x7b",
        "  node [shape=box, fontname=\"Helvetica\", fontsize=10];"],
      g.methods.zipIdx.flatMap fun m => m.1.dotLines m.2,
      g.edges.map Edge.dotLine,
      ["\x7d"]]

/-- A drawing, without a line feed at the end. -/
def toDot (g : Supergraph) (title : Text) : Text := Text.join "\n" (g.dotLines title)

end Supergraph

end ConstFlow
