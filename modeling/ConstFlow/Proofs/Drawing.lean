import Mathlib.Data.List.Nodup
import ConstFlow.Graph.Dot
import ConstFlow.Proofs.GraphShape
import ConstFlow.Text.Number

/-!
# Names in a drawing

A node is drawn under the name of its method and its position, with an underscore between them.
Method names are any texts, with underscores and digits of their own: the node `1` of `f` and the
entry of `f_1` are `f_1` and `f_1_0`. No digit is an underscore, so the last one is where the
position starts, and the name is read from the back (`dotId_injective`).

A drawing has one line for each node, which gives the node its name (`filter_isNodeLine`), and one
for each edge, with the names of its ends between double quotes (`filter_isEdgeLine`). The names can
be read back from the lines (`quotedTexts_edges`), unless they have double quotes themselves: those
are not escaped.
-/

namespace ConstFlow

/-! ## Separators -/

/-- What comes before the first separator, and after it, is known from the whole. -/
theorem eq_of_append_cons_eq {α : Type} {s : α} {c d : List α} :
    ∀ {a b : List α}, s ∉ a → s ∉ b → a ++ s :: c = b ++ s :: d → a = b ∧ c = d
  | [], [], _, _, h => ⟨rfl, (List.cons.inj h).2⟩
  | [], x :: b, _, hb, h => absurd ((List.cons.inj h).1 ▸ List.mem_cons_self) hb
  | x :: a, [], ha, _, h => absurd ((List.cons.inj h).1 ▸ List.mem_cons_self) ha
  | x :: a, y :: b, ha, hb, h => by
      obtain ⟨hxy, htail⟩ := List.cons.inj h
      obtain ⟨hab, hcd⟩ := eq_of_append_cons_eq (mt (List.mem_cons_of_mem x) ha)
        (mt (List.mem_cons_of_mem y) hb) htail
      exact ⟨by rw [hxy, hab], hcd⟩

/-- The same for the last separator. -/
theorem eq_of_append_cons_eq_last {α : Type} {s : α} {a b c d : List α} (hc : s ∉ c) (hd : s ∉ d)
    (h : a ++ s :: c = b ++ s :: d) : a = b ∧ c = d := by
  have hrev := congrArg List.reverse h
  simp only [List.reverse_append, List.reverse_cons, List.append_assoc, List.singleton_append]
    at hrev
  obtain ⟨hcd, hab⟩ := eq_of_append_cons_eq (mt List.mem_reverse.mp hc) (mt List.mem_reverse.mp hd)
    hrev
  exact ⟨List.reverse_injective hab, List.reverse_injective hcd⟩

/-! ## Names of nodes -/

theorem Text.not_mem_ofString_toString {c : Char} (hc : c.isDigit = false) (k : Nat) :
    CodePoint.scalar c ∉ ofString (toString k) := by
  rw [ofString_toString]
  intro hmem
  obtain ⟨d, hd, hcd⟩ := List.mem_map.mp hmem
  obtain rfl := CodePoint.scalar.inj hcd
  have hdigit := Nat.isDigit_of_mem_toDigits (by decide) (by decide) hd
  exact Bool.noConfusion (hdigit.symm.trans hc)

namespace Node

theorem dotId_eq (n : Node) :
    n.dotId = n.method ++ .scalar '_' :: Text.ofString (toString n.pos) := by
  rw [dotId, List.append_assoc]
  rfl

/-- A node is drawn under its method and one more than its index. -/
theorem dotId_eq_index (n : Node) : n.dotId = n.method ++ "_" ++ toString (n.index + 1) := by
  rw [index, Int.sub_add_cancel]
  rfl

theorem dotId_injective {n n' : Node} (h : n.dotId = n'.dotId) :
    n.method = n'.method ∧ n.pos = n'.pos := by
  rw [dotId_eq, dotId_eq] at h
  obtain ⟨hmethod, hpos⟩ := eq_of_append_cons_eq_last (Text.not_mem_ofString_toString (by decide) _)
    (Text.not_mem_ofString_toString (by decide) _) h
  exact ⟨hmethod, Text.eq_of_ofString_toString_eq hpos⟩

theorem not_mem_dotId {n : Node} (h : .scalar '\x22' ∉ n.method) :
    .scalar '\x22' ∉ n.dotId := by
  rw [dotId_eq, List.mem_append, List.mem_cons]
  rintro (hmethod | hsep | hpos)
  · exact h hmethod
  · cases hsep
  · exact Text.not_mem_ofString_toString (by decide) _ hpos

end Node

/-! ## Lines -/

/-- Whether a line gives a node its name. -/
def isNodeLine (line : Text) : Bool := (Text.ofString "    \x22").isPrefixOf line

/-- Whether a line lists an edge. -/
def isEdgeLine (line : Text) : Bool := (Text.ofString "  \x22").isPrefixOf line

theorem Node.dotLine_eq (n : Node) :
    n.dotLine = Text.ofString "    \x22" ++ (n.dotId ++ (Text.ofString "\x22 [label=" ++
      (dotQuote (dotEscape n.action.text) ++ Text.ofString "];"))) := by
  simp [dotLine, dotQuote, Text.ofString, Text.ofChars]

theorem Edge.dotLine_eq (e : Edge) :
    e.dotLine = Text.ofString "  \x22" ++ (e.source.dotId ++ .scalar '\x22' ::
      (Text.ofString " -> \x22" ++ (e.target.dotId ++ .scalar '\x22' ::
        (Text.ofString e.kind.dotStyle ++ Text.ofString ";")))) := by
  simp [dotLine, dotQuote, Text.ofString, Text.ofChars]

/-- Without double quotes in names, the four of a line enclose the names of both ends. -/
theorem Edge.dotLine_injective {e e' : Edge} (hs : .scalar '\x22' ∉ e.source.method)
    (ht : .scalar '\x22' ∉ e.target.method) (hs' : .scalar '\x22' ∉ e'.source.method)
    (ht' : .scalar '\x22' ∉ e'.target.method) (h : e.dotLine = e'.dotLine) :
    e.source.dotId = e'.source.dotId ∧ e.target.dotId = e'.target.dotId := by
  rw [dotLine_eq, dotLine_eq] at h
  obtain ⟨hsource, hrest⟩ := eq_of_append_cons_eq (Node.not_mem_dotId hs) (Node.not_mem_dotId hs')
    (List.append_cancel_left h)
  obtain ⟨htarget, -⟩ := eq_of_append_cons_eq (Node.not_mem_dotId ht) (Node.not_mem_dotId ht')
    (List.append_cancel_left hrest)
  exact ⟨hsource, htarget⟩

/-! ## Names between double quotes -/

/-- What is between the first double quote and the second, the third and the fourth, and so on. In
the middle of that, what there is of it so far is given too. -/
def quotedFrom : Option Text → Text → List Text
  | _, [] => []
  | none, c :: t => if c = .scalar '\x22' then quotedFrom (some []) t else quotedFrom none t
  | some a, c :: t =>
    if c = .scalar '\x22' then a :: quotedFrom none t else quotedFrom (some (a ++ [c])) t

/-- The texts between double quotes. -/
def quotedTexts (t : Text) : List Text := quotedFrom none t

section

variable {a b t : Text}

theorem quotedFrom_none_append (h : .scalar '\x22' ∉ a) :
    quotedFrom none (a ++ t) = quotedFrom none t := by
  induction a with
  | nil => rfl
  | cons c a ih =>
      obtain ⟨hc, ha⟩ := not_or.mp (mt List.mem_cons.mpr h)
      rw [List.cons_append, quotedFrom, if_neg (Ne.symm hc), ih ha]

theorem quotedFrom_some_append (h : .scalar '\x22' ∉ a) :
    quotedFrom (some b) (a ++ .scalar '\x22' :: t) = (b ++ a) :: quotedFrom none t := by
  induction a generalizing b with
  | nil => rw [List.nil_append, quotedFrom, if_pos rfl, List.append_nil]
  | cons c a ih =>
      obtain ⟨hc, ha⟩ := not_or.mp (mt List.mem_cons.mpr h)
      rw [List.cons_append, quotedFrom, if_neg (Ne.symm hc), ih ha, List.append_assoc]
      rfl

/-- A quoted text, after something without quotes. -/
theorem quotedFrom_quote {before : Text} (hbefore : .scalar '\x22' ∉ before)
    (h : .scalar '\x22' ∉ a) :
    quotedFrom none (before ++ .scalar '\x22' :: (a ++ .scalar '\x22' :: t)) =
      a :: quotedFrom none t := by
  rw [quotedFrom_none_append hbefore, quotedFrom, if_pos rfl, quotedFrom_some_append h]
  rfl

/-- The line of an edge between two names, and what follows it. -/
theorem Edge.quotedFrom_dotLine {e : Edge} (hs : .scalar '\x22' ∉ e.source.method)
    (ht : .scalar '\x22' ∉ e.target.method) (t : Text) :
    quotedFrom none (e.dotLine ++ t) =
      e.source.dotId :: e.target.dotId :: quotedFrom none t := by
  have hstyle : .scalar '\x22' ∉ Text.ofString e.kind.dotStyle ++ Text.ofString ";" := by
    cases e.kind <;> simp only [EdgeKind.dotStyle] <;> decide
  have hline : e.dotLine ++ t = Text.ofString "  " ++ .scalar '\x22' :: (e.source.dotId ++
      .scalar '\x22' :: (Text.ofString " -> " ++ .scalar '\x22' :: (e.target.dotId ++
        .scalar '\x22' :: (Text.ofString e.kind.dotStyle ++ Text.ofString ";" ++ t)))) := by
    rw [dotLine_eq]
    simp [Text.ofString, Text.ofChars]
  rw [hline, quotedFrom_quote (by decide) (Node.not_mem_dotId hs),
    quotedFrom_quote (by decide) (Node.not_mem_dotId ht), quotedFrom_none_append hstyle]

/-- The names of both ends, edge by edge, are what a list of edges has between double quotes. -/
theorem quotedTexts_edges {es : List Edge} (h : ∀ e ∈ es,
    .scalar '\x22' ∉ e.source.method ∧ .scalar '\x22' ∉ e.target.method) :
    quotedTexts (Text.join "\n" (es.map Edge.dotLine)) =
      es.flatMap fun e => [e.source.dotId, e.target.dotId] := by
  unfold quotedTexts
  induction es with
  | nil => rfl
  | cons e es ih =>
      obtain ⟨hs, ht⟩ := h e List.mem_cons_self
      have ih := ih fun e he => h e (List.mem_cons_of_mem _ he)
      cases es with
      | nil =>
          have hline : Text.join "\n" ([e].map Edge.dotLine) = e.dotLine ++ [] := by
            simp [Text.join]
          rw [hline, Edge.quotedFrom_dotLine hs ht]
          rfl
      | cons e' es =>
          have hline : Text.join "\n" ((e :: e' :: es).map Edge.dotLine) =
              e.dotLine ++ (Text.ofString "\n" ++
                Text.join "\n" ((e' :: es).map Edge.dotLine)) := by
            simp [Text.join, List.intercalate_cons_cons]
          rw [hline, Edge.quotedFrom_dotLine hs ht, quotedFrom_none_append (by decide), ih]
          rfl

end

/-! ## Whole drawings -/

@[simp] theorem Node.isNodeLine_dotLine (n : Node) : isNodeLine n.dotLine = true := by
  rw [dotLine_eq]
  rfl

@[simp] theorem Node.isEdgeLine_dotLine (n : Node) : isEdgeLine n.dotLine = false := by
  rw [dotLine_eq]
  rfl

@[simp] theorem Edge.isNodeLine_dotLine (e : Edge) : isNodeLine e.dotLine = false := by
  rw [dotLine_eq]
  rfl

@[simp] theorem Edge.isEdgeLine_dotLine (e : Edge) : isEdgeLine e.dotLine = true := by
  rw [dotLine_eq]
  rfl

theorem Method.filter_isNodeLine (m : Method) (i : Nat) :
    (m.dotLines i).filter isNodeLine = m.nodes.map Node.dotLine := by
  have hnodes : (m.nodes.map Node.dotLine).filter isNodeLine = m.nodes.map Node.dotLine :=
    List.filter_eq_self.mpr (by simp)
  simp only [dotLines, List.flatten_cons, List.flatten_nil, List.append_nil,
    List.filter_append, hnodes]
  exact List.append_nil _

theorem Method.filter_isEdgeLine (m : Method) (i : Nat) :
    (m.dotLines i).filter isEdgeLine = [] := by
  have hnodes : (m.nodes.map Node.dotLine).filter isEdgeLine = [] :=
    List.filter_eq_nil_iff.mpr (by simp)
  simp only [dotLines, List.flatten_cons, List.flatten_nil, List.append_nil,
    List.filter_append, hnodes]
  rfl

namespace Supergraph

/-- The lines that give nodes their names are one for each node, method by method. -/
theorem filter_isNodeLine (g : Supergraph) (title : Text) :
    (g.dotLines title).filter isNodeLine =
      g.methods.flatMap fun m => m.nodes.map Node.dotLine := by
  have hedges : (g.edges.map Edge.dotLine).filter isNodeLine = [] :=
    List.filter_eq_nil_iff.mpr (by simp)
  have hclusters : (g.methods.zipIdx.flatMap fun m => m.1.dotLines m.2).filter isNodeLine =
      g.methods.flatMap fun m => m.nodes.map Node.dotLine := by
    rw [List.filter_flatMap]
    simp only [Method.filter_isNodeLine]
    rw [← List.flatMap_map Prod.fst fun m : Method => m.nodes.map Node.dotLine,
      List.zipIdx_map_fst]
  simp only [dotLines, List.flatten_cons, List.flatten_nil, List.append_nil, List.filter_append,
    hedges, hclusters]
  exact List.append_nil _

/-- The lines that list edges are one for each edge. -/
theorem filter_isEdgeLine (g : Supergraph) (title : Text) :
    (g.dotLines title).filter isEdgeLine = g.edges.map Edge.dotLine := by
  have hedges : (g.edges.map Edge.dotLine).filter isEdgeLine = g.edges.map Edge.dotLine :=
    List.filter_eq_self.mpr (by simp)
  have hclusters : (g.methods.zipIdx.flatMap fun m => m.1.dotLines m.2).filter isEdgeLine = [] := by
    rw [List.filter_flatMap]
    exact List.flatMap_eq_nil_iff.mpr fun m _ => m.1.filter_isEdgeLine m.2
  simp only [dotLines, List.flatten_cons, List.flatten_nil, List.append_nil, List.filter_append,
    hedges, hclusters]
  exact List.append_nil _

/-- The node that is drawn under a name. -/
def drawn? (g : Supergraph) (name : Text) : Option Node := g.nodes.find? fun n => n.dotId = name

section

variable {p : Program} {names : List Text} {g : Supergraph} (h : build p names = .ok g)
include h

theorem eq_of_dotId_eq {a b : Node} (ha : a ∈ g.nodes) (hb : b ∈ g.nodes)
    (hid : a.dotId = b.dotId) : a = b := by
  obtain ⟨hmethod, hpos⟩ := Node.dotId_injective hid
  exact (built_of_build h).node_eq ha hb hmethod hpos

theorem drawn?_dotId {n : Node} (hn : n ∈ g.nodes) : g.drawn? n.dotId = some n := by
  cases hfind : g.drawn? n.dotId with
  | none =>
      have hno := List.find?_eq_none.mp hfind n hn
      simp at hno
  | some r =>
      have hid : r.dotId = n.dotId := by simpa using List.find?_some hfind
      rw [eq_of_dotId_eq h (List.mem_of_find?_eq_some hfind) hn hid]

end

/-- Nodes have the names of methods in them, so no double quotes if those have none. -/
theorem not_mem_method {p : Program} {names : List Text} {g : Supergraph}
    (h : build p names = .ok g) (hplain : ∀ m ∈ g.methods, .scalar '\x22' ∉ m.name) {n : Node}
    (hn : n ∈ g.nodes) : .scalar '\x22' ∉ n.method := by
  obtain ⟨m, hm, hn⟩ := (built_of_build h).mem_nodes_iff.mp hn
  exact Method.method_of_mem_nodes hn ▸ hplain m hm

/-- **Nodes are drawn under names of their own.** The names of all nodes, of all methods together,
are distinct. A drawing has one line for each node, which gives it its name, and one for each edge
in their order, with the names of its ends; from these the ends are found again. If no method has a
double quote in its name, then the text of the edges is enough for that: what it has between double
quotes are the names of the ends, edge by edge, and edges with the same line have the same ends. -/
theorem dot_identifies_nodes {p : Program} {names : List Text} {g : Supergraph}
    (h : build p names = .ok g) :
    (∀ n : Node, n.dotId = n.method ++ "_" ++ toString (n.index + 1)) ∧
      (g.nodes.map Node.dotId).Nodup ∧
      (∀ a ∈ g.nodes, ∀ b ∈ g.nodes, a ≠ b → a.dotId ≠ b.dotId) ∧
      (∀ title, g.toDot title = Text.join "\n" (g.dotLines title) ∧
        (g.dotLines title).filter isNodeLine = g.nodes.map Node.dotLine ∧
        (g.dotLines title).filter isEdgeLine = g.edges.map Edge.dotLine) ∧
      (∀ n : Node, ∃ label, n.dotLine =
        Text.ofString "    \x22" ++ (n.dotId ++ (Text.ofString "\x22 [label=" ++ label))) ∧
      (∀ e : Edge, ∃ style, e.dotLine =
        Text.ofString "  \x22" ++ (e.source.dotId ++ .scalar '\x22' ::
          (Text.ofString " -> \x22" ++ (e.target.dotId ++ .scalar '\x22' :: style)))) ∧
      (g.edges.map fun e => (g.drawn? e.source.dotId, g.drawn? e.target.dotId)) =
        g.edges.map (fun e => (some e.source, some e.target)) ∧
      ((∀ m ∈ g.methods, .scalar '\x22' ∉ m.name) →
        (quotedTexts (Text.join "\n" (g.edges.map Edge.dotLine))).map g.drawn? =
          g.edges.flatMap (fun e => [some e.source, some e.target]) ∧
        ∀ e ∈ g.edges, ∀ e' ∈ g.edges,
          e.dotLine = e'.dotLine → e.source = e'.source ∧ e.target = e'.target) := by
  have hg := wellFormed_of_build h
  have hdrawn : ∀ e ∈ g.edges, g.drawn? e.source.dotId = some e.source ∧
      g.drawn? e.target.dotId = some e.target := fun e he =>
    ⟨drawn?_dotId h (hg.source_mem e he), drawn?_dotId h (hg.target_mem e he)⟩
  refine ⟨Node.dotId_eq_index, ?_, ?_, ?_, fun n => ⟨_, n.dotLine_eq⟩, fun e => ⟨_, e.dotLine_eq⟩,
    ?_, ?_⟩
  · exact List.Nodup.map_on (fun a ha b hb => eq_of_dotId_eq h ha hb) hg.nodup
  · intro a ha b hb hne hid
    exact hne (eq_of_dotId_eq h ha hb hid)
  · intro title
    refine ⟨rfl, ?_, g.filter_isEdgeLine title⟩
    rw [g.filter_isNodeLine title, (built_of_build h).nodes_eq, List.map_flatMap]
  · refine List.map_congr_left fun e he => ?_
    rw [(hdrawn e he).1, (hdrawn e he).2]
  · intro hplain
    have hends : ∀ e ∈ g.edges,
        .scalar '\x22' ∉ e.source.method ∧ .scalar '\x22' ∉ e.target.method := fun e he =>
      ⟨not_mem_method h hplain (hg.source_mem e he), not_mem_method h hplain (hg.target_mem e he)⟩
    constructor
    · rw [quotedTexts_edges hends, List.map_flatMap]
      refine List.flatMap_congr fun e he => ?_
      rw [List.map_cons, List.map_cons, (hdrawn e he).1, (hdrawn e he).2]
      rfl
    · intro e he e' he' hline
      obtain ⟨hsource, htarget⟩ := Edge.dotLine_injective (hends e he).1 (hends e he).2
        (hends e' he').1 (hends e' he').2 hline
      exact ⟨eq_of_dotId_eq h (hg.source_mem e he) (hg.source_mem e' he') hsource,
        eq_of_dotId_eq h (hg.target_mem e he) (hg.target_mem e' he') htarget⟩

end Supergraph

namespace Sample

/-- Methods whose names are names of nodes. -/
def underscores : Program where
  methods :=
    [.of "f" [] [⟨1, .call "f_1" [] none⟩, ⟨2, .call "f_1_0" [] none⟩] .empty,
      .of "f_1" [] [⟨4, .ret none⟩] .empty,
      .of "f_1_0" [] [] .empty]
  distinct := by decide

/-- Two calls, between methods whose names have the middle of a line in them. -/
def quotes : Program where
  methods :=
    [.of "x" [] [⟨1, .call "y_1\x22 -> \x22z" [] none⟩] .empty,
      .of "x_1\x22 -> \x22y" [] [⟨2, .call "z" [] none⟩] .empty,
      .of "y_1\x22 -> \x22z" [] [] .empty,
      .of "z" [] [] .empty]
  distinct := by decide

end Sample

/-- The names of methods come up again as names of nodes, and no two of these are the same. -/
theorem Supergraph.dot_identifies_nodes_sample :
    let g := Sample.graphOf Sample.underscores ["f"]
    build Sample.underscores ["f"] = .ok g ∧
      g.nodes.map Node.dotId =
        (["f_0", "f_1", "f_2", "f_3", "f_1_0", "f_1_1", "f_1_2", "f_1_0_0", "f_1_0_1"] :
          List Text) ∧
      (g.nodes.map Node.dotId).Nodup ∧
      (g.edges.map fun e => (g.drawn? e.source.dotId, g.drawn? e.target.dotId)) =
        g.edges.map (fun e => (some e.source, some e.target)) ∧
      (∀ m ∈ g.methods, .scalar '\x22' ∉ m.name) ∧
      (quotedTexts (Text.join "\n" (g.edges.map Edge.dotLine))).map g.drawn? =
        g.edges.flatMap (fun e => [some e.source, some e.target]) := by
  intro g
  have hok : build Sample.underscores ["f"] = .ok g := Sample.build_graphOf (by decide +kernel)
  have hplain : ∀ m ∈ g.methods, .scalar '\x22' ∉ m.name := by decide +kernel
  obtain ⟨-, hnodup, -, -, -, -, hends, hlines⟩ := dot_identifies_nodes hok
  exact ⟨hok, by decide +kernel, hnodup, hends, hplain, (hlines hplain).1⟩

/-- Names of nodes stay distinct whatever is in them, but two calls of different methods may have
the same line. -/
theorem Supergraph.dot_edges_alike :
    let g := Sample.graphOf Sample.quotes ["x", "x_1\x22 -> \x22y"]
    build Sample.quotes ["x", "x_1\x22 -> \x22y"] = .ok g ∧
      (g.nodes.map Node.dotId).Nodup ∧
      ∃ e ∈ g.edges, ∃ e' ∈ g.edges,
        e.dotLine = e'.dotLine ∧ e.source ≠ e'.source ∧ e.target ≠ e'.target := by
  intro g
  exact ⟨Sample.build_graphOf (by decide +kernel), by decide +kernel, by decide +kernel⟩

end ConstFlow
