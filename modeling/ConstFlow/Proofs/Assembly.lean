import ConstFlow.Proofs.CallReach
import ConstFlow.Graph.Supergraph

/-!
# How graphs are put together

Graphs are drawn edge by edge, and every edge is entered in a list and under both its ends. Here the
result is said without the steps. Under each node are the edges with that end, in the order of the
list (`Wiring.Indexed`). The edges of a method are those of its statements, one after another
(`ControlFlow.build_eq`). The edges of a supergraph are those of its methods and then, for each
resolved call, the edge into the callee and the edges back to where the caller goes on
(`Supergraph.edges_assemble`).

Every step leaves what was drawn before it and adds to the end. `Supergraph.Grows` says what is
added, and is composed along the two rounds in which a supergraph is drawn.
-/

namespace ConstFlow

/-! ## Edges under their ends -/

namespace Wiring

variable {ε : Type} {source target : ε → Node} {w : Wiring ε}

/-- Under each node are the edges that leave and enter it, in the order in which they were drawn. -/
structure Indexed (source target : ε → Node) (w : Wiring ε) : Prop where
  out : ∀ n, w.outEdges n = w.edges.filter fun e => source e = n
  into : ∀ n, w.inEdges n = w.edges.filter fun e => target e = n
  size : w.leaving.sizeOutside [] = w.edges.length

theorem indexed_empty : (empty : Wiring ε).Indexed source target :=
  ⟨fun _ => rfl, fun _ => rfl, rfl⟩

theorem Indexed.draw (h : w.Indexed source target) (e : ε) :
    (w.draw (source e) (target e) e).Indexed source target := by
  have hout : ∀ n, w.leaving.listAt n = (w.edges.filter fun e => source e = n).map id := fun n =>
    (h.out n).trans (List.map_id _).symm
  have hinto : ∀ n, w.entering.listAt n = (w.edges.filter fun e => target e = n).map id := fun n =>
    (h.into n).trans (List.map_id _).symm
  refine ⟨fun n => ?_, fun n => ?_, ?_⟩
  · exact (Assoc.listAt_push_filter hout e n).trans (List.map_id _)
  · exact (Assoc.listAt_push_filter hinto e n).trans (List.map_id _)
  · rw [Wiring.draw, Assoc.sizeOutside_push, h.size, List.length_append, List.length_singleton]

end Wiring

/-! ## Control flow -/

/-- The edges that leave statements, the first of which has index `i`. -/
def Method.bodyEdges (m : Method) (i : Nat) : List Stmt → Except Graph.Error (List FlowEdge)
  | [] => .ok []
  | s :: rest => do
    let here ← m.edgesFrom i s
    let more ← m.bodyEdges (i + 1) rest
    return here ++ more

namespace ControlFlow

/-- A method with some edges. -/
def drawn (m : Method) (es : List FlowEdge) : ControlFlow := es.foldl addEdge (bare m)

theorem method_foldl_addEdge (es : List FlowEdge) :
    ∀ g : ControlFlow, (es.foldl addEdge g).method = g.method := by
  induction es with
  | nil => exact fun g => rfl
  | cons e es ih => exact fun g => ih (g.addEdge e)

theorem edges_foldl_addEdge (es : List FlowEdge) :
    ∀ g : ControlFlow, (es.foldl addEdge g).edges = g.edges ++ es := by
  induction es with
  | nil => exact fun g => (List.append_nil _).symm
  | cons e es ih =>
      intro g
      rw [List.foldl_cons, ih]
      simp [addEdge, Wiring.draw]

theorem indexed_foldl_addEdge (es : List FlowEdge) : ∀ {g : ControlFlow},
    g.Indexed FlowEdge.source FlowEdge.target →
      (es.foldl addEdge g).Indexed FlowEdge.source FlowEdge.target := by
  induction es with
  | nil => exact fun h => h
  | cons e es ih => exact fun h => ih (g := addEdge _ e) (h.draw e)

@[simp] theorem method_drawn (m : Method) (es : List FlowEdge) : (drawn m es).method = m :=
  method_foldl_addEdge es (bare m)

@[simp] theorem edges_drawn (m : Method) (es : List FlowEdge) : (drawn m es).edges = es :=
  edges_foldl_addEdge es (bare m)

theorem addBody_eq (ss : List Stmt) : ∀ (g : ControlFlow) (i : Nat),
    g.addBody i ss = (g.method.bodyEdges i ss).map fun es => es.foldl addEdge g := by
  induction ss with
  | nil => exact fun g i => rfl
  | cons s ss ih =>
      intro g i
      rw [addBody, Method.bodyEdges]
      cases g.method.edgesFrom i s with
      | error e => rfl
      | ok here =>
          show (here.foldl addEdge g).addBody (i + 1) ss = _
          rw [ih, method_foldl_addEdge]
          cases g.method.bodyEdges (i + 1) ss with
          | error e => simp [bind, Except.bind, Except.map]
          | ok more => simp [bind, Except.bind, Except.map, pure, Except.pure]

/-- The control flow of a method is drawn from the edge of its entry and those of its statements. -/
theorem build_eq (m : Method) :
    build m = (m.bodyEdges 0 m.body).map fun es =>
      drawn m (⟨m.entry, m.nodeAt 0, .entry⟩ :: es) :=
  addBody_eq m.body _ 0

theorem of_build {m : Method} {c : ControlFlow} (h : build m = .ok c) :
    ∃ body, m.bodyEdges 0 m.body = .ok body ∧
      drawn m (⟨m.entry, m.nodeAt 0, .entry⟩ :: body) = c := by
  rw [build_eq] at h
  cases hbody : m.bodyEdges 0 m.body with
  | error e =>
      rw [hbody] at h
      cases h
  | ok body =>
      rw [hbody] at h
      exact ⟨body, rfl, Except.ok.inj h⟩

theorem mem_succs_iff {c : ControlFlow} (h : c.Indexed FlowEdge.source FlowEdge.target)
    {n n' : Node} : n' ∈ c.succs n ↔ ∃ e ∈ c.edges, e.source = n ∧ e.target = n' := by
  simp [succs, h.out, and_assoc]

theorem indexed_of_build {m : Method} {c : ControlFlow} (h : build m = .ok c) :
    c.Indexed FlowEdge.source FlowEdge.target := by
  obtain ⟨body, -, rfl⟩ := of_build h
  exact indexed_foldl_addEdge _ (g := bare m) Wiring.indexed_empty

theorem method_of_build {m : Method} {c : ControlFlow} (h : build m = .ok c) : c.method = m := by
  obtain ⟨body, -, rfl⟩ := of_build h
  exact method_drawn m _

end ControlFlow

/-! ## Supergraphs -/

namespace Supergraph

/-- A graph grows by some nodes and edges. -/
structure Grows (g g' : Supergraph) (nodes : List Node) (edges : List Edge) : Prop where
  calls : g'.calls = g.calls
  flows : g'.flows = g.flows
  nodes : g'.nodes = g.nodes ++ nodes
  edges : g'.edges = g.edges ++ edges
  indexed : g.Indexed Edge.source Edge.target → g'.Indexed Edge.source Edge.target

theorem Grows.refl (g : Supergraph) : g.Grows g [] [] :=
  ⟨rfl, rfl, (List.append_nil _).symm, (List.append_nil _).symm, id⟩

theorem Grows.trans {g g' g'' : Supergraph} {ns ns' : List Node} {es es' : List Edge}
    (h : g.Grows g' ns es) (h' : g'.Grows g'' ns' es') :
    g.Grows g'' (ns ++ ns') (es ++ es') where
  calls := h'.calls.trans h.calls
  flows := h'.flows.trans h.flows
  nodes := by rw [h'.nodes, h.nodes, List.append_assoc]
  edges := by rw [h'.edges, h.edges, List.append_assoc]
  indexed := h'.indexed ∘ h.indexed

/-- What is added item by item is added in the order of the items. -/
theorem Grows.foldl {α : Type} {add : Supergraph → α → Supergraph} {ns : α → List Node}
    {es : α → List Edge} (h : ∀ (g : Supergraph) (a : α), g.Grows (add g a) (ns a) (es a))
    (as : List α) : ∀ g : Supergraph, g.Grows (as.foldl add g) (as.flatMap ns) (as.flatMap es) := by
  induction as with
  | nil => exact Grows.refl
  | cons a as ih =>
      intro g
      rw [List.flatMap_cons, List.flatMap_cons]
      exact (h g a).trans (ih (add g a))

theorem grows_addNode (m : Method) (g : Supergraph) (n : Node) :
    g.Grows (g.addNode m n) [n] [] :=
  ⟨rfl, rfl, rfl, (List.append_nil _).symm, id⟩

theorem grows_addEdge (g : Supergraph) (e : Edge) : g.Grows (g.addEdge e) [] [e] :=
  ⟨rfl, rfl, (List.append_nil _).symm, rfl, fun h => h.draw e⟩

theorem grows_addFlow (g : Supergraph) (e : FlowEdge) : g.Grows (g.addFlow e) [] [e.lift] := by
  unfold addFlow
  split <;> exact ⟨rfl, rfl, (List.append_nil _).symm, rfl, fun h => h.draw e.lift⟩

theorem grows_addMethod (g : Supergraph) (c : ControlFlow) :
    g.Grows (g.addMethod c) c.nodes (c.edges.map FlowEdge.lift) := by
  have hnodes := Grows.foldl (grows_addNode c.method) c.nodes g
  have hedges := Grows.foldl grows_addFlow c.edges (c.nodes.foldl (addNode · c.method ·) g)
  rw [List.flatMap_singleton', List.flatMap_eq_nil_iff.mpr fun _ _ => rfl] at hnodes
  rw [← List.map_eq_flatMap, List.flatMap_eq_nil_iff.mpr fun _ _ => rfl] at hedges
  simpa [addMethod] using hnodes.trans hedges

theorem grows_addCall (g : Supergraph) (e : CallEdge) :
    g.Grows (g.addCall e) [] (e.lift (g.returnSites e.site)) := by
  have hedges := Grows.foldl grows_addEdge (e.lift (g.returnSites e.site)) g
  rwa [List.flatMap_singleton', List.flatMap_eq_nil_iff.mpr fun _ _ => rfl] at hedges

/-! ## Where callers go on -/

theorem returnSites_addFlow (g : Supergraph) (e : FlowEdge) {n : Node}
    (hn : n.action.isCall = true) :
    (g.addFlow e).returnSites n = g.returnSites n ++ if e.source = n then [e.target] else [] := by
  unfold addFlow
  by_cases hcall : e.source.action.isCall = true
  · rw [if_pos hcall, returnSites, Assoc.listAt_push]
    by_cases h : n = e.source
    · simp [h, returnSites]
    · simp [h, Ne.symm h, returnSites]
  · have hne : e.source ≠ n := fun h => hcall (h ▸ hn)
    rw [if_neg hcall, if_neg hne, List.append_nil]
    rfl

theorem returnSites_foldl_addFlow {n : Node} (hn : n.action.isCall = true) (es : List FlowEdge) :
    ∀ g : Supergraph, (es.foldl addFlow g).returnSites n =
      g.returnSites n ++ (es.filter fun e => e.source = n).map FlowEdge.target := by
  induction es with
  | nil => exact fun g => (List.append_nil _).symm
  | cons e es ih =>
      intro g
      rw [List.foldl_cons, ih, returnSites_addFlow g e hn]
      by_cases h : e.source = n <;> simp [h]

theorem continuations_foldl_addNode (m : Method) (ns : List Node) : ∀ g : Supergraph,
    (ns.foldl (addNode · m ·) g).continuations = g.continuations := by
  induction ns with
  | nil => exact fun g => rfl
  | cons n ns ih => exact fun g => ih (g.addNode m n)

theorem returnSites_addMethod (g : Supergraph) (c : ControlFlow) {n : Node}
    (hn : n.action.isCall = true) :
    (g.addMethod c).returnSites n =
      g.returnSites n ++ (c.edges.filter fun e => e.source = n).map FlowEdge.target := by
  rw [addMethod, returnSites_foldl_addFlow hn, returnSites, continuations_foldl_addNode]
  rfl

theorem returnSites_foldl_addMethod {n : Node} (hn : n.action.isCall = true)
    (cs : List ControlFlow) : ∀ g : Supergraph, (cs.foldl addMethod g).returnSites n =
      g.returnSites n ++
        ((cs.flatMap (·.edges)).filter fun e => e.source = n).map FlowEdge.target := by
  induction cs with
  | nil => exact fun g => (List.append_nil _).symm
  | cons c cs ih =>
      intro g
      rw [List.foldl_cons, ih, returnSites_addMethod g c hn]
      simp

theorem continuations_addCall (g : Supergraph) (e : CallEdge) :
    (g.addCall e).continuations = g.continuations := by
  suffices hs : ∀ (es : List Edge) (g : Supergraph),
      (es.foldl addEdge g).continuations = g.continuations from hs _ g
  intro es
  induction es with
  | nil => exact fun g => rfl
  | cons e es ih => exact fun g => ih (g.addEdge e)

theorem continuations_foldl_addCall (es : List CallEdge) : ∀ g : Supergraph,
    (es.foldl addCall g).continuations = g.continuations := by
  induction es with
  | nil => exact fun g => rfl
  | cons e es ih =>
      intro g
      rw [List.foldl_cons, ih, continuations_addCall]

/-- Connecting calls does not change where callers go on, so each call finds what the first round
has noted. -/
theorem grows_foldl_addCall (es : List CallEdge) : ∀ g : Supergraph,
    g.Grows (es.foldl addCall g) [] (es.flatMap fun e => e.lift (g.returnSites e.site)) := by
  induction es with
  | nil => exact Grows.refl
  | cons e es ih =>
      intro g
      have hsame : (g.addCall e).returnSites = g.returnSites := by
        funext n
        rw [returnSites, continuations_addCall, returnSites]
      rw [List.flatMap_cons, ← hsame]
      exact (hsame ▸ g.grows_addCall e).trans (ih (g.addCall e))

/-! ## The methods of nodes -/

theorem get?_homes_foldl_addNode (m : Method) (n : Node) (ns : List Node) : ∀ g : Supergraph,
    (ns.foldl (addNode · m ·) g).homes.get? n = if n ∈ ns then some m else g.homes.get? n := by
  induction ns with
  | nil => exact fun g => by simp
  | cons n' ns ih =>
      intro g
      rw [List.foldl_cons, ih, addNode, Assoc.get?_set]
      by_cases hn : n = n' <;> simp [hn]

theorem homes_foldl_addFlow (es : List FlowEdge) : ∀ g : Supergraph,
    (es.foldl addFlow g).homes = g.homes := by
  induction es with
  | nil => exact fun g => rfl
  | cons e es ih =>
      intro g
      rw [List.foldl_cons, ih, addFlow]
      split <;> rfl

theorem get?_homes_addMethod (g : Supergraph) (c : ControlFlow) (n : Node) :
    (g.addMethod c).homes.get? n =
      if n ∈ c.nodes then some c.method else g.homes.get? n := by
  rw [addMethod, homes_foldl_addFlow, get?_homes_foldl_addNode]

/-- A node lies in a method that was added, unless none of these has it. -/
theorem homes_foldl_addMethod (n : Node) (cs : List ControlFlow) : ∀ g : Supergraph,
    (∃ c ∈ cs, n ∈ c.nodes ∧ (cs.foldl addMethod g).homes.get? n = some c.method) ∨
      (∀ c ∈ cs, n ∉ c.nodes) ∧ (cs.foldl addMethod g).homes.get? n = g.homes.get? n := by
  induction cs with
  | nil => exact fun g => .inr ⟨fun c hc => absurd hc List.not_mem_nil, rfl⟩
  | cons c cs ih =>
      intro g
      rw [List.foldl_cons]
      rcases ih (g.addMethod c) with ⟨c', hc', hn, hget⟩ | ⟨hno, hget⟩
      · exact .inl ⟨c', List.mem_cons_of_mem c hc', hn, hget⟩
      · rw [get?_homes_addMethod] at hget
        by_cases hn : n ∈ c.nodes
        · rw [if_pos hn] at hget
          exact .inl ⟨c, List.mem_cons_self, hn, hget⟩
        · rw [if_neg hn] at hget
          exact .inr ⟨List.forall_mem_cons.mpr ⟨hn, hno⟩, hget⟩

theorem homes_foldl_addCall (es : List CallEdge) : ∀ g : Supergraph,
    (es.foldl addCall g).homes = g.homes := by
  have hedges : ∀ (es : List Edge) (g : Supergraph), (es.foldl addEdge g).homes = g.homes := by
    intro es
    induction es with
    | nil => exact fun g => rfl
    | cons e es ih => exact fun g => ih (g.addEdge e)
  induction es with
  | nil => exact fun g => rfl
  | cons e es ih =>
      intro g
      rw [List.foldl_cons, ih, addCall, hedges]

/-! ## The two rounds -/

section

variable (calls : CallGraph) (flows : List ControlFlow)

theorem returnSites_assemble {n : Node} (hn : n.action.isCall = true) :
    (assemble calls flows).returnSites n =
      ((flows.flatMap (·.edges)).filter fun e => e.source = n).map FlowEdge.target := by
  rw [assemble, returnSites, continuations_foldl_addCall]
  exact returnSites_foldl_addMethod hn flows (bare calls flows)

theorem grows_assemble :
    (bare calls flows).Grows (assemble calls flows) (flows.flatMap ControlFlow.nodes)
      ((flows.flatMap (·.edges)).map FlowEdge.lift ++ calls.edges.flatMap fun e =>
        e.lift ((flows.foldl addMethod (bare calls flows)).returnSites e.site)) := by
  have hfirst := Grows.foldl grows_addMethod flows (bare calls flows)
  rw [← List.map_flatMap] at hfirst
  simpa [assemble] using hfirst.trans (grows_foldl_addCall calls.edges _)

theorem calls_assemble : (assemble calls flows).calls = calls := (grows_assemble calls flows).calls

theorem flows_assemble : (assemble calls flows).flows = flows := (grows_assemble calls flows).flows

theorem nodes_assemble : (assemble calls flows).nodes = flows.flatMap ControlFlow.nodes :=
  (grows_assemble calls flows).nodes

theorem indexed_assemble : (assemble calls flows).Indexed Edge.source Edge.target :=
  (grows_assemble calls flows).indexed Wiring.indexed_empty

theorem homes_assemble (n : Node) :
    (∃ c ∈ flows, n ∈ c.nodes ∧ (assemble calls flows).homes.get? n = some c.method) ∨
      (∀ c ∈ flows, n ∉ c.nodes) ∧ (assemble calls flows).homes.get? n = none := by
  rw [assemble, homes_foldl_addCall]
  exact homes_foldl_addMethod n flows (bare calls flows)

/-- The edges of a supergraph: those inside methods, and those of the calls. -/
theorem edges_assemble (hsites : ∀ e ∈ calls.edges, e.site.action.isCall = true) :
    (assemble calls flows).edges = (flows.flatMap (·.edges)).map FlowEdge.lift ++
      calls.edges.flatMap fun e => e.lift
        (((flows.flatMap (·.edges)).filter fun f => f.source = e.site).map FlowEdge.target) := by
  refine (grows_assemble calls flows).edges.trans ?_
  refine (List.nil_append _).trans (congrArg (_ ++ ·) (List.flatMap_congr fun e he => ?_))
  rw [returnSites_foldl_addMethod (hsites e he) flows (bare calls flows)]
  rfl

end

end Supergraph

end ConstFlow
