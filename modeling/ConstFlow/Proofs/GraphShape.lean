import ConstFlow.Proofs.Assembly

/-!
# The shape of a supergraph

What is true of every supergraph that was built. `Supergraph.Built` says how it came about, and
`Built.mem_edges_iff` reads off all its edges: those that lift an edge inside a method, and those of
a resolved call, into the callee and back to wherever the caller may go on.

`Supergraph.WellFormed` is the part that the solver needs: no node is listed twice, edges run
between listed nodes and are found under both, and the methods and calls that edges name are in the
graph too.

A node knows the name of its method, and method names are distinct, so what is known of a node of
the graph comes from the one method that it lies in (`Program.eq_of_mem_nodes`).
-/

namespace ConstFlow

theorem map_eq_of_mapM_eq_ok {ε α β : Type} {f : α → Except ε β} :
    ∀ {as : List α} {bs : List β}, as.mapM f = .ok bs → as.map f = bs.map .ok
  | [], bs, h => by
      rw [List.mapM_nil] at h
      obtain rfl := Except.ok.inj h
      rfl
  | a :: as, bs, h => by
      rw [List.mapM_cons] at h
      obtain ⟨b, hb, h⟩ := except_bind_eq_ok h
      obtain ⟨bs', hbs, h⟩ := except_bind_eq_ok h
      obtain rfl := Except.ok.inj h
      rw [List.map_cons, List.map_cons, hb, map_eq_of_mapM_eq_ok hbs]

theorem mapM_eq_ok_of_map_eq {ε α β : Type} {f : α → Except ε β} :
    ∀ {as : List α} {bs : List β}, as.map f = bs.map .ok → as.mapM f = .ok bs
  | [], [], _ => List.mapM_nil
  | a :: as, b :: bs, h => by
      obtain ⟨hb, hbs⟩ := List.cons.inj h
      rw [List.mapM_cons, hb, mapM_eq_ok_of_map_eq hbs]
      rfl

theorem exists_mapM_eq_ok {ε α β : Type} {f : α → Except ε β} :
    ∀ {as : List α}, (∀ a ∈ as, ∃ b, f a = .ok b) → ∃ bs, as.mapM f = .ok bs
  | [], _ => ⟨[], List.mapM_nil⟩
  | a :: as, h => by
      rw [List.forall_mem_cons] at h
      obtain ⟨b, hb⟩ := h.1
      obtain ⟨bs, hbs⟩ := exists_mapM_eq_ok h.2
      exact ⟨b :: bs, by rw [List.mapM_cons, hb, hbs]; rfl⟩

/-! ## Nodes of a method -/

namespace Method

variable {m : Method}

theorem method_node {i : Nat} {s : Stmt} (h : m.body[i]? = some s) : s.node.method = m.name :=
  (place h).1

theorem pos_node {i : Nat} {s : Stmt} (h : m.body[i]? = some s) : s.node.pos = i + 1 :=
  congrArg (· + 1) (place h).2

theorem mem_stmtNodes_iff {n : Node} :
    n ∈ m.stmtNodes ↔ ∃ (i : Nat) (s : Stmt), m.body[i]? = some s ∧ n = s.node := by
  rw [stmtNodes, List.mem_map]
  constructor
  · rintro ⟨s, hs, rfl⟩
    obtain ⟨i, hi⟩ := List.mem_iff_getElem?.mp hs
    exact ⟨i, s, hi, rfl⟩
  · rintro ⟨i, s, h, rfl⟩
    exact ⟨s, List.mem_of_getElem? h, rfl⟩

theorem mem_nodes_iff {n : Node} :
    n ∈ m.nodes ↔ n = m.entry ∨ n ∈ m.stmtNodes ∨ n = m.exit := by
  simp [nodes]

theorem entry_mem_nodes (m : Method) : m.entry ∈ m.nodes := mem_nodes_iff.mpr (Or.inl rfl)

theorem exit_mem_nodes (m : Method) : m.exit ∈ m.nodes :=
  mem_nodes_iff.mpr (Or.inr (Or.inr rfl))

theorem nodeAt_mem_nodes (m : Method) (i : Nat) : m.nodeAt i ∈ m.nodes := by
  unfold nodeAt
  split
  · rename_i s hs
    exact mem_nodes_iff.mpr (Or.inr (Or.inl (mem_stmtNodes_iff.mpr ⟨i, s, hs, rfl⟩)))
  · exact exit_mem_nodes m

theorem method_of_mem_nodes {n : Node} (h : n ∈ m.nodes) : n.method = m.name := by
  rcases mem_nodes_iff.mp h with rfl | h | rfl
  · rfl
  · obtain ⟨i, s, hs, rfl⟩ := mem_stmtNodes_iff.mp h
    exact method_node hs
  · rfl

/-- Nodes are numbered one after another. -/
theorem map_pos_nodes (m : Method) : m.nodes.map Node.pos = List.range (m.body.length + 2) := by
  have hstmts : m.stmtNodes.map Node.pos = (List.range m.body.length).map (· + 1) := by
    have hindex := congrArg (List.map fun x => x.2 + 1) m.placed
    rw [List.map_map, List.map_map] at hindex
    rw [stmtNodes, List.map_map]
    exact hindex
  rw [nodes, List.map_append, List.map_cons, hstmts, List.range_succ, List.range_succ_eq_map]
  rfl

theorem nodes_nodup (m : Method) : m.nodes.Nodup := by
  refine List.Nodup.of_map Node.pos ?_
  rw [map_pos_nodes]
  exact List.nodup_range

/-- Only statements call. -/
theorem mem_callSites_of_isCall {n : Node} (h : n ∈ m.nodes) (hc : n.action.isCall = true) :
    n ∈ m.callSites := by
  rcases mem_nodes_iff.mp h with rfl | h | rfl
  · cases hc
  · exact List.mem_filter.mpr ⟨h, hc⟩
  · cases hc

theorem mem_nodes_of_mem_callSites {n : Node} (h : n ∈ m.callSites) : n ∈ m.nodes :=
  mem_nodes_iff.mpr (Or.inr (Or.inl (List.mem_filter.mp h).1))

/-! ## Control flow of a method -/

theorem mem_nodes_of_edgesFrom {i : Nat} {s : Stmt} {es : List FlowEdge}
    (h : m.edgesFrom i s = .ok es) {e : FlowEdge} (he : e ∈ es) :
    e.source = s.node ∧ e.target ∈ m.nodes := by
  unfold edgesFrom at h
  split at h
  · obtain rfl := Except.ok.inj h
    obtain rfl := List.mem_singleton.mp he
    exact ⟨rfl, exit_mem_nodes m⟩
  · obtain ⟨t, -, h⟩ := except_bind_eq_ok h
    obtain rfl := Except.ok.inj h
    obtain rfl := List.mem_singleton.mp he
    exact ⟨rfl, nodeAt_mem_nodes m _⟩
  · obtain ⟨t, -, h⟩ := except_bind_eq_ok h
    obtain rfl := Except.ok.inj h
    simp only [List.mem_cons, List.not_mem_nil, or_false] at he
    rcases he with rfl | rfl
    · exact ⟨rfl, nodeAt_mem_nodes m _⟩
    · exact ⟨rfl, nodeAt_mem_nodes m _⟩
  · obtain rfl := Except.ok.inj h
    obtain rfl := List.mem_singleton.mp he
    exact ⟨rfl, nodeAt_mem_nodes m _⟩

theorem mem_nodes_of_bodyEdges {e : FlowEdge} :
    ∀ {ss : List Stmt} {i : Nat} {es : List FlowEdge}, (∀ j, ss[j]? = m.body[i + j]?) →
      m.bodyEdges i ss = .ok es → e ∈ es → e.source ∈ m.nodes ∧ e.target ∈ m.nodes
  | [], i, es, _, h, he => by
      obtain rfl := Except.ok.inj h
      cases he
  | s :: rest, i, es, hbody, h, he => by
      rw [bodyEdges] at h
      obtain ⟨here, hhere, h⟩ := except_bind_eq_ok h
      obtain ⟨more, hmore, h⟩ := except_bind_eq_ok h
      obtain rfl := Except.ok.inj h
      rcases List.mem_append.mp he with he | he
      · obtain ⟨hs, ht⟩ := mem_nodes_of_edgesFrom hhere he
        have hi : m.body[i]? = some s := by simpa using (hbody 0).symm
        refine ⟨mem_nodes_iff.mpr (Or.inr (Or.inl ?_)), ht⟩
        exact mem_stmtNodes_iff.mpr ⟨i, s, hi, hs⟩
      · refine mem_nodes_of_bodyEdges (fun j => ?_) hmore he
        have := hbody (j + 1)
        rw [List.getElem?_cons_succ] at this
        rw [this, Nat.add_right_comm, Nat.add_assoc]

end Method

/-- A method is known by any of its nodes. -/
theorem Program.eq_of_mem_nodes {p : Program} {m c : Method} (hm : m ∈ p.methods)
    (hc : c ∈ p.methods) {n : Node} (hnm : n ∈ m.nodes) (hnc : n ∈ c.nodes) : m = c :=
  eq_of_name_eq hm hc
    ((Method.method_of_mem_nodes hnm).symm.trans (Method.method_of_mem_nodes hnc))

/-- A node is known by its method and its position. -/
theorem Program.node_eq {p : Program} {n n' : Node} (hn : ∃ m ∈ p.methods, n ∈ m.nodes)
    (hn' : ∃ m ∈ p.methods, n' ∈ m.nodes) (hmethod : n.method = n'.method)
    (hpos : n.pos = n'.pos) : n = n' := by
  obtain ⟨m, hm, hnm⟩ := hn
  obtain ⟨c, hc, hnc⟩ := hn'
  obtain rfl : m = c := eq_of_name_eq hm hc <|
    (Method.method_of_mem_nodes hnm).symm.trans (hmethod.trans (Method.method_of_mem_nodes hnc))
  refine List.inj_on_of_nodup_map ?_ hnm hnc hpos
  rw [Method.map_pos_nodes]
  exact List.nodup_range

namespace ControlFlow

theorem mem_nodes_of_build {m : Method} {c : ControlFlow} (h : build m = .ok c) {e : FlowEdge}
    (he : e ∈ c.edges) : e.source ∈ m.nodes ∧ e.target ∈ m.nodes := by
  obtain ⟨body, hbody, rfl⟩ := of_build h
  rw [edges_drawn] at he
  rcases List.mem_cons.mp he with rfl | he
  · exact ⟨m.entry_mem_nodes, m.nodeAt_mem_nodes 0⟩
  · exact Method.mem_nodes_of_bodyEdges (fun j => by rw [Nat.zero_add]) hbody he

end ControlFlow

/-! ## Supergraphs -/

namespace Supergraph

/-- A supergraph put together from a call graph and the control flow of its methods. -/
structure Built (p : Program) (g : Supergraph) : Prop where
  calls : g.calls.Built p
  flows : g.methods.map ControlFlow.build = g.flows.map .ok
  assembled : g = assemble g.calls g.flows

theorem built_of_build {p : Program} {names : List Text} {g : Supergraph}
    (h : build p names = .ok g) : Built p g := by
  obtain ⟨calls, hcalls, h⟩ := except_bind_eq_ok h
  obtain ⟨flows, hflows, h⟩ := except_bind_eq_ok h
  obtain rfl := Except.ok.inj h
  refine ⟨?_, ?_, ?_⟩
  · rw [calls_assemble]
    exact CallGraph.built_of_build hcalls
  · rw [methods, calls_assemble, flows_assemble]
    exact map_eq_of_mapM_eq_ok hflows
  · rw [calls_assemble, flows_assemble]

theorem exists_build_of_flows {p : Program} {names : List Text} {calls : CallGraph}
    (h : CallGraph.build p names = .ok calls)
    (hflows : ∀ m ∈ calls.reachable, ∃ c, ControlFlow.build m = .ok c) :
    ∃ g, build p names = .ok g := by
  obtain ⟨flows, hf⟩ := exists_mapM_eq_ok hflows
  refine ⟨assemble calls flows, ?_⟩
  simp only [build, h, hf, bind, Except.bind, pure, Except.pure]

theorem calls_of_build {p : Program} {names : List Text} {g : Supergraph}
    (h : build p names = .ok g) : CallGraph.build p names = .ok g.calls := by
  obtain ⟨calls, hcalls, h⟩ := except_bind_eq_ok h
  obtain ⟨flows, -, h⟩ := except_bind_eq_ok h
  obtain rfl := Except.ok.inj h
  rw [calls_assemble, hcalls]

theorem mem_methods_iff {p : Program} {names : List Text} {g : Supergraph}
    (h : build p names = .ok g) {m : Method} : m ∈ g.methods ↔ p.Reaches names m :=
  CallGraph.mem_reachable_iff (calls_of_build h)

theorem mem_entryMethods_of_build {p : Program} {names : List Text} {g : Supergraph}
    (h : build p names = .ok g) {name : Text} (hn : name ∈ names) {m : Method}
    (hm : p.find? name = some m) : m ∈ g.entryMethods :=
  (CallGraph.mem_entries_iff (calls_of_build h)).mpr ⟨name, hn, hm⟩

theorem entryOf_eq_ok_iff (g : Supergraph) {m : Method} {n : Node} :
    g.entryOf m = .ok n ↔ m ∈ g.methods ∧ n = m.entry := by
  unfold entryOf CallGraph.isReachable methods
  split <;> simp_all [eq_comm]

theorem exitOf_eq_ok_iff (g : Supergraph) {m : Method} {n : Node} :
    g.exitOf m = .ok n ↔ m ∈ g.methods ∧ n = m.exit := by
  unfold exitOf CallGraph.isReachable methods
  split <;> simp_all [eq_comm]

namespace Built

variable {p : Program} {g : Supergraph} (hg : Built p g)
include hg

theorem exists_build {m : Method} (hm : m ∈ g.methods) :
    ∃ c ∈ g.flows, ControlFlow.build m = .ok c := by
  have h : ControlFlow.build m ∈ g.flows.map .ok := hg.flows ▸ List.mem_map_of_mem hm
  obtain ⟨c, hc, hb⟩ := List.mem_map.mp h
  exact ⟨c, hc, hb.symm⟩

theorem exists_method {c : ControlFlow} (hc : c ∈ g.flows) :
    ∃ m ∈ g.methods, ControlFlow.build m = .ok c := by
  have h : Except.ok c ∈ g.methods.map ControlFlow.build := hg.flows ▸ List.mem_map_of_mem hc
  exact List.mem_map.mp h

/-- The nodes are those of the methods, one method after another. -/
theorem nodes_eq : g.nodes = g.methods.flatMap Method.nodes := by
  have hmethods : ∀ {ms : List Method} {cs : List ControlFlow},
      ms.map ControlFlow.build = cs.map .ok → cs.map ControlFlow.method = ms := by
    intro ms
    induction ms with
    | nil => intro cs h; rw [List.map_eq_nil_iff.mp h.symm]; rfl
    | cons m ms ih =>
        intro cs h
        obtain ⟨c, cs, rfl⟩ : ∃ c ds, cs = c :: ds := by
          cases cs with
          | nil => cases h
          | cons c ds => exact ⟨c, ds, rfl⟩
        obtain ⟨hc, hcs⟩ := List.cons.inj h
        rw [List.map_cons, ih hcs, ControlFlow.method_of_build hc]
  rw [hg.assembled, nodes_assemble, methods, calls_assemble, ← methods, ← hmethods hg.flows,
    List.flatMap_map]
  rfl

theorem mem_nodes_iff {n : Node} : n ∈ g.nodes ↔ ∃ m ∈ g.methods, n ∈ m.nodes := by
  rw [hg.nodes_eq, List.mem_flatMap]

theorem node_eq {n n' : Node} (hn : n ∈ g.nodes) (hn' : n' ∈ g.nodes)
    (hmethod : n.method = n'.method) (hpos : n.pos = n'.pos) : n = n' := by
  obtain ⟨m, hm, hnm⟩ := hg.mem_nodes_iff.mp hn
  obtain ⟨m', hm', hnm'⟩ := hg.mem_nodes_iff.mp hn'
  have hdef := hg.calls.reachable.defined
  exact Program.node_eq ⟨m, hdef m hm, hnm⟩ ⟨m', hdef m' hm', hnm'⟩ hmethod hpos

theorem nodes_nodup : g.nodes.Nodup := by
  rw [hg.nodes_eq, List.nodup_flatMap]
  refine ⟨fun m _ => m.nodes_nodup, ?_⟩
  refine List.Pairwise.imp ?_ (List.pairwise_map.mp hg.calls.reachable.distinct)
  intro m c hne n hm hc
  exact hne ((Method.method_of_mem_nodes hm).symm.trans (Method.method_of_mem_nodes hc))

/-! ## Edges of a supergraph -/

theorem isCall_site {e : CallEdge} (he : e ∈ g.calls.edges) : e.site.action.isCall = true := by
  obtain ⟨hsite, -⟩ := hg.calls.mem_edges_iff.mp he
  obtain ⟨m, -, hn⟩ := List.mem_flatMap.mp hsite
  exact (List.mem_filter.mp hn).2

theorem edges_eq_lifted : g.edges = (g.flows.flatMap (·.edges)).map FlowEdge.lift ++
    g.calls.edges.flatMap fun e => e.lift
      (((g.flows.flatMap (·.edges)).filter fun f => f.source = e.site).map FlowEdge.target) := by
  have hedges := edges_assemble g.calls g.flows fun e he => hg.isCall_site he
  rwa [← hg.assembled] at hedges

theorem indexed : g.Indexed Edge.source Edge.target := by
  rw [hg.assembled]
  exact indexed_assemble g.calls g.flows

/-- An edge of the graph lifts an edge inside a method, or belongs to a resolved call. -/
theorem mem_edges_iff {e : Edge} :
    e ∈ g.edges ↔
      (∃ c ∈ g.flows, ∃ f ∈ c.edges, e = f.lift) ∨
        ∃ n ∈ g.calls.sites, ∃ callee, p.resolve? n = some callee ∧
          (e = ⟨n, callee.entry, .call callee⟩ ∨
            ∃ c ∈ g.flows, ∃ f ∈ c.edges, f.source = n ∧
              e = ⟨callee.exit, f.target, .ret n callee⟩) := by
  rw [hg.edges_eq_lifted, List.mem_append]
  refine or_congr ?_ ?_
  · simp only [List.mem_map, List.mem_flatMap]
    constructor
    · rintro ⟨f, ⟨c, hc, hf⟩, rfl⟩
      exact ⟨c, hc, f, hf, rfl⟩
    · rintro ⟨c, hc, f, hf, rfl⟩
      exact ⟨f, ⟨c, hc, hf⟩, rfl⟩
  · simp only [List.mem_flatMap, CallEdge.lift, List.mem_cons, List.mem_map, List.mem_filter,
      decide_eq_true_eq]
    constructor
    · rintro ⟨⟨n, callee⟩, hn, h⟩
      obtain ⟨hsite, hres⟩ := hg.calls.mem_edges_iff.mp hn
      refine ⟨n, hsite, callee, hres, ?_⟩
      rcases h with rfl | ⟨r, ⟨f, ⟨⟨c, hc, hf⟩, hs⟩, rfl⟩, rfl⟩
      · exact Or.inl rfl
      · exact Or.inr ⟨c, hc, f, hf, hs, rfl⟩
    · rintro ⟨n, hsite, callee, hres, h⟩
      refine ⟨⟨n, callee⟩, hg.calls.mem_edges_iff.mpr ⟨hsite, hres⟩, ?_⟩
      rcases h with rfl | ⟨c, hc, f, hf, hs, rfl⟩
      · exact Or.inl rfl
      · exact Or.inr ⟨f.target, ⟨f, ⟨⟨c, hc, hf⟩, hs⟩, rfl⟩, rfl⟩

theorem mem_sites_iff {n : Node} : n ∈ g.calls.sites ↔ n ∈ g.nodes ∧ n.action.isCall = true := by
  rw [hg.mem_nodes_iff, CallGraph.sites, List.mem_flatMap]
  constructor
  · rintro ⟨m, hm, hn⟩
    exact ⟨⟨m, hm, Method.mem_nodes_of_mem_callSites hn⟩, (List.mem_filter.mp hn).2⟩
  · rintro ⟨⟨m, hm, hn⟩, hc⟩
    exact ⟨m, hm, Method.mem_callSites_of_isCall hn hc⟩

/-- The callee of a call of the graph is in the graph. -/
theorem callee_mem {n : Node} (hn : n ∈ g.calls.sites) {callee : Method}
    (h : p.resolve? n = some callee) : callee ∈ g.methods := by
  obtain ⟨m, hm, hn⟩ := List.mem_flatMap.mp hn
  exact hg.calls.reachable.closed m hm callee (List.mem_filterMap.mpr ⟨n, hn, h⟩)

theorem mem_nodes_of_flow {c : ControlFlow} (hc : c ∈ g.flows) {f : FlowEdge} (hf : f ∈ c.edges) :
    f.source ∈ g.nodes ∧ f.target ∈ g.nodes := by
  obtain ⟨m, hm, hb⟩ := hg.exists_method hc
  obtain ⟨hs, ht⟩ := ControlFlow.mem_nodes_of_build hb hf
  exact ⟨hg.mem_nodes_iff.mpr ⟨m, hm, hs⟩, hg.mem_nodes_iff.mpr ⟨m, hm, ht⟩⟩

end Built

/-! ## What the solver needs -/

/-- Nodes are listed once, edges are found under their ends, and whatever edges and entries speak of
is in the graph. -/
structure WellFormed (g : Supergraph) : Prop where
  nodup : g.nodes.Nodup
  indexed : g.Indexed Edge.source Edge.target
  source_mem : ∀ e ∈ g.edges, e.source ∈ g.nodes
  target_mem : ∀ e ∈ g.edges, e.target ∈ g.nodes
  callee_mem : ∀ e ∈ g.edges, ∀ callee, e.kind = .call callee → callee ∈ g.methods
  site_mem : ∀ e ∈ g.edges, ∀ n callee, e.kind = .ret n callee → n ∈ g.nodes
  entry_mem : ∀ m ∈ g.entryMethods, m ∈ g.methods
  entry_inj : ∀ m ∈ g.entryMethods, ∀ c ∈ g.entryMethods, m.entry = c.entry → m = c

theorem Built.wellFormed {p : Program} {g : Supergraph} (hg : Built p g) : g.WellFormed := by
  have hmethod : ∀ m ∈ g.methods, ∀ n ∈ m.nodes, n ∈ g.nodes := fun m hm n hn =>
    hg.mem_nodes_iff.mpr ⟨m, hm, hn⟩
  have hsite : ∀ n ∈ g.calls.sites, n ∈ g.nodes := fun n hn => (hg.mem_sites_iff.mp hn).1
  refine ⟨hg.nodes_nodup, hg.indexed, ?_, ?_, ?_, ?_, ?_, ?_⟩
  · intro e he
    rcases hg.mem_edges_iff.mp he with ⟨c, hc, f, hf, rfl⟩ | ⟨n, hn, callee, hres, h⟩
    · exact (hg.mem_nodes_of_flow hc hf).1
    · rcases h with rfl | ⟨c, hc, f, hf, -, rfl⟩
      · exact hsite n hn
      · exact hmethod callee (hg.callee_mem hn hres) _ callee.exit_mem_nodes
  · intro e he
    rcases hg.mem_edges_iff.mp he with ⟨c, hc, f, hf, rfl⟩ | ⟨n, hn, callee, hres, h⟩
    · exact (hg.mem_nodes_of_flow hc hf).2
    · rcases h with rfl | ⟨c, hc, f, hf, -, rfl⟩
      · exact hmethod callee (hg.callee_mem hn hres) _ callee.entry_mem_nodes
      · exact (hg.mem_nodes_of_flow hc hf).2
  · intro e he callee hk
    rcases hg.mem_edges_iff.mp he with ⟨c, hc, f, hf, rfl⟩ | ⟨n, hn, callee', hres, h⟩
    · simp only [FlowEdge.lift] at hk
      split at hk <;> cases hk
    · rcases h with rfl | ⟨c, hc, f, hf, -, rfl⟩
      · cases hk
        exact hg.callee_mem hn hres
      · cases hk
  · intro e he site callee hk
    rcases hg.mem_edges_iff.mp he with ⟨c, hc, f, hf, rfl⟩ | ⟨n, hn, callee', hres, h⟩
    · simp only [FlowEdge.lift] at hk
      split at hk <;> cases hk
    · rcases h with rfl | ⟨c, hc, f, hf, -, rfl⟩
      · cases hk
      · cases hk
        exact hsite site hn
  · exact hg.calls.entries
  · intro m hm c hc h
    have hdef := hg.calls.reachable.defined
    exact Program.eq_of_name_eq (hdef m (hg.calls.entries m hm)) (hdef c (hg.calls.entries c hc))
      (congrArg Node.method h)

theorem wellFormed_of_build {p : Program} {names : List Text} {g : Supergraph}
    (h : build p names = .ok g) : g.WellFormed := (built_of_build h).wellFormed

theorem WellFormed.mem_inEdges_iff {g : Supergraph} (hg : g.WellFormed) {e : Edge} {n : Node} :
    e ∈ g.inEdges n ↔ e ∈ g.edges ∧ e.target = n := by
  simp [hg.indexed.into]

theorem WellFormed.mem_succs_iff {g : Supergraph} (hg : g.WellFormed) {n r : Node} :
    r ∈ g.succs n ↔ ∃ e ∈ g.edges, e.source = n ∧ e.target = r := by
  simp [succs, hg.indexed.out, and_assoc]

end Supergraph

/-! ## A graph to try results on -/

namespace Sample

/-- A loop around a call. -/
def main : Method :=
  .of "main" []
    [⟨1, .literal ⟨"main", "i"⟩ 3⟩,
      ⟨2, .call "pick" [⟨"main", "i"⟩, ⟨"main", "i"⟩] (some ⟨"main", "j"⟩)⟩,
      ⟨3, .branch .lt ⟨"main", "i"⟩ ⟨"main", "j"⟩ "again"⟩,
      ⟨4, .ret (some ⟨"main", "j"⟩)⟩]
    (Assoc.empty.set "again" 1)

/-- Calls itself with the arguments exchanged. -/
def pick : Method :=
  .of "pick" [⟨"pick", "a"⟩, ⟨"pick", "b"⟩]
    [⟨6, .branch .lt ⟨"pick", "a"⟩ ⟨"pick", "b"⟩ "done"⟩,
      ⟨7, .call "pick" [⟨"pick", "b"⟩, ⟨"pick", "a"⟩] (some ⟨"pick", "a"⟩)⟩,
      ⟨8, .ret (some ⟨"pick", "a"⟩)⟩,
      ⟨9, .ret (some ⟨"pick", "b"⟩)⟩]
    (Assoc.empty.set "done" 3)

def program : Program := ⟨[main, pick], by decide⟩

/-- The graph of any program that has one, to be evaluated. -/
def graphOf (p : Program) (names : List Text) : Supergraph :=
  match Supergraph.build p names with
  | .ok g => g
  | .error _ => .bare (.bare p []) []

theorem build_graphOf {p : Program} {names : List Text}
    (h : (Supergraph.build p names).isOk = true) :
    Supergraph.build p names = .ok (graphOf p names) := by
  unfold graphOf
  split
  · assumption
  · rename_i e he
    rw [he] at h
    cases h

def graph : Supergraph := graphOf program ["main"]

theorem build_eq : Supergraph.build program ["main"] = .ok graph :=
  build_graphOf (by decide +kernel)

end Sample

end ConstFlow
