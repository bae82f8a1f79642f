import Mathlib.Algebra.GroupWithZero.Nat
import ConstFlow.Proofs.Machine

/-!
# The edges of a supergraph

All edges of a supergraph, written out (`Supergraph.Built.edges_eq`): those of each method, in the
order of its statements, and then those of each resolved call. Everything else about the edges is
read off that list. A filter of it is a filter at one node, since nodes are listed once
(`filter_flatMap_of_mem`), and its length is a sum over methods.

Two edges of the graph may be equal: a branch to the statement that comes next anyway has one edge
for each way it can go. So whether edges are listed completely is said with permutations, which
count.
-/

namespace ConstFlow

/-! ## Picking from a concatenation -/

theorem filter_flatMap_of_mem {α β : Type} {f : α → List β} {q : β → Bool} {a : α} :
    ∀ {as : List α}, as.Nodup → a ∈ as → (∀ b ∈ as, b ≠ a → ∀ x ∈ f b, q x = false) →
      (as.flatMap f).filter q = (f a).filter q
  | c :: as, hnd, ha, hother => by
      rw [List.nodup_cons] at hnd
      rw [List.forall_mem_cons] at hother
      rw [List.flatMap_cons, List.filter_append]
      have hnone : ∀ {bs : List β}, (∀ x ∈ bs, q x = false) → bs.filter q = [] := fun h =>
        List.filter_eq_nil_iff.mpr fun x hx => by rw [h x hx]; decide
      rcases List.mem_cons.mp ha with rfl | ha
      · have hrest : ∀ x ∈ as.flatMap f, q x = false := by
          intro x hx
          obtain ⟨b, hb, hx⟩ := List.mem_flatMap.mp hx
          exact hother.2 b hb (fun h => hnd.1 (h ▸ hb)) x hx
        rw [hnone hrest, List.append_nil]
      · rw [hnone (hother.1 fun h => hnd.1 (h ▸ ha)), List.nil_append]
        exact filter_flatMap_of_mem hnd.2 ha hother.2

/-- Things that are sorted by a key are all there, and as often as before. -/
theorem flatMap_filter_perm {α κ : Type} [DecidableEq κ] {key : α → κ} {ks : List κ}
    (hks : ks.Nodup) :
    ∀ {as : List α}, (∀ a ∈ as, key a ∈ ks) →
      (ks.flatMap fun k => as.filter fun a => key a = k).Perm as
  | [], _ => by simp
  | a :: as, h => by
      rw [List.forall_mem_cons] at h
      obtain ⟨before, after, rfl⟩ := List.append_of_mem h.1
      obtain ⟨-, hafter, hdisj⟩ := List.nodup_append.mp hks
      rw [List.nodup_cons] at hafter
      have hb : ∀ k ∈ before,
          ((a :: as).filter fun b => key b = k) = as.filter fun b => key b = k :=
        fun k hk => List.filter_cons_of_neg (by
          simpa using fun he => hdisj k hk (key a) List.mem_cons_self he.symm)
      have ha : ∀ k ∈ after,
          ((a :: as).filter fun b => key b = k) = as.filter fun b => key b = k :=
        fun k hk => List.filter_cons_of_neg (by
          simpa using fun he : key a = k => hafter.1 (he ▸ hk))
      have ih := flatMap_filter_perm hks h.2
      simp only [List.flatMap_append, List.flatMap_cons] at ih ⊢
      rw [List.flatMap_congr hb, List.flatMap_congr ha, List.filter_cons_of_pos (by simp)]
      exact List.perm_middle.trans (ih.cons a)

/-! ## Edges of a method -/

/-- Whether a statement is a branch. -/
def Action.isBranch : Action → Bool
  | branch .. => true
  | _ => false

namespace Method

variable {m : Method} {i : Nat} {s : Stmt} {es : List FlowEdge}

/-- The edges that leave a statement, if its label is defined. -/
def leaving (m : Method) (i : Nat) (s : Stmt) : List FlowEdge :=
  ((m.edgesFrom i s).toOption).getD []

/-- All edges of a method, if its labels are defined. -/
def flowEdges (m : Method) : List FlowEdge :=
  ⟨m.entry, m.nodeAt 0, .entry⟩ :: m.body.zipIdx.flatMap fun s => m.leaving s.2 s.1

theorem pos_nodeAt_ne_zero (m : Method) (i : Nat) : (m.nodeAt i).pos ≠ 0 := by
  unfold nodeAt
  split <;> exact Nat.succ_ne_zero _

/-- What the edges that leave a statement have in common: their source, and that they do not lead
to the entry. A branch has two of them and everything else one. -/
structure Leaving (m : Method) (i : Nat) (s : Stmt) (es : List FlowEdge) : Prop where
  source : ∀ e ∈ es, e.source = s.node
  target : ∀ e ∈ es, e.target.pos ≠ 0
  length : es.length = 1 + if s.action.isBranch then 1 else 0
  call : s.action.isCall = true → es = [⟨s.node, m.nodeAt (i + 1), .fallThrough⟩]

theorem leaving_of_edgesFrom (h : m.edgesFrom i s = .ok es) : m.Leaving i s es := by
  unfold edgesFrom at h
  split at h
  · rename_i ha
    obtain rfl := Except.ok.inj h
    refine ⟨?_, ?_, by simp [ha, Action.isBranch], by simp [ha, Action.isCall]⟩ <;>
      simp [exit]
  · rename_i l ha
    obtain ⟨t, -, h⟩ := except_bind_eq_ok h
    obtain rfl := Except.ok.inj h
    refine ⟨?_, ?_, by simp [ha, Action.isBranch], by simp [ha, Action.isCall]⟩ <;>
      simp [pos_nodeAt_ne_zero]
  · rename_i ha
    obtain ⟨t, -, h⟩ := except_bind_eq_ok h
    obtain rfl := Except.ok.inj h
    refine ⟨?_, ?_, by simp [ha, Action.isBranch], by simp [ha, Action.isCall]⟩ <;>
      simp [pos_nodeAt_ne_zero]
  · rename_i hret hjump hbranch
    obtain rfl := Except.ok.inj h
    refine ⟨?_, ?_, ?_, fun _ => rfl⟩
    · simp
    · simp [pos_nodeAt_ne_zero]
    · cases ha : s.action with
      | branch op l r label => exact absurd ha (hbranch op l r label)
      | _ => rfl

theorem bodyEdges_eq :
    ∀ {ss : List Stmt} {i : Nat} {es : List FlowEdge}, m.bodyEdges i ss = .ok es →
      (∀ s ∈ ss.zipIdx i, m.edgesFrom s.2 s.1 = .ok (m.leaving s.2 s.1)) ∧
        es = (ss.zipIdx i).flatMap fun s => m.leaving s.2 s.1
  | [], i, es, h => by
      obtain rfl := Except.ok.inj h
      exact ⟨by simp, rfl⟩
  | s :: rest, i, es, h => by
      rw [bodyEdges] at h
      obtain ⟨here, hhere, h⟩ := except_bind_eq_ok h
      obtain ⟨more, hmore, h⟩ := except_bind_eq_ok h
      obtain rfl := Except.ok.inj h
      obtain ⟨hall, rfl⟩ := bodyEdges_eq hmore
      have hleaving : m.leaving i s = here := by rw [leaving, hhere]; rfl
      rw [List.zipIdx_cons, List.forall_mem_cons, List.flatMap_cons, hleaving]
      exact ⟨⟨hhere, hall⟩, rfl⟩

end Method

/-- The labels of a method are defined, so it has control flow, with the edges written out. -/
theorem ControlFlow.edges_of_build {m : Method} {c : ControlFlow} (h : build m = .ok c) :
    c.edges = m.flowEdges ∧ ∀ s ∈ m.body.zipIdx, m.Leaving s.2 s.1 (m.leaving s.2 s.1) := by
  obtain ⟨body, hbody, rfl⟩ := of_build h
  obtain ⟨hall, rfl⟩ := Method.bodyEdges_eq hbody
  exact ⟨edges_drawn m _, fun s hs => Method.leaving_of_edgesFrom (hall s hs)⟩

namespace Method

variable {m : Method}

theorem length_flowEdges (h : ∀ s ∈ m.body.zipIdx, m.Leaving s.2 s.1 (m.leaving s.2 s.1)) :
    m.flowEdges.length = 1 + m.body.length + m.body.countP fun s => s.action.isBranch := by
  have hsum : ∀ {ss : List Stmt} {i : Nat},
      (∀ s ∈ ss.zipIdx i, m.Leaving s.2 s.1 (m.leaving s.2 s.1)) →
        ((ss.zipIdx i).flatMap fun s => m.leaving s.2 s.1).length =
          ss.length + ss.countP fun s => s.action.isBranch := by
    intro ss
    induction ss with
    | nil => exact fun _ => rfl
    | cons s ss ih =>
        intro i h
        rw [List.zipIdx_cons, List.forall_mem_cons] at h
        rw [List.zipIdx_cons, List.flatMap_cons, List.length_append, h.1.length, ih h.2,
          List.length_cons, List.countP_cons]
        show 1 + (if s.action.isBranch = true then 1 else 0) + _ = _
        omega
  rw [flowEdges, List.length_cons, hsum h]
  omega

theorem callSites_nodup (m : Method) : m.callSites.Nodup := by
  have hstmts : m.stmtNodes.Nodup := by
    have := m.nodes_nodup
    rw [nodes, List.cons_append, List.nodup_cons] at this
    exact this.2.of_append_left
  exact hstmts.filter _

/-- A call is a statement; `pos` is one more than its index. -/
theorem exists_stmt_of_mem_callSites {n : Node} (h : n ∈ m.callSites) :
    ∃ (i : Nat) (s : Stmt), m.body[i]? = some s ∧ n = s.node ∧ s.action.isCall = true := by
  obtain ⟨hn, hc⟩ := List.mem_filter.mp h
  obtain ⟨i, s, hs, rfl⟩ := mem_stmtNodes_iff.mp hn
  exact ⟨i, s, hs, rfl, hc⟩

/-- The edges that leave a statement are its own. -/
theorem filter_flowEdges_of_stmt
    (h : ∀ s ∈ m.body.zipIdx, m.Leaving s.2 s.1 (m.leaving s.2 s.1)) {i : Nat} {s : Stmt}
    (hs : m.body[i]? = some s) :
    (m.flowEdges.filter fun e => e.source = s.node) = m.leaving i s := by
  have hmem : (s, i) ∈ m.body.zipIdx := List.mem_zipIdx_iff_getElem?.mpr hs
  have hnodup : m.body.zipIdx.Nodup := by
    refine List.Nodup.of_map Prod.snd ?_
    rw [List.zipIdx_map_snd]
    exact List.nodup_range'
  rw [flowEdges, List.filter_cons_of_neg (by simp [entry, Stmt.node]),
    filter_flatMap_of_mem (a := (s, i)) hnodup hmem]
  · exact List.filter_eq_self.mpr fun e he => decide_eq_true ((h _ hmem).source e he)
  · rintro ⟨s', j⟩ hmem' hne e he
    have hs' : m.body[j]? = some s' := List.mem_zipIdx_iff_getElem?.mp hmem'
    rw [(h _ hmem').source e he]
    refine decide_eq_false fun hnode => hne ?_
    have hij : j + 1 = i + 1 := by rw [← pos_node hs', hnode, pos_node hs]
    obtain rfl := Nat.succ.inj hij
    rw [Option.some.inj (hs'.symm.trans hs)]

/-- A call has one edge inside its method, to what comes next. -/
theorem filter_flowEdges_of_mem_callSites
    (h : ∀ s ∈ m.body.zipIdx, m.Leaving s.2 s.1 (m.leaving s.2 s.1)) {n : Node}
    (hn : n ∈ m.callSites) :
    (m.flowEdges.filter fun e => e.source = n) = [⟨n, m.nodeAt n.pos, .fallThrough⟩] := by
  obtain ⟨i, s, hs, rfl, hc⟩ := exists_stmt_of_mem_callSites hn
  rw [filter_flowEdges_of_stmt h hs, pos_node hs]
  exact (h (s, i) (List.mem_zipIdx_iff_getElem?.mpr hs)).call hc

end Method

/-! ## Edges of a supergraph -/

/-- The edges of a call in a method, if it is resolved: into the callee, and from there to where the
method goes on. -/
def Program.callEdges (p : Program) (m : Method) (n : Node) : List Edge :=
  (p.resolve? n).toList.flatMap fun callee =>
    [⟨n, callee.entry, .call callee⟩, ⟨callee.exit, m.nodeAt n.pos, .ret n callee⟩]

theorem Program.mem_callEdges_iff {p : Program} {m : Method} {n : Node} {e : Edge} :
    e ∈ p.callEdges m n ↔ ∃ callee, p.resolve? n = some callee ∧
      (e = ⟨n, callee.entry, .call callee⟩ ∨ e = ⟨callee.exit, m.nodeAt n.pos, .ret n callee⟩) := by
  simp [callEdges]

/-- The call that an edge comes back from. -/
def EdgeKind.site? : EdgeKind → Option Node
  | ret site _ => some site
  | _ => none

namespace Supergraph.Built

variable {p : Program} {g : Supergraph} (hg : Built p g)
include hg

theorem methods_nodup : g.methods.Nodup := .of_map Method.name hg.calls.reachable.distinct

theorem leaving {m : Method} (hm : m ∈ g.methods) :
    ∀ s ∈ m.body.zipIdx, m.Leaving s.2 s.1 (m.leaving s.2 s.1) := by
  obtain ⟨c, -, hb⟩ := hg.exists_build hm
  exact (ControlFlow.edges_of_build hb).2

theorem flowEdges_eq : g.flows.flatMap (·.edges) = g.methods.flatMap Method.flowEdges := by
  have hflows : ∀ {ms : List Method} {cs : List ControlFlow},
      ms.map ControlFlow.build = cs.map .ok →
        cs.flatMap (·.edges) = ms.flatMap Method.flowEdges := by
    intro ms
    induction ms with
    | nil =>
        intro cs h
        rw [List.map_eq_nil_iff.mp h.symm]
        rfl
    | cons m ms ih =>
        intro cs h
        cases cs with
        | nil => cases h
        | cons c cs =>
            obtain ⟨hc, hcs⟩ := List.cons.inj h
            rw [List.flatMap_cons, List.flatMap_cons, ih hcs, (ControlFlow.edges_of_build hc).1]
  exact hflows hg.flows

theorem filter_flowEdges {m : Method} (hm : m ∈ g.methods) {n : Node} (hn : n ∈ m.callSites) :
    ((g.methods.flatMap Method.flowEdges).filter fun e => e.source = n) =
      [⟨n, m.nodeAt n.pos, .fallThrough⟩] := by
  rw [filter_flatMap_of_mem hg.methods_nodup hm]
  · exact Method.filter_flowEdges_of_mem_callSites (hg.leaving hm) hn
  · intro c hc hne e he
    obtain ⟨flow, -, hb⟩ := hg.exists_build hc
    rw [← (ControlFlow.edges_of_build hb).1] at he
    have hsource := (ControlFlow.mem_nodes_of_build hb he).1
    refine decide_eq_false fun h => hne ?_
    have hdef := hg.calls.reachable.defined
    exact Program.eq_of_mem_nodes (hdef c hc) (hdef m hm) hsource
      (h ▸ Method.mem_nodes_of_mem_callSites hn)

/-- The edges, one after another. -/
theorem edges_eq : g.edges = (g.methods.flatMap Method.flowEdges).map FlowEdge.lift ++
    g.methods.flatMap fun m => m.callSites.flatMap (p.callEdges m) := by
  rw [hg.edges_eq_lifted, hg.flowEdges_eq, hg.calls.holds.edges, CallGraph.sites,
    hg.calls.program, List.filterMap_flatMap, List.flatMap_assoc]
  congr 1
  refine List.flatMap_congr fun m hm => ?_
  rw [List.filterMap_eq_flatMap_toList, List.flatMap_assoc]
  refine List.flatMap_congr fun n hn => ?_
  rw [Program.callEdges]
  cases p.resolve? n with
  | none => rfl
  | some callee =>
      show CallEdge.lift _ _ ++ [] = _ ++ []
      rw [CallEdge.lift, hg.filter_flowEdges hm hn]
      rfl

/-! ## Counting -/

theorem length_edges : g.edges.length =
    (g.methods.map fun m =>
      1 + m.body.length + m.body.countP fun s => s.action.isBranch).sum +
    2 * (g.methods.flatMap Method.callSites).countP fun n => (p.resolve? n).isSome := by
  have hinside : (g.methods.flatMap Method.flowEdges).length = (g.methods.map fun m =>
      1 + m.body.length + m.body.countP fun s => s.action.isBranch).sum := by
    rw [List.length_flatMap]
    exact congrArg List.sum
      (List.map_congr_left fun m hm => Method.length_flowEdges (hg.leaving hm))
  have hcalls : ∀ (m : Method) (ns : List Node), (ns.flatMap (p.callEdges m)).length =
      2 * ns.countP fun n => (p.resolve? n).isSome := by
    intro m ns
    induction ns with
    | nil => rfl
    | cons n ns ih =>
        rw [List.flatMap_cons, List.length_append, ih, List.countP_cons, Program.callEdges]
        cases p.resolve? n with
        | none => simp
        | some callee =>
            simp only [Option.toList_some, List.flatMap_cons, List.flatMap_nil, List.append_nil,
              List.length_cons, List.length_nil, Option.isSome_some, if_true]
            omega
  have hall : ∀ ms : List Method, (ms.flatMap fun m => m.callSites.flatMap (p.callEdges m)).length =
      2 * (ms.flatMap Method.callSites).countP fun n => (p.resolve? n).isSome := by
    intro ms
    induction ms with
    | nil => rfl
    | cons m ms ih =>
        rw [List.flatMap_cons, List.length_append, ih, hcalls, List.flatMap_cons,
          List.countP_append, Nat.mul_add]
  rw [hg.edges_eq, List.length_append, List.length_map, hinside, hall]

/-! ## Edges at a node -/

/-- The edges of a call are those of the graph that it is resolved by. -/
theorem filter_callEdges {m : Method} (hm : m ∈ g.methods) {n : Node} (hn : n ∈ m.callSites)
    {q : Edge → Bool}
    (hq : ∀ c ∈ g.methods, ∀ r ∈ c.callSites, r ≠ n → ∀ e ∈ p.callEdges c r, q e = false) :
    ((g.methods.flatMap fun m => m.callSites.flatMap (p.callEdges m)).filter q) =
      (p.callEdges m n).filter q := by
  rw [filter_flatMap_of_mem hg.methods_nodup hm, filter_flatMap_of_mem m.callSites_nodup hn]
  · exact fun r hr hne => hq m hm r hr hne
  · intro c hc hne e he
    obtain ⟨r, hr, he⟩ := List.mem_flatMap.mp he
    refine hq c hc r hr (fun h => hne ?_) e he
    have hdef := hg.calls.reachable.defined
    exact Program.eq_of_mem_nodes (hdef c hc) (hdef m hm) (Method.mem_nodes_of_mem_callSites hr)
      (h ▸ Method.mem_nodes_of_mem_callSites hn)

theorem outEdges_of_mem_callSites {m : Method} (hm : m ∈ g.methods) {n : Node}
    (hn : n ∈ m.callSites) :
    g.outEdges n = ⟨n, m.nodeAt n.pos, .callToReturn⟩ ::
      (p.resolve? n).toList.map fun callee => ⟨n, callee.entry, .call callee⟩ := by
  obtain ⟨i, s, hs, hstmt, hc⟩ := Method.exists_stmt_of_mem_callSites hn
  have hcall : n.action.isCall = true := hstmt ▸ hc
  -- An exit does nothing, so it is no call.
  have hexit : ∀ callee : Method, callee.exit ≠ n := by
    rintro callee rfl
    cases hcall
  have hinside : (((g.methods.flatMap Method.flowEdges).map FlowEdge.lift).filter
      fun e => e.source = n) = [⟨n, m.nodeAt n.pos, .callToReturn⟩] := by
    rw [List.filter_map]
    show List.map _ ((g.methods.flatMap Method.flowEdges).filter fun e => e.source = n) = _
    rw [hg.filter_flowEdges hm hn, List.map_singleton, FlowEdge.lift, if_pos hcall]
  rw [hg.indexed.out, hg.edges_eq, List.filter_append, hinside, hg.filter_callEdges hm hn]
  · rw [Program.callEdges]
    cases p.resolve? n with
    | none => rfl
    | some callee => simp [hexit callee]
  · intro c hc r hr hne e he
    obtain ⟨callee, -, rfl | rfl⟩ := Program.mem_callEdges_iff.mp he
    · exact decide_eq_false hne
    · exact decide_eq_false (hexit callee)

theorem filter_site_of_mem_callSites {m : Method} (hm : m ∈ g.methods) {n : Node}
    (hn : n ∈ m.callSites) :
    (g.edges.filter fun e => e.kind.site? = some n) =
      (p.resolve? n).toList.map fun callee => ⟨callee.exit, m.nodeAt n.pos, .ret n callee⟩ := by
  have hinside : (((g.methods.flatMap Method.flowEdges).map FlowEdge.lift).filter
      fun e => e.kind.site? = some n) = [] := by
    rw [List.filter_eq_nil_iff]
    intro e he
    obtain ⟨f, -, rfl⟩ := List.mem_map.mp he
    rw [FlowEdge.lift]
    split <;> exact decide_eq_true_iff.not.mpr fun h => by cases h
  rw [hg.edges_eq, List.filter_append, hinside, List.nil_append, hg.filter_callEdges hm hn]
  · rw [Program.callEdges]
    cases p.resolve? n with
    | none => rfl
    | some callee => simp [EdgeKind.site?]
  · intro c hc r hr hne e he
    obtain ⟨callee, -, rfl | rfl⟩ := Program.mem_callEdges_iff.mp he
    · rfl
    · exact decide_eq_false fun h => hne (Option.some.inj h)

/-- An edge that is not one of a call lifts an edge of a method, and such edges neither lead to an
entry nor leave an exit. -/
theorem of_mem_flowEdges {m : Method} (hm : m ∈ g.methods) {e : FlowEdge} (he : e ∈ m.flowEdges) :
    e.source ∈ m.nodes ∧ e.target ∈ m.nodes ∧ e.target.pos ≠ 0 ∧
      e.source.pos ≠ m.body.length + 1 := by
  obtain ⟨c, -, hb⟩ := hg.exists_build hm
  obtain ⟨hs, ht⟩ := ControlFlow.mem_nodes_of_build hb ((ControlFlow.edges_of_build hb).1 ▸ he)
  refine ⟨hs, ht, ?_⟩
  rcases List.mem_cons.mp he with rfl | he
  · exact ⟨m.pos_nodeAt_ne_zero 0, (Nat.succ_ne_zero _).symm⟩
  · obtain ⟨s, hmem, he⟩ := List.mem_flatMap.mp he
    have hleaving := hg.leaving hm s hmem
    refine ⟨hleaving.target e he, ?_⟩
    rw [hleaving.source e he, Method.pos_node (List.mem_zipIdx_iff_getElem?.mp hmem)]
    have := List.snd_lt_of_mem_zipIdx hmem
    omega

/-- What an edge of the graph is, by its kind. -/
theorem cases_of_mem_edges {e : Edge} (he : e ∈ g.edges) :
    (∃ m ∈ g.methods, ∃ f ∈ m.flowEdges, e = f.lift) ∨
      ∃ m ∈ g.methods, ∃ n ∈ m.callSites, e ∈ p.callEdges m n := by
  rw [hg.edges_eq, List.mem_append] at he
  rcases he with he | he
  · obtain ⟨f, hf, rfl⟩ := List.mem_map.mp he
    obtain ⟨m, hm, hf⟩ := List.mem_flatMap.mp hf
    exact Or.inl ⟨m, hm, f, hf, rfl⟩
  · obtain ⟨m, hm, he⟩ := List.mem_flatMap.mp he
    obtain ⟨n, hn, he⟩ := List.mem_flatMap.mp he
    exact Or.inr ⟨m, hm, n, hn, he⟩

theorem inEdges_entry {m : Method} {e : Edge} (he : e ∈ g.inEdges m.entry) :
    ∃ callee, e.kind = .call callee := by
  obtain ⟨hmem, ht⟩ := hg.wellFormed.mem_inEdges_iff.mp he
  rcases hg.cases_of_mem_edges hmem with ⟨c, hc, f, hf, rfl⟩ | ⟨c, hc, n, hn, he⟩
  · obtain ⟨-, -, hpos, -⟩ := hg.of_mem_flowEdges hc hf
    exact absurd (congrArg Node.pos ht) hpos
  · obtain ⟨callee, -, rfl | rfl⟩ := Program.mem_callEdges_iff.mp he
    · exact ⟨callee, rfl⟩
    · exact absurd (congrArg Node.pos ht) (c.pos_nodeAt_ne_zero n.pos)

theorem outEdges_exit {m : Method} (hm : m ∈ g.methods) {e : Edge} (he : e ∈ g.outEdges m.exit) :
    ∃ site callee, e.kind = .ret site callee := by
  rw [hg.indexed.out] at he
  obtain ⟨hmem, hs⟩ := List.mem_filter.mp he
  have hs : e.source = m.exit := of_decide_eq_true hs
  rcases hg.cases_of_mem_edges hmem with ⟨c, hc, f, hf, rfl⟩ | ⟨c, hc, n, hn, he⟩
  · obtain ⟨hsource, -, -, hpos⟩ := hg.of_mem_flowEdges hc hf
    have hdef := hg.calls.reachable.defined
    have hs : f.source = m.exit := hs
    obtain rfl : c = m := Program.eq_of_mem_nodes (hdef c hc) (hdef m hm) hsource
      (hs ▸ m.exit_mem_nodes)
    exact absurd (congrArg Node.pos hs) hpos
  · obtain ⟨callee, -, rfl | rfl⟩ := Program.mem_callEdges_iff.mp he
    · have hcall := (List.mem_filter.mp hn).2
      rw [show n = m.exit from hs] at hcall
      cases hcall
    · exact ⟨n, callee, rfl⟩

end Supergraph.Built

/-- Returned variables are listed once. -/
theorem Method.returnVars_nodup (m : Method) : m.returnVars.Nodup := by
  refine List.foldlRecOn m.body _ List.nodup_nil fun seen h s _ => ?_
  split
  · split
    · exact h
    · rename_i x _ hx
      exact h.append (List.nodup_singleton x) (List.disjoint_singleton.mpr hx)
  · exact h

/-! ## The structure as a whole -/

namespace Supergraph

/-- How a call of a method stands in a graph. One edge leads past it, to the next statement or the
exit of the method, and no other edge leaves it but the one into its callee, if it is resolved. That
callee has one edge that comes back from the call, to the same place. -/
structure CallShape (p : Program) (g : Supergraph) (m : Method) (n : Node) : Prop where
  out : g.outEdges n = ⟨n, m.nodeAt n.pos, .callToReturn⟩ ::
    (p.resolve? n).toList.map fun callee => ⟨n, callee.entry, .call callee⟩
  back : (g.edges.filter fun e => e.kind.site? = some n) =
    (p.resolve? n).toList.map fun callee => ⟨callee.exit, m.nodeAt n.pos, .ret n callee⟩
  returnSites : g.returnSites n = [m.nodeAt n.pos]

/-- What a graph of a program is made of. -/
structure Structured (p : Program) (names : List Text) (g : Supergraph) : Prop where
  /-- The methods come in the order in which the call graph discovered them. -/
  discovered : CallGraph.build p names = .ok g.calls
  reachable : ∀ m, m ∈ g.methods ↔ p.Reaches names m
  nodes : g.nodes = g.methods.flatMap fun m => m.entry :: m.stmtNodes ++ [m.exit]
  nodup : g.nodes.Nodup
  /-- The methods have the control flow that they have by themselves. -/
  flows : g.methods ≠ [] → p.controlFlows (g.methods.map Method.name) = .ok g.flows
  outEdges : (g.nodes.flatMap g.outEdges).Perm g.edges ∧
    ∀ n, g.outEdges n = g.edges.filter fun e => e.source = n
  inEdges : (g.nodes.flatMap g.inEdges).Perm g.edges ∧
    ∀ n, g.inEdges n = g.edges.filter fun e => e.target = n
  /-- Every node knows the one method that it lies in, and a method its entry and its exit. -/
  methodOf : ∀ n m, g.methodOf n = .ok m ↔ m ∈ g.methods ∧ n ∈ m.nodes
  entryOf : ∀ m n, g.entryOf m = .ok n ↔ m ∈ g.methods ∧ n = m.entry
  exitOf : ∀ m n, g.exitOf m = .ok n ↔ m ∈ g.methods ∧ n = m.exit
  inside : ∀ e ∈ g.edges, e.kind = .normal ∨ e.kind = .callToReturn →
    ∃ m ∈ g.methods, e.source ∈ m.nodes ∧ e.target ∈ m.nodes
  normal : ∀ e ∈ g.edges, e.kind = .normal → e.source.action.isCall = false
  calls : ∀ m ∈ g.methods, ∀ n ∈ m.callSites, g.CallShape p m n
  returned : ∀ m ∈ g.methods, m.returnVars.Nodup ∧
    ∀ x, x ∈ m.returnVars ↔ ∃ s ∈ m.body, s.action = .ret (some x)
  entries : ∀ m ∈ g.methods, ∀ e ∈ g.inEdges m.entry, ∃ callee, e.kind = .call callee
  exits : ∀ m ∈ g.methods, ∀ e ∈ g.outEdges m.exit, ∃ site callee, e.kind = .ret site callee
  count : g.edges.length =
    (g.methods.map fun m => 1 + m.body.length + m.body.countP fun s => s.action.isBranch).sum +
      2 * (g.methods.flatMap Method.callSites).countP fun n => (p.resolve? n).isSome

theorem Built.callShape {p : Program} {g : Supergraph} (hg : Built p g) {m : Method}
    (hm : m ∈ g.methods) {n : Node} (hn : n ∈ m.callSites) : g.CallShape p m n := by
  refine ⟨hg.outEdges_of_mem_callSites hm hn, hg.filter_site_of_mem_callSites hm hn, ?_⟩
  rw [hg.assembled, returnSites_assemble g.calls g.flows (List.mem_filter.mp hn).2,
    hg.flowEdges_eq, hg.filter_flowEdges hm hn]
  rfl

theorem Built.controlFlows_eq {p : Program} {g : Supergraph} (hg : Built p g)
    (hne : g.methods ≠ []) : p.controlFlows (g.methods.map Method.name) = .ok g.flows := by
  have hnames : (g.methods.map Method.name).isEmpty = false := by
    simpa using hne
  rw [Program.controlFlows, hnames, if_neg Bool.false_ne_true]
  refine mapM_eq_ok_of_map_eq ?_
  rw [List.map_map, ← hg.flows]
  refine List.map_congr_left fun m hm => ?_
  rw [Function.comp_apply, Program.controlFlowOf,
    Program.find?_name (hg.calls.reachable.defined m hm)]

theorem Built.methodOf_eq_ok_iff {p : Program} {g : Supergraph} (hg : Built p g) {n : Node}
    {m : Method} : g.methodOf n = .ok m ↔ m ∈ g.methods ∧ n ∈ m.nodes := by
  have hdef := hg.calls.reachable.defined
  have hhomes := homes_assemble g.calls g.flows n
  rw [← hg.assembled] at hhomes
  unfold methodOf
  rcases hhomes with ⟨c, hc, hn, hget⟩ | ⟨hno, hget⟩
  · obtain ⟨m', hm', hb⟩ := hg.exists_method hc
    rw [ControlFlow.nodes, ControlFlow.method_of_build hb] at hn
    rw [hget, ControlFlow.method_of_build hb]
    constructor
    · intro h
      obtain rfl := Except.ok.inj h
      exact ⟨hm', hn⟩
    · rintro ⟨hm, hnm⟩
      rw [Program.eq_of_mem_nodes (hdef m' hm') (hdef m hm) hn hnm]
  · rw [hget]
    refine iff_of_false (fun h => by cases h) ?_
    rintro ⟨hm, hnm⟩
    obtain ⟨c, hc, hb⟩ := hg.exists_build hm
    rw [← ControlFlow.method_of_build hb] at hnm
    exact hno c hc hnm

end Supergraph

/-- Every supergraph that is built has this structure. -/
theorem build_structured {p : Program} {names : List Text} {g : Supergraph}
    (h : Supergraph.build p names = .ok g) : g.Structured p names := by
  have hg := Supergraph.built_of_build h
  have hwf := hg.wellFormed
  refine
    { discovered := Supergraph.calls_of_build h
      reachable := fun m => Supergraph.mem_methods_iff h
      nodes := hg.nodes_eq
      nodup := hg.nodes_nodup
      flows := hg.controlFlows_eq
      outEdges := ⟨?_, hg.indexed.out⟩
      inEdges := ⟨?_, hg.indexed.into⟩
      methodOf := fun n m => hg.methodOf_eq_ok_iff
      entryOf := fun m n => g.entryOf_eq_ok_iff
      exitOf := fun m n => g.exitOf_eq_ok_iff
      inside := ?_
      normal := ?_
      calls := fun m hm n hn => hg.callShape hm hn
      returned := fun m _ => ⟨m.returnVars_nodup, fun x => Method.mem_returnVars_iff⟩
      entries := fun m _ e he => hg.inEdges_entry he
      exits := fun m hm e he => hg.outEdges_exit hm he
      count := hg.length_edges }
  · rw [List.flatMap_congr fun n _ => hg.indexed.out n]
    exact flatMap_filter_perm hg.nodes_nodup hwf.source_mem
  · rw [List.flatMap_congr fun n _ => hg.indexed.into n]
    exact flatMap_filter_perm hg.nodes_nodup hwf.target_mem
  · intro e he hk
    rcases hg.cases_of_mem_edges he with ⟨m, hm, f, hf, rfl⟩ | ⟨m, hm, n, hn, he⟩
    · obtain ⟨hs, ht, -, -⟩ := hg.of_mem_flowEdges hm hf
      exact ⟨m, hm, hs, ht⟩
    · obtain ⟨callee, -, rfl | rfl⟩ := Program.mem_callEdges_iff.mp he <;>
        rcases hk with hk | hk <;> cases hk
  · intro e he hk
    rcases hg.cases_of_mem_edges he with ⟨m, hm, f, hf, rfl⟩ | ⟨m, hm, n, hn, he⟩
    · rw [FlowEdge.lift] at hk
      split at hk
      · cases hk
      · rename_i hcall
        exact Bool.eq_false_iff.mpr hcall
    · obtain ⟨callee, -, rfl | rfl⟩ := Program.mem_callEdges_iff.mp he <;> cases hk

namespace Sample

/-- A branch to the next statement, a call of an undefined method, and a call as last statement. -/
def crossing : Method :=
  .of "crossing" []
    [⟨1, .branch .lt ⟨"crossing", "x"⟩ ⟨"crossing", "x"⟩ "on"⟩,
      ⟨2, .call "gone" [] none⟩,
      ⟨3, .call "loop" [] (some ⟨"crossing", "x"⟩)⟩]
    (Assoc.empty.set "on" 1)

/-- Does nothing but call itself. -/
def loop : Method :=
  .of "loop" [] [⟨5, .call "loop" [] none⟩] Assoc.empty

def crossings : Program := ⟨[crossing, loop], by decide⟩

end Sample

/-- The branch of the sample has two edges that are equal, and both are counted. -/
theorem build_structured_sample :
    let g := Sample.graphOf Sample.crossings ["crossing"]
    let x := Sample.crossing.nodeAt
    Supergraph.build Sample.crossings ["crossing"] = .ok g ∧
      g.Structured Sample.crossings ["crossing"] ∧
      g.outEdges (x 0) = [⟨x 0, x 1, .normal⟩, ⟨x 0, x 1, .normal⟩] ∧
      g.outEdges (x 1) = [⟨x 1, x 2, .callToReturn⟩] ∧
      g.returnSites (x 2) = [Sample.crossing.exit] ∧
      g.edges.length = (1 + 3 + 1) + (1 + 1 + 0) + 2 * 2 := by
  intro g x
  have hb : Supergraph.build Sample.crossings ["crossing"] = .ok g :=
    Sample.build_graphOf (by decide +kernel)
  have h := build_structured hb
  have hcrossing : Sample.crossing ∈ g.methods := by decide +kernel
  refine ⟨hb, h, by decide +kernel, ?_, ?_, by decide +kernel⟩
  · rw [(h.calls _ hcrossing (x 1) (by decide +kernel)).out]
    decide +kernel
  · rw [(h.calls _ hcrossing (x 2) (by decide +kernel)).returnSites]
    decide +kernel

end ConstFlow
