import ConstFlow.Proofs.MoreEntries
import ConstFlow.Proofs.Soundness

/-!
# Programs that run straight through

A program is straight if no reachable method jumps, a return comes last, and no method is called
from two places.

Inside a method of such a program, control goes from each node to the one at the next position
(`Program.StraightLine.next_iff`). A call leads to the entry of its callee, and the exit of a callee
leads back to where its one caller goes on. So at most one node leads to any node
(`Program.StraightLine.leads_injective`), and none to where the program starts.
-/

namespace ConstFlow

/-! ## Straight methods -/

/-- No statement jumps, and none but the last one returns. -/
structure Method.IsStraight (m : Method) : Prop where
  noJump : ∀ s ∈ m.body, s.action.jumpLabel? = none
  returnsLast : ∀ s ∈ m.body.dropLast, ∀ x, s.action ≠ .ret x

namespace Method

variable {m : Method}

theorem exists_node_at {k : Nat} : (∃ n ∈ m.nodes, n.pos = k) ↔ k < m.body.length + 2 := by
  rw [← List.mem_range, ← map_pos_nodes, List.mem_map]

@[simp] theorem pos_entry : m.entry.pos = 0 := rfl

@[simp] theorem pos_exit : m.exit.pos = m.body.length + 1 := rfl

theorem pos_nodeAt {i : Nat} (h : i ≤ m.body.length) : (m.nodeAt i).pos = i + 1 := by
  unfold nodeAt
  split
  · rename_i hs
    exact pos_node hs
  · rename_i hnone
    have hlen := List.getElem?_eq_none_iff.mp hnone
    exact congrArg (· + 1) (Nat.le_antisymm hlen h)

namespace IsStraight

variable (h : m.IsStraight)
include h

theorem succ_eq_length {i : Nat} {s : Stmt} (hs : m.body[i]? = some s) {x : Option Var}
    (hret : s.action = .ret x) : i + 1 = m.body.length := by
  obtain ⟨hi, -⟩ := List.getElem?_eq_some_iff.mp hs
  by_contra hne
  refine h.returnsLast s (List.mem_of_getElem? (i := i) ?_) x hret
  rw [List.getElem?_dropLast, if_pos (by omega), hs]

theorem edgesFrom {i : Nat} {s : Stmt} (hs : m.body[i]? = some s) :
    ∃ flow, m.edgesFrom i s = .ok [⟨s.node, m.nodeAt (i + 1), flow⟩] := by
  have hjump := h.noJump s (List.mem_of_getElem? hs)
  unfold Method.edgesFrom
  cases ha : s.action with
  | ret x =>
      refine ⟨.ret, ?_⟩
      rw [nodeAt, h.succ_eq_length hs ha, List.getElem?_eq_none_iff.mpr le_rfl]
  | jump l =>
      rw [ha] at hjump
      cases hjump
  | branch op x y l =>
      rw [ha] at hjump
      cases hjump
  | _ => exact ⟨.fallThrough, rfl⟩

theorem bodyEdges : ∀ (ss : List Stmt) (i : Nat), (∀ j, ss[j]? = m.body[i + j]?) →
    ∃ es, m.bodyEdges i ss = .ok es ∧ (∀ e ∈ es, e.target.pos = e.source.pos + 1) ∧
      ∀ s ∈ ss, ∃ e ∈ es, e.source = s.node
  | [], i, _ => ⟨[], rfl, by simp, by simp⟩
  | s :: ss, i, hbody => by
      have hi : m.body[i]? = some s := by simpa using (hbody 0).symm
      have hlen : i < m.body.length := (List.getElem?_eq_some_iff.mp hi).1
      obtain ⟨flow, hhere⟩ := h.edgesFrom hi
      obtain ⟨es, hmore, hpos, hall⟩ := bodyEdges ss (i + 1) fun j => by
        rw [Nat.add_right_comm, Nat.add_assoc, ← hbody (j + 1), List.getElem?_cons_succ]
      refine ⟨⟨s.node, m.nodeAt (i + 1), flow⟩ :: es, ?_, ?_, ?_⟩
      · rw [Method.bodyEdges, hhere, hmore]
        rfl
      · rw [List.forall_mem_cons, pos_node hi]
        exact ⟨pos_nodeAt (by omega), hpos⟩
      · rw [List.forall_mem_cons]
        refine ⟨⟨_, List.mem_cons_self, rfl⟩, fun s' hs' => ?_⟩
        obtain ⟨e, he, hsource⟩ := hall s' hs'
        exact ⟨e, List.mem_cons_of_mem _ he, hsource⟩

/-- A straight method has a control flow, and it goes on by one position from every node but the
exit. -/
theorem build : ∃ c, ControlFlow.build m = .ok c ∧
    (∀ e ∈ c.edges, e.target.pos = e.source.pos + 1) ∧
      ∀ n ∈ m.nodes, n ≠ m.exit → ∃ e ∈ c.edges, e.source = n := by
  obtain ⟨es, hbody, hpos, hall⟩ := h.bodyEdges m.body 0 fun j => by rw [Nat.zero_add]
  refine ⟨.drawn m (⟨m.entry, m.nodeAt 0, .entry⟩ :: es), ?_, ?_⟩
  · rw [ControlFlow.build_eq, hbody]
    rfl
  rw [ControlFlow.edges_drawn]
  refine ⟨?_, fun n hn hne => ?_⟩
  · rw [List.forall_mem_cons]
    exact ⟨pos_nodeAt (Nat.zero_le _), hpos⟩
  · rcases mem_nodes_iff.mp hn with rfl | hn | rfl
    · exact ⟨_, List.mem_cons_self, rfl⟩
    · obtain ⟨i, s, hs, rfl⟩ := mem_stmtNodes_iff.mp hn
      obtain ⟨e, he, hsource⟩ := hall s (List.mem_of_getElem? hs)
      exact ⟨e, List.mem_cons_of_mem _ he, hsource⟩
    · exact absurd rfl hne

end IsStraight

end Method

theorem Program.next_iff {p : Program} {m : Method} (hm : m ∈ p.methods) (h : m.IsStraight)
    {n n' : Node} (hn : n ∈ m.nodes) :
    n' ∈ p.next n ↔ n' ∈ m.nodes ∧ n'.pos = n.pos + 1 := by
  obtain ⟨c, hc, hpos, hall⟩ := h.build
  constructor
  · intro hnext
    refine ⟨mem_nodes_of_next hm hn hnext, ?_⟩
    obtain ⟨k, hk, c', hc', e, he, rfl, rfl⟩ := mem_next_iff.mp hnext
    obtain rfl := eq_of_mem_nodes hm hk hn (ControlFlow.mem_nodes_of_build hc' he).1
    obtain rfl := Except.ok.inj (hc.symm.trans hc')
    exact hpos e he
  · rintro ⟨hn', hsucc⟩
    have hne : n ≠ m.exit := by
      rintro rfl
      have hlt := Method.exists_node_at.mp ⟨n', hn', rfl⟩
      rw [hsucc, Method.pos_exit] at hlt
      omega
    obtain ⟨e, he, rfl⟩ := hall n hn hne
    have htarget := (ControlFlow.mem_nodes_of_build hc he).2
    refine mem_next_iff.mpr ⟨m, hm, c, hc, e, he, rfl, ?_⟩
    refine node_eq ⟨m, hm, htarget⟩ ⟨m, hm, hn'⟩ ?_ ((hpos e he).trans hsucc.symm)
    rw [Method.method_of_mem_nodes htarget, Method.method_of_mem_nodes hn']

/-! ## Straight programs -/

/-- A program with one entry method, without parameters, that runs straight through: the methods
that it reaches are straight, none of them calls the entry method, and no two calls in them call the
same method. -/
structure Program.StraightLine (p : Program) (names : List Text) (main : Method) : Prop where
  named : names ≠ []
  entry : ∀ name ∈ names, p.find? name = some main
  params : main.params = []
  straight : ∀ m, p.Reaches names m → m.IsStraight
  uncalled : ∀ m, p.Reaches names m → main ∉ p.callees m
  calledOnce : ∀ m, p.Reaches names m → ∀ m', p.Reaches names m' →
    ∀ n ∈ m.callSites, ∀ n' ∈ m'.callSites, ∀ c, p.resolve? n = some c → p.resolve? n' = some c →
      n = n'

namespace Program.StraightLine

variable {p : Program} {names : List Text} {main : Method} (h : p.StraightLine names main)
include h

theorem reaches_main : p.Reaches names main := by
  obtain ⟨name, hname⟩ := List.exists_mem_of_ne_nil names h.named
  exact .entry hname (h.entry name hname)

theorem exists_build : ∃ g, Supergraph.build p names = .ok g := by
  obtain ⟨calls, hcalls⟩ := CallGraph.exists_build_iff.mpr fun name hname =>
    ⟨main, h.entry name hname⟩
  refine Supergraph.exists_build_of_flows hcalls fun m hm => ?_
  obtain ⟨c, hc, -⟩ := (h.straight m ((CallGraph.mem_reachable_iff hcalls).mp hm)).build
  exact ⟨c, hc⟩

variable {g : Supergraph} (hb : Supergraph.build p names = .ok g) {n n' : Node}
include hb

theorem main_mem : main ∈ g.methods := (Supergraph.mem_methods_iff hb).mpr h.reaches_main

theorem straight_of_mem {m : Method} (hm : m ∈ g.methods) : m.IsStraight :=
  h.straight m ((Supergraph.mem_methods_iff hb).mp hm)

/-- Inside a method, control goes on by one position. -/
theorem next_iff (hn : n ∈ g.nodes) :
    n' ∈ p.next n ↔ n' ∈ g.nodes ∧ n'.method = n.method ∧ n'.pos = n.pos + 1 := by
  have hg := Supergraph.built_of_build hb
  obtain ⟨m, hm, hnm⟩ := hg.mem_nodes_iff.mp hn
  have hdef := hg.calls.reachable.defined
  rw [Program.next_iff (hdef m hm) (h.straight_of_mem hb hm) hnm]
  constructor
  · rintro ⟨hnm', hpos⟩
    refine ⟨hg.mem_nodes_iff.mpr ⟨m, hm, hnm'⟩, ?_, hpos⟩
    rw [Method.method_of_mem_nodes hnm, Method.method_of_mem_nodes hnm']
  · rintro ⟨hn', hmethod, hpos⟩
    obtain ⟨m', hm', hnm'⟩ := hg.mem_nodes_iff.mp hn'
    obtain rfl : m' = m := eq_of_name_eq (hdef m' hm') (hdef m hm) (by
      rw [← Method.method_of_mem_nodes hnm', ← Method.method_of_mem_nodes hnm, hmethod])
    exact ⟨hnm', hpos⟩

theorem next_unique (hn : n ∈ g.nodes) {n₁ n₂ : Node} (h₁ : n₁ ∈ p.next n) (h₂ : n₂ ∈ p.next n) :
    n₁ = n₂ := by
  obtain ⟨hmem₁, hmethod₁, hpos₁⟩ := (h.next_iff hb hn).mp h₁
  obtain ⟨hmem₂, hmethod₂, hpos₂⟩ := (h.next_iff hb hn).mp h₂
  exact (Supergraph.built_of_build hb).node_eq hmem₁ hmem₂ (hmethod₁.trans hmethod₂.symm)
    (hpos₁.trans hpos₂.symm)

theorem next_injective {n₁ n₂ : Node} (hn₁ : n₁ ∈ g.nodes) (hn₂ : n₂ ∈ g.nodes)
    (h₁ : n ∈ p.next n₁) (h₂ : n ∈ p.next n₂) : n₁ = n₂ := by
  obtain ⟨-, hmethod₁, hpos₁⟩ := (h.next_iff hb hn₁).mp h₁
  obtain ⟨-, hmethod₂, hpos₂⟩ := (h.next_iff hb hn₂).mp h₂
  exact (Supergraph.built_of_build hb).node_eq hn₁ hn₂ (hmethod₁.symm.trans hmethod₂) (by omega)

theorem entry_not_mem_next (hn : n ∈ g.nodes) (m : Method) : m.entry ∉ p.next n := by
  intro hnext
  have hpos := ((h.next_iff hb hn).mp hnext).2.2
  rw [Method.pos_entry] at hpos
  omega

theorem not_mem_next_exit {m : Method} (hm : m ∈ g.methods) : n ∉ p.next m.exit := by
  have hg := Supergraph.built_of_build hb
  have hdef := hg.calls.reachable.defined m hm
  intro hnext
  obtain ⟨hnm, hpos⟩ := (Program.next_iff hdef (h.straight_of_mem hb hm)
    m.exit_mem_nodes).mp hnext
  have hlt := Method.exists_node_at.mp ⟨n, hnm, rfl⟩
  rw [hpos, Method.pos_exit] at hlt
  omega

theorem exists_next {m : Method} (hm : m ∈ g.methods) (hn : n ∈ m.nodes) (hne : n ≠ m.exit) :
    ∃ n', n' ∈ p.next n := by
  have hg := Supergraph.built_of_build hb
  have hdef := hg.calls.reachable.defined m hm
  obtain ⟨c, hc, -, hall⟩ := (h.straight_of_mem hb hm).build
  obtain ⟨e, he, hsource⟩ := hall n hn hne
  exact ⟨e.target, mem_next_iff.mpr ⟨m, hdef, c, hc, e, he, hsource, rfl⟩⟩

/-- A method is called from one place at most. -/
theorem site_unique (hn : n ∈ g.nodes) (hn' : n' ∈ g.nodes) {c : Method}
    (hres : p.resolve? n = some c) (hres' : p.resolve? n' = some c) : n = n' := by
  have hg := Supergraph.built_of_build hb
  obtain ⟨m, hm, hnm⟩ := hg.mem_nodes_iff.mp hn
  obtain ⟨m', hm', hnm'⟩ := hg.mem_nodes_iff.mp hn'
  exact h.calledOnce m ((Supergraph.mem_methods_iff hb).mp hm) m'
    ((Supergraph.mem_methods_iff hb).mp hm') n
    (Method.mem_callSites_of_isCall hnm (isCall_of_resolve? hres)) n'
    (Method.mem_callSites_of_isCall hnm' (isCall_of_resolve? hres')) c hres hres'

theorem callee_ne_main (hn : n ∈ g.nodes) {c : Method} (hres : p.resolve? n = some c) :
    c ≠ main := by
  have hg := Supergraph.built_of_build hb
  obtain ⟨m, hm, hnm⟩ := hg.mem_nodes_iff.mp hn
  rintro rfl
  refine h.uncalled m ((Supergraph.mem_methods_iff hb).mp hm) (List.mem_filterMap.mpr ⟨n, ?_, hres⟩)
  exact Method.mem_callSites_of_isCall hnm (isCall_of_resolve? hres)

end Program.StraightLine

/-! ## Where control goes -/

/-- How control goes from node to node: on inside a method, into a callee, and back from it to where
the caller goes on. -/
inductive Supergraph.Leads (p : Program) (g : Supergraph) : Node → Node → Prop where
  | on {n n' : Node} (mem : n ∈ g.nodes) (unresolved : p.resolve? n = none)
      (next : n' ∈ p.next n) : Leads p g n n'
  | into {n : Node} {c : Method} (mem : n ∈ g.nodes) (resolved : p.resolve? n = some c) :
      Leads p g n c.entry
  | back {n n' : Node} {c : Method} (mem : n ∈ g.nodes) (resolved : p.resolve? n = some c)
      (next : n' ∈ p.next n) : Leads p g c.exit n'

/-- The node that a stack stands before. -/
def Stack.node? (stack : List Frame) : Option Node := stack.head?.map Frame.node

/-- The frames of a stack stand in the graph, and each one runs the method that the one below it
calls. -/
structure Stack.Placed (p : Program) (g : Supergraph) (stack : List Frame) : Prop where
  nodes : ∀ f ∈ stack, f.node ∈ g.nodes
  linked : stack.IsChain (Frame.RunsFor p)

theorem Machine.Reachable.placed {p : Program} {names : List Text} {g : Supergraph}
    (hb : Supergraph.build p names = .ok g) {stack : List Frame}
    (h : Machine.Reachable p names (· = none) stack) : Stack.Placed p g stack := by
  have hcovers := (solve_least (Supergraph.wellFormed_of_build hb) .fifo []).covers
  have hsound := h.sound hb hcovers fun v hv => hv
  exact ⟨fun f hf => (hsound.frames f hf).node_mem, hsound.linked⟩

theorem Program.resolve?_eq_none {p : Program} {n : Node} (h : n.action.isCall = false) :
    p.resolve? n = none := by
  cases hres : p.resolve? n with
  | none => rfl
  | some c =>
      rw [isCall_of_resolve? hres] at h
      cases h

theorem Machine.Step.leads {p : Program} {g : Supergraph} {foreign : Option Word → Prop}
    {stack stack' : List Frame} (hplaced : Stack.Placed p g stack)
    (hstep : Machine.Step p foreign stack stack') :
    ∃ n n', Stack.node? stack = some n ∧ Stack.node? stack' = some n' ∧
      Supergraph.Leads p g n n' := by
  have hmem := hplaced.nodes
  cases hstep with
  | run hplain hnext =>
      exact ⟨_, _, rfl, rfl,
        .on (hmem _ List.mem_cons_self) (Program.resolve?_eq_none hplain) hnext⟩
  | call hsite hdefined =>
      exact ⟨_, _, rfl, rfl, .into (hmem _ List.mem_cons_self) (by
        rw [Program.resolve?, hsite]
        exact hdefined)⟩
  | @ret f caller rest m n hm hexit hnext =>
      obtain ⟨⟨c, hres, hnode⟩, -⟩ := List.isChain_cons_cons.mp hplaced.linked
      obtain rfl := Program.eq_of_mem_nodes hm (Program.mem_methods_of_resolve? hres)
        (hexit ▸ m.exit_mem_nodes) hnode
      refine ⟨_, _, rfl, rfl, hexit ▸ .back (hmem caller ?_) hres hnext⟩
      exact List.mem_cons_of_mem f List.mem_cons_self
  | foreignCall hsite hundefined hnext hv =>
      exact ⟨_, _, rfl, rfl, .on (hmem _ List.mem_cons_self) (by
        rw [Program.resolve?, hsite]
        exact hundefined) hnext⟩

namespace Program.StraightLine

variable {p : Program} {names : List Text} {main : Method} (h : p.StraightLine names main)
  {g : Supergraph} (hb : Supergraph.build p names = .ok g)
include h hb

/-- Nothing leads to where the program starts. -/
theorem not_leads_start {n : Node} : ¬ Supergraph.Leads p g n main.entry := by
  generalize hentry : main.entry = n'
  rintro (⟨hmem, -, hnext⟩ | ⟨hmem, hres⟩ | ⟨hmem, -, hnext⟩)
  · exact h.entry_not_mem_next hb hmem main (hentry ▸ hnext)
  · refine h.callee_ne_main hb hmem hres ?_
    have hdef := (Supergraph.built_of_build hb).calls.reachable.defined main (h.main_mem hb)
    exact eq_of_name_eq (mem_methods_of_resolve? hres) hdef (congrArg Node.method hentry).symm
  · exact h.entry_not_mem_next hb hmem main (hentry ▸ hnext)

/-- At most one node leads to a node. -/
theorem leads_injective {n₁ n₂ n : Node} (h₁ : Supergraph.Leads p g n₁ n)
    (h₂ : Supergraph.Leads p g n₂ n) : n₁ = n₂ := by
  have hentry : ∀ {a : Node} {c : Method}, a ∈ g.nodes → c.entry ∉ p.next a :=
    fun ha => h.entry_not_mem_next hb ha _
  cases h₁ with
  | on hmem₁ hres₁ hnext₁ =>
      cases h₂ with
      | on hmem₂ _ hnext₂ => exact h.next_injective hb hmem₁ hmem₂ hnext₁ hnext₂
      | into => exact absurd hnext₁ (hentry hmem₁)
      | back hmem₂ hres₂ hnext₂ =>
          obtain rfl := h.next_injective hb hmem₁ hmem₂ hnext₁ hnext₂
          rw [hres₁] at hres₂
          cases hres₂
  | @into _ c₁ hmem₁ hres₁ =>
      generalize hn : c₁.entry = n at h₂
      cases h₂ with
      | on hmem₂ _ hnext₂ => exact absurd (hn ▸ hnext₂) (hentry hmem₂)
      | into hmem₂ hres₂ =>
          obtain rfl := eq_of_name_eq (mem_methods_of_resolve? hres₁)
            (mem_methods_of_resolve? hres₂) (congrArg Node.method hn)
          exact h.site_unique hb hmem₁ hmem₂ hres₁ hres₂
      | back hmem₂ _ hnext₂ => exact absurd (hn ▸ hnext₂) (hentry hmem₂)
  | back hmem₁ hres₁ hnext₁ =>
      cases h₂ with
      | on hmem₂ hres₂ hnext₂ =>
          obtain rfl := h.next_injective hb hmem₁ hmem₂ hnext₁ hnext₂
          rw [hres₁] at hres₂
          cases hres₂
      | into => exact absurd hnext₁ (hentry hmem₁)
      | back hmem₂ hres₂ hnext₂ =>
          obtain rfl := h.next_injective hb hmem₁ hmem₂ hnext₁ hnext₂
          rw [hres₁] at hres₂
          rw [Option.some.inj hres₂]

end Program.StraightLine

end ConstFlow
