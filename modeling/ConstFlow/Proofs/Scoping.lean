import ConstFlow.Proofs.Moments

/-!
# Locals stay in their method

At every moment of solving, a fact at a node binds none but variables of the method that the node
lies in: its parameters, and what its statements assign.

Edges mix the names of two methods only where a call is entered or left. The edge into a callee
binds parameters of the callee, and the edge back binds the receiver, which the caller assigns
(`Supergraph.Built.scoped_carry`). A method that calls itself is no special case: what an edge into
it carries is about its parameters, whoever the caller is.
-/

namespace ConstFlow

/-- A variable that a method may bind: one of its own that is a parameter, or that one of its
statements assigns. -/
def Method.Owns (m : Method) (x : Var) : Prop :=
  x.method = m.name ∧ (x ∈ m.params ∨ ∃ s ∈ m.body, s.action.target? = some x)

/-- The parameters and statements of a method mention none but its own variables. -/
def Method.IsLocal (m : Method) : Prop := ∀ x ∈ m.vars, x.method = m.name

instance (m : Method) : Decidable m.IsLocal :=
  inferInstanceAs (Decidable (∀ x ∈ m.vars, x.method = m.name))

namespace Method.IsLocal

variable {m : Method} (hm : m.IsLocal)
include hm

theorem owns_param {x : Var} (hx : x ∈ m.params) : m.Owns x :=
  ⟨hm x (List.mem_append_left _ hx), Or.inl hx⟩

theorem owns_target {n : Node} (hn : n ∈ m.nodes) {x : Var} (hx : n.action.target? = some x) :
    m.Owns x := by
  rcases mem_nodes_iff.mp hn with rfl | hn | rfl
  · cases hx
  · obtain ⟨i, s, hs, rfl⟩ := mem_stmtNodes_iff.mp hn
    have hmem := List.mem_of_getElem? hs
    have htarget : s.action.target? = some x := hx
    refine ⟨hm x (List.mem_append_right _ (List.mem_flatMap.mpr ⟨s, hmem, ?_⟩)),
      Or.inr ⟨s, hmem, htarget⟩⟩
    simp [htarget]
  · cases hx

end Method.IsLocal

/-- The node lies in a method of the graph that owns all variables that the fact binds. -/
def Fact.ScopedAt (g : Supergraph) (n : Node) (f : Fact) : Prop :=
  ∃ m ∈ g.methods, n ∈ m.nodes ∧ ∀ x ∈ f.vars, m.Owns x

/-- All facts of a table lie at nodes of the graph, and bind variables of the methods there. -/
def Table.Scoped (g : Supergraph) (t : Table) : Prop :=
  ∀ n f, t.inFact? n = some f ∨ t.outFact? n = some f → f.ScopedAt g n

namespace Fact.ScopedAt

variable {g : Supergraph} {n : Node} {f : Fact}

theorem update {m : Method} (hm : m ∈ g.methods) (hn : n ∈ m.nodes) {x : Var} (hx : m.Owns x)
    (hf : ∀ y ∈ f.vars, m.Owns y) (v : Value) : (f.update x v).ScopedAt g n := by
  refine ⟨m, hm, hn, fun y hy => ?_⟩
  rw [mem_vars_iff, get_update] at hy
  split at hy
  · rename_i hyx
    exact hyx ▸ hx
  · exact hf y ((f.mem_vars_iff y).mpr hy)

end Fact.ScopedAt

/-! ## Edges and statements -/

namespace Supergraph.Built

variable {p : Program} {g : Supergraph} (hg : Built p g)
include hg

/-- Methods of the graph are told apart by their nodes. -/
theorem eq_of_mem_nodes {m c : Method} (hm : m ∈ g.methods) (hc : c ∈ g.methods) {n : Node}
    (hnm : n ∈ m.nodes) (hnc : n ∈ c.nodes) : m = c :=
  Program.eq_of_mem_nodes (hg.calls.reachable.defined m hm) (hg.calls.reachable.defined c hc)
    hnm hnc

/-- An edge that is neither into a callee nor back from it runs inside a method. -/
theorem exists_method_of_inside {e : Edge} (he : e ∈ g.edges) (hi : e.Inside) :
    ∃ m ∈ g.methods, e.source ∈ m.nodes ∧ e.target ∈ m.nodes := by
  rcases hg.mem_edges_iff.mp he with ⟨c, hc, f, hf, rfl⟩ | ⟨n, hn, callee, hres, h⟩
  · obtain ⟨m, hm, hb⟩ := hg.exists_method hc
    exact ⟨m, hm, ControlFlow.mem_nodes_of_build hb hf⟩
  · rcases h with rfl | ⟨c, hc, f, hf, hs, rfl⟩
    · rcases hi with h | h <;> cases h
    · rcases hi with h | h <;> cases h

variable (hlocal : ∀ m ∈ g.methods, m.IsLocal)
include hlocal

/-- Whatever an edge introduces is owned by the method that it leads to. -/
theorem owns_of_introduces {e : Edge} (he : e ∈ g.edges) {x : Var} (hx : e.Introduces x) :
    ∃ m ∈ g.methods, e.target ∈ m.nodes ∧ m.Owns x := by
  rcases hg.mem_edges_iff.mp he with ⟨c, hc, f, hf, rfl⟩ | ⟨n, hn, callee, hres, h⟩
  · simp only [FlowEdge.lift] at hx
    rcases hx with ⟨callee, hk, -⟩ | ⟨site, callee, hk, -⟩ <;> split at hk <;> cases hk
  · rcases h with rfl | ⟨c, hc, f, hf, hs, rfl⟩
    · rcases hx with ⟨_, hk, hx⟩ | ⟨_, _, hk, -⟩
      · cases hk
        have hcallee := hg.callee_mem hn hres
        exact ⟨callee, hcallee, callee.entry_mem_nodes, (hlocal _ hcallee).owns_param hx⟩
      · cases hk
    · rcases hx with ⟨_, hk, -⟩ | ⟨_, _, hk, hx⟩
      · cases hk
      · cases hk
        -- The call and the place where its caller goes on lie in one method.
        obtain ⟨m, hm, hb⟩ := hg.exists_method hc
        obtain ⟨hsource, htarget⟩ := ControlFlow.mem_nodes_of_build hb hf
        exact ⟨m, hm, htarget, (hlocal m hm).owns_target (hs ▸ hsource) hx⟩

theorem scoped_carry {e : Edge} (he : e ∈ g.edges) {f : Fact} (hf : f.ScopedAt g e.source) :
    (e.carry (some f)).ScopedAt g e.target := by
  obtain ⟨m, hm, htarget⟩ := hg.mem_nodes_iff.mp (hg.wellFormed.target_mem e he)
  refine ⟨m, hm, htarget, fun x hx => ?_⟩
  rcases Edge.mem_of_carry ((Fact.mem_vars_iff _ x).mp hx) with ⟨hinside, hget⟩ | hintro
  · obtain ⟨c, hc, hcs, hct⟩ := hg.exists_method_of_inside he hinside
    obtain ⟨c', hc', hcs', howns⟩ := hf
    obtain rfl := hg.eq_of_mem_nodes hc hc' hcs hcs'
    obtain rfl := hg.eq_of_mem_nodes hm hc htarget hct
    exact howns x ((f.mem_vars_iff x).mpr hget)
  · obtain ⟨c, hc, hct, howns⟩ := hg.owns_of_introduces hlocal he hintro
    exact hg.eq_of_mem_nodes hm hc htarget hct ▸ howns

theorem scoped_takesIn : Table.TakesIn g (Fact.ScopedAt g) := by
  refine ⟨fun {t n} hr ht _ b hb f hf => ?_, fun {n gathered effect} _ hgathered he b hb f hf => ?_⟩
  · obtain ⟨e, he, hcarried⟩ := List.mem_flatMap.mp hb
    rw [outFact?_source hg.wellFormed hr he] at hcarried
    obtain ⟨hmem, rfl⟩ := hg.wellFormed.mem_inEdges_iff.mp he
    have hsource := hr.outFact?_eq (hg.wellFormed.source_mem e hmem)
    obtain ⟨m, hm, hn, howns⟩ := hg.scoped_carry hlocal hmem (ht _ _ (Or.inr hsource))
    obtain ⟨c, hc, hnc, hf⟩ := hf
    obtain rfl := hg.eq_of_mem_nodes hm hc hn hnc
    exact .update hm hn (howns b.1 (List.mem_map_of_mem hcarried)) hf _
  · obtain ⟨m, hm, hn, howns⟩ := hgathered
    obtain ⟨c, hc, hnc, hf⟩ := hf
    obtain rfl := hg.eq_of_mem_nodes hm hc hn hnc
    refine .update hm hn ?_ hf _
    have hbound : effect.get b.1 ≠ .unset :=
      (effect.mem_vars_iff b.1).mp (List.mem_map_of_mem hb)
    rcases Action.mem_of_localEffect he hbound with h | h
    · exact howns b.1 ((gathered.mem_vars_iff b.1).mpr h)
    · exact (hlocal m hm).owns_target hn h

theorem scoped_start : (Table.start g).Scoped g := by
  refine Table.All.start (fun n hn => ?_) fun m hm => ?_
  · obtain ⟨m, hm, hnm⟩ := hg.mem_nodes_iff.mp hn
    exact ⟨m, hm, hnm, fun x hx => absurd hx List.not_mem_nil⟩
  · have hreach := hg.calls.entries m hm
    refine ⟨m, hreach, m.entry_mem_nodes, fun x hx => ?_⟩
    rw [Fact.mem_vars_iff, Fact.boundary_eq, Fact.get_nacOn] at hx
    split at hx
    · exact (hlocal m hreach).owns_param ‹_›
    · exact absurd rfl hx

end Supergraph.Built

/-! ## Rounds -/

/-- However many rounds solving has made, both facts of every node are there, and every variable
that a fact at a node binds belongs to the method of that node, as a parameter or as the target of
one of its statements. So it is at every moment of the visit that comes next, and at the end. -/
theorem solve_locals_stay {p : Program} {names : List Text} {g : Supergraph}
    (h : Supergraph.build p names = .ok g) (hlocal : ∀ m ∈ p.methods, m.IsLocal) (s : Settings)
    (noted : List Mismatch) :
    (∀ k, let r := (Run.begin g noted (.start g)).after g s k
      (∀ n ∈ g.nodes, (r.table.inFact? n).isSome = true ∧ (r.table.outFact? n).isSome = true) ∧
      r.table.Scoped g ∧
      ∀ n rest, r.pending.pop? s.strategy = some (n, rest) →
        (∀ t ∈ r.table.moments g n, t.Scoped g) ∧
        (r.table.moments g n).getLast? = some (r.table.visit g n).table) ∧
    (solve g s noted).run.table.Scoped g := by
  have hb := Supergraph.built_of_build h
  have hg := hb.wellFormed
  have hmethods : ∀ m ∈ g.methods, m.IsLocal := fun m hm =>
    hlocal m (hb.calls.reachable.defined m hm)
  have htakes := hb.scoped_takesIn hmethods
  have hbegin := Run.begin_ready noted hg (Table.start_ready hg)
  have hscoped : ∀ k, ((Run.begin g noted (.start g)).after g s k).table.Scoped g := fun k =>
    htakes.after hg hbegin (hb.scoped_start hmethods) k
  refine ⟨fun k => ?_, hscoped _⟩
  intro r
  have hr : r.Ready g := Run.after_ready hg k hbegin
  refine ⟨fun n hn => ⟨?_, ?_⟩, hscoped k, fun n rest hpop => ⟨?_, ?_⟩⟩
  · exact Option.isSome_iff_exists.mpr ⟨_, hr.table.inFact?_eq hn⟩
  · exact Option.isSome_iff_exists.mpr ⟨_, hr.table.outFact?_eq hn⟩
  · exact htakes.moments hg hr.table (hscoped k) (hr.mem_nodes_of_pop? hpop)
  · exact hr.table.getLast?_moments hg (hr.mem_nodes_of_pop? hpop)

/-- In the sample, `pick` calls itself with its parameters exchanged, and `main` calls it with a
variable of its own for both. After thirteen rounds the entry of `pick` comes next, with edges from
both calls; what it takes in is about `a` and `b` only. -/
theorem solve_locals_stay_sample :
    let r := (Run.begin Sample.graph [] (.start Sample.graph)).after Sample.graph ⟨.fifo, none⟩ 13
    (∀ m ∈ Sample.program.methods, m.IsLocal) ∧
      (∃ rest, r.pending.pop? .fifo = some (Sample.pick.entry, rest)) ∧
      (Sample.graph.inEdges Sample.pick.entry).length = 2 ∧
      (∀ t ∈ r.table.moments Sample.graph Sample.pick.entry, t.Scoped Sample.graph) ∧
      ((r.table.visit Sample.graph Sample.pick.entry).table.inFact Sample.pick.entry).vars =
        [⟨"pick", "a"⟩, ⟨"pick", "b"⟩] := by
  intro r
  have hlocal : ∀ m ∈ Sample.program.methods, m.IsLocal := by decide +kernel
  obtain ⟨hrounds, -⟩ := solve_locals_stay Sample.build_eq hlocal ⟨.fifo, none⟩ []
  obtain ⟨-, -, hvisit⟩ := hrounds 13
  have hnext : (r.pending.pop? .fifo).map Prod.fst = some Sample.pick.entry := by decide +kernel
  obtain ⟨⟨_, rest⟩, hpop, rfl⟩ := Option.map_eq_some_iff.mp hnext
  exact ⟨hlocal, ⟨rest, hpop⟩, by decide +kernel, (hvisit _ rest hpop).1, by decide +kernel⟩

end ConstFlow
