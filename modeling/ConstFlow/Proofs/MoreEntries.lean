import ConstFlow.Proofs.LeastSolution

/-!
# More entry methods

With more entry methods there is more that may happen, and less is known. If all the names of one
list are in another, then the graph of the first is part of the graph of the second
(`Supergraph.part_of_build`): it has some of the nodes, some of the edges and some of the entries.
Neither graph fixes the order in which the other lists them.

Whatever covers the equations of a graph covers those of its parts (`Facts.Covers.part`). Solving
the part gives the least assignment that does, so it is below the solution of the whole. Visits need
not be compared at all, which is why the two runs may use different strategies.

Two lists of the same names give graphs that are part of each other, so their solutions agree.
-/

namespace ConstFlow

/-! ## Parts of a graph -/

namespace Supergraph

/-- All that the equations of `g` ask for, the equations of `g'` ask for as well. -/
structure Part (g g' : Supergraph) : Prop where
  nodes : ∀ n ∈ g.nodes, n ∈ g'.nodes
  edges : ∀ e ∈ g.edges, e ∈ g'.edges
  entries : ∀ m ∈ g.entryMethods, m ∈ g'.entryMethods

/-- Graphs of one program differ by their methods and entries alone. -/
theorem Built.part {p : Program} {g g' : Supergraph} (hg : Built p g) (hg' : Built p g')
    (hmethods : ∀ m ∈ g.methods, m ∈ g'.methods)
    (hentries : ∀ m ∈ g.entryMethods, m ∈ g'.entryMethods) : g.Part g' := by
  have hnodes : ∀ n ∈ g.nodes, n ∈ g'.nodes := fun n hn => by
    obtain ⟨m, hm, hnm⟩ := hg.mem_nodes_iff.mp hn
    exact hg'.mem_nodes_iff.mpr ⟨m, hmethods m hm, hnm⟩
  have hflows : ∀ c ∈ g.flows, c ∈ g'.flows := fun c hc => by
    obtain ⟨m, hm, hb⟩ := hg.exists_method hc
    obtain ⟨c', hc', hb'⟩ := hg'.exists_build (hmethods m hm)
    obtain rfl := Except.ok.inj (hb.symm.trans hb')
    exact hc'
  have hsites : ∀ n ∈ g.calls.sites, n ∈ g'.calls.sites := fun n hn => by
    obtain ⟨hmem, hcall⟩ := hg.mem_sites_iff.mp hn
    exact hg'.mem_sites_iff.mpr ⟨hnodes n hmem, hcall⟩
  refine ⟨hnodes, fun e he => hg'.mem_edges_iff.mpr ?_, hentries⟩
  rcases hg.mem_edges_iff.mp he with ⟨c, hc, f, hf, rfl⟩ | ⟨n, hn, callee, hres, h⟩
  · exact Or.inl ⟨c, hflows c hc, f, hf, rfl⟩
  · refine Or.inr ⟨n, hsites n hn, callee, hres, h.imp_right ?_⟩
    rintro ⟨c, hc, f, hf, hsource, rfl⟩
    exact ⟨c, hflows c hc, f, hf, hsource, rfl⟩

section

variable {p : Program} {few many : List Text} {g' : Supergraph}

theorem mem_methods_of_subset (hsub : ∀ name ∈ few, name ∈ many) (h' : build p many = .ok g')
    {calls : CallGraph} (h : CallGraph.build p few = .ok calls) :
    (∀ m ∈ calls.entries, m ∈ g'.entryMethods) ∧ ∀ m ∈ calls.reachable, m ∈ g'.methods := by
  have hcalls' := (built_of_build h').calls
  have hentries : ∀ m ∈ calls.entries, m ∈ g'.entryMethods := fun m hm => by
    obtain ⟨name, hn, hfind⟩ := (CallGraph.mem_entries_iff h).mp hm
    exact mem_entryMethods_of_build h' (hsub name hn) hfind
  refine ⟨hentries, CallGraph.reachable_forall h ?_ hcalls'.reachable.closed⟩
  exact fun m hm => hcalls'.entries m (hentries m hm)

theorem part_of_build (hsub : ∀ name ∈ few, name ∈ many) (h' : build p many = .ok g')
    {g : Supergraph} (h : build p few = .ok g) : g.Part g' := by
  obtain ⟨hentries, hmethods⟩ := mem_methods_of_subset hsub h' (calls_of_build h)
  exact (built_of_build h).part (built_of_build h') hmethods hentries

/-- Nothing can go wrong with fewer entries that has not gone wrong before. -/
theorem exists_build_of_subset (hsub : ∀ name ∈ few, name ∈ many) (h' : build p many = .ok g') :
    ∃ g, build p few = .ok g := by
  have hnamed := CallGraph.exists_build_iff.mp ⟨_, calls_of_build h'⟩
  obtain ⟨calls, h⟩ := CallGraph.exists_build_iff.mpr fun name hn => hnamed name (hsub name hn)
  refine exists_build_of_flows h fun m hm => ?_
  obtain ⟨c, -, hc⟩ :=
    (built_of_build h').exists_build ((mem_methods_of_subset hsub h' h).2 m hm)
  exact ⟨c, hc⟩

end

theorem Part.boundary_le {g g' : Supergraph} (h : g.Part g') (hg' : g'.WellFormed) (n : Node) :
    (g.boundary n).get ≤ (g'.boundary n).get := by
  rcases g.boundary_cases n with ⟨m, hm, rfl, hb⟩ | hb
  · rw [hb, boundary_entry hg' (h.entries m hm)]
  · rw [hb]
    exact Fact.empty_le _

end Supergraph

/-! ## Solutions of a part -/

theorem Facts.Covers.part {g g' : Supergraph} {a : Facts} (ha : a.Covers g')
    (hg' : g'.WellFormed) (h : g.Part g') : a.Covers g where
  boundary n hn := (h.boundary_le hg' n).trans (ha.boundary n (h.nodes n hn))
  flow e he := ha.flow e (h.edges e he)
  effect n hn := ha.effect n (h.nodes n hn)

/-- Two runs that ended. Both have both facts of every node of `g`, related by `R`. -/
structure Finished.Related (R : Fact → Fact → Bool) (g : Supergraph) (f f' : Finished) : Prop where
  ended : f.ending = .fixpoint ∧ f'.ending = .fixpoint
  before : ∀ n ∈ g.nodes, ∃ i i', f.run.table.inFact? n = some i ∧
    f'.run.table.inFact? n = some i' ∧ R i i' = true
  after : ∀ n ∈ g.nodes, ∃ o o', f.run.table.outFact? n = some o ∧
    f'.run.table.outFact? n = some o' ∧ R o o' = true

/-- A run that ended at the least solution. -/
structure Finished.Least (g : Supergraph) (f : Finished) : Prop where
  ended : f.ending = .fixpoint
  approximates : f.run.table.Approximates g
  covers : f.run.table.facts.Covers g

theorem solve_least {g : Supergraph} (hg : g.WellFormed) (strategy : Strategy)
    (noted : List Mismatch) : (solve g ⟨strategy, none⟩ noted).Least g := by
  have hstart := Table.start_approximates hg
  obtain ⟨hend, -, hcovers⟩ := resume_unbounded hg hstart strategy noted
  exact ⟨hend, (resume_outcome hg hstart ⟨strategy, none⟩ noted).1, hcovers⟩

namespace Finished.Least

variable {g g' : Supergraph} {f f' : Finished} (hf : f.Least g) (hf' : f'.Least g')
include hf hf'

theorem below (hg' : g'.WellFormed) (h : g.Part g') :
    f.run.table.facts.Below g f'.run.table.facts :=
  hf.approximates.below _ (hf'.covers.part hg' h)

/-- Both tables are filled, so what holds of their facts holds of facts that are there. -/
theorem related {R : Fact → Fact → Bool} (hnodes : ∀ n ∈ g.nodes, n ∈ g'.nodes)
    (hR : ∀ n ∈ g.nodes, R (f.run.table.facts.before n) (f'.run.table.facts.before n) = true ∧
      R (f.run.table.facts.after n) (f'.run.table.facts.after n) = true) :
    Related R g f f' := by
  have hready := hf.approximates.ready
  have hready' := hf'.approximates.ready
  refine ⟨⟨hf.ended, hf'.ended⟩, fun n hn => ?_, fun n hn => ?_⟩
  · exact ⟨_, _, hready.inFact?_eq hn, hready'.inFact?_eq (hnodes n hn), (hR n hn).1⟩
  · exact ⟨_, _, hready.outFact?_eq hn, hready'.outFact?_eq (hnodes n hn), (hR n hn).2⟩

end Finished.Least

/-- Fewer entry names, all of them among many: there is a graph for the few, its nodes are nodes for
the many, and the facts that solving gives there are below those for the many. If the names are the
same, in whatever order and however often, nodes and facts are the same. -/
theorem solve_mono_entries {p : Program} {few many : List Text} {g' : Supergraph}
    (hsub : ∀ name ∈ few, name ∈ many) (h : Supergraph.build p many = .ok g') :
    ∃ g, Supergraph.build p few = .ok g ∧
      (∀ n ∈ g.nodes, n ∈ g'.nodes) ∧
      (∀ (strategy strategy' : Strategy) (noted noted' : List Mismatch),
        Finished.Related Fact.leq g (solve g ⟨strategy, none⟩ noted)
          (solve g' ⟨strategy', none⟩ noted')) ∧
      ((∀ name ∈ many, name ∈ few) →
        (∀ n ∈ g'.nodes, n ∈ g.nodes) ∧
        ∀ (strategy strategy' : Strategy) (noted noted' : List Mismatch),
          Finished.Related Fact.agrees g (solve g ⟨strategy, none⟩ noted)
            (solve g' ⟨strategy', none⟩ noted')) := by
  obtain ⟨g, hfew⟩ := Supergraph.exists_build_of_subset hsub h
  have hg := Supergraph.wellFormed_of_build hfew
  have hg' := Supergraph.wellFormed_of_build h
  have hpart := Supergraph.part_of_build hsub h hfew
  refine ⟨g, hfew, hpart.nodes, fun s s' noted noted' => ?_, fun hsup => ?_⟩
  · have hleast := solve_least hg s noted
    have hleast' := solve_least hg' s' noted'
    exact hleast.related hleast' hpart.nodes (hleast.below hleast' hg' hpart)
  · have hpart' := Supergraph.part_of_build hsup hfew h
    refine ⟨hpart'.nodes, fun s s' noted noted' => ?_⟩
    have hleast := solve_least hg s noted
    have hleast' := solve_least hg' s' noted'
    -- Each graph is part of the other, so each solution is below the other.
    have hge := hleast'.below hleast hg hpart'
    have hsame := (hleast.below hleast' hg' hpart).antisymm fun n hn => hge n (hpart.nodes n hn)
    exact hleast.related hleast' hpart.nodes hsame

/-- Called only from `main`, `pick` gets `3` twice. As an entry it may get anything. -/
theorem solve_mono_entries_sample :
    let many := Sample.graphOf Sample.program ["pick", "main", "pick"]
    (∃ g, Supergraph.build Sample.program ["main"] = .ok g ∧
      Finished.Related Fact.leq g (solve g ⟨.fifo, none⟩ []) (solve many ⟨.lifo, none⟩ [])) ∧
    (∃ g, Supergraph.build Sample.program ["main", "pick"] = .ok g ∧
      Finished.Related Fact.agrees g (solve g ⟨.fifo, none⟩ []) (solve many ⟨.lifo, none⟩ [])) ∧
    ((solve Sample.graph ⟨.fifo, none⟩ []).run.table.inFact Sample.pick.entry).get
      ⟨"pick", "a"⟩ = .const 3 ∧
    ((solve many ⟨.lifo, none⟩ []).run.table.inFact Sample.pick.entry).get
      ⟨"pick", "a"⟩ = .nac := by
  intro many
  have hbuild : Supergraph.build Sample.program ["pick", "main", "pick"] = .ok many :=
    Sample.build_graphOf (by decide +kernel)
  have hmain : ∀ name ∈ (["main"] : List Text),
      name ∈ (["pick", "main", "pick"] : List Text) := by decide
  have hboth : ∀ name ∈ (["main", "pick"] : List Text),
      name ∈ (["pick", "main", "pick"] : List Text) := by decide
  obtain ⟨g, hg, -, hle, -⟩ := solve_mono_entries hmain hbuild
  obtain ⟨g₂, hg₂, -, -, hsame⟩ := solve_mono_entries hboth hbuild
  exact ⟨⟨g, hg, hle .fifo .lifo [] []⟩, ⟨g₂, hg₂, (hsame (by decide)).2 .fifo .lifo [] []⟩,
    by decide +kernel, by decide +kernel⟩

end ConstFlow
