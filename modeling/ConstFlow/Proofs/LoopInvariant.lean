import ConstFlow.Proofs.Rounds

/-!
# What is true in every round of solving

Solving keeps more than what its result needs. In every round, all facts are there and only rise, a
node that was visited has exactly the fact that its statement makes of the fact before it, and a
node that is not pending has taken in everything that its edges carry.

Copying keeps the variables that its source does not bind, so a fact after a node could hold on to
something that the statement no longer gives. That it never does rests on the order of things from
the start on: the fact after a node is not above the effect of its statement (`Table.Rising`), so
the effect, which only rises, binds whatever was there before (`Visits.outFact_eq_effect`).
-/

namespace ConstFlow

/-- The fact after a node is what its statement makes of the fact before it. -/
def Table.Exact (t : Table) (n : Node) : Prop :=
  ∃ f, n.action.localEffect (t.inFact n) = some f ∧ (t.outFact n).get = f.get

theorem Table.Exact.transfer {t : Table} {n : Node} (h : t.Exact n) :
    ∃ f, n.transfer? (t.inFact n) = some f ∧ (t.outFact n).agrees f = true := by
  obtain ⟨effect, he, hget⟩ := h
  obtain ⟨out, ho, hout⟩ := Node.transfer?_eq he
  exact ⟨out, ho, Fact.agrees_iff.mpr (hget.trans hout.symm)⟩

namespace Run

variable {g : Supergraph} {s : Settings} {r r' : Run}

/-- What every round of solving keeps. -/
structure LoopInvariant (g : Supergraph) (r : Run) : Prop where
  rising : r.table.Rising g
  exact_visited : ∀ v ∈ r.visits, r.table.Exact v.node
  consistent : r.Consistent g

theorem begin_loopInvariant (hg : g.WellFormed) (noted : List Mismatch) :
    (begin g noted (.start g)).LoopInvariant g where
  rising := Table.start_rising hg
  exact_visited := fun _ hv => absurd hv List.not_mem_nil
  consistent := fun n hn => Or.inl (mem_pending_begin noted hg n hn)

section Visit

variable {n : Node} {rest : Worklist Node} {effect : Fact} (hg : g.WellFormed) (hr : r.Ready g)
  (hv : Visits g r r' n rest effect) (hrise : r.table.Rising g)
include hg hr hv hrise

theorem Visits.exact_self : r'.table.Exact n := by
  refine ⟨effect, ?_, (hv.outFact_eq_effect hg hr hrise).2⟩
  rw [hv.inFact_self]
  exact hv.effect_eq

theorem Visits.facts_le : r.table.facts.Below g r'.table.facts := by
  refine Facts.below_iff.mpr fun m _ => ⟨hv.le_inFact hg hr m, ?_⟩
  show (r.table.outFact m).get ≤ (r'.table.outFact m).get
  by_cases hmn : m = n
  · obtain ⟨hup, heq⟩ := hv.outFact_eq_effect hg hr hrise
    rw [hmn, heq]
    exact hup
  · rw [hv.outFact_of_ne hmn]

end Visit

theorem LoopInvariant.step (hg : g.WellFormed) (hr : r.Ready g) (hinv : r.LoopInvariant g)
    (h : Step g s r r') : r'.LoopInvariant g ∧ r.table.facts.Below g r'.table.facts := by
  obtain ⟨n, rest, effect, new, hv, hnew, hvisits⟩ := h.visited hg hr
  refine ⟨⟨hv.rising hg hr hinv.rising, ?_, hv.consistent hg hr hinv.consistent⟩,
    hv.facts_le hg hr hinv.rising⟩
  intro v hmem
  by_cases hvn : v.node = n
  · rw [hvn]
    exact hv.exact_self hg hr hinv.rising
  · -- An earlier visit, of another node: this round has left its facts alone.
    have hold : v ∈ r.visits := by
      rw [hvisits] at hmem
      rcases List.mem_cons.mp hmem with rfl | hmem
      · exact absurd hnew hvn
      · exact hmem
    obtain ⟨f, hf, hget⟩ := hinv.exact_visited v hold
    refine ⟨f, ?_, ?_⟩
    · rw [hv.inFact_of_ne hvn]
      exact hf
    · rw [hv.outFact_of_ne hvn]
      exact hget

theorem LoopInvariant.finish (h : r.LoopInvariant g) : r.finish.LoopInvariant g :=
  ⟨h.rising, h.exact_visited,
    fun n hn => (h.consistent n hn).imp_right fun hs => ⟨hs.flow, hs.effect⟩⟩

/-- The invariant holds after any number of rounds, and facts have not fallen meanwhile. -/
theorem LoopInvariant.after (hg : g.WellFormed) (hr : r.Ready g) (hinv : r.LoopInvariant g)
    (k : Nat) :
    (Run.after g s k r).LoopInvariant g ∧
      r.table.facts.Below g (Run.after g s k r).table.facts := by
  refine (after_keeps hg (P := fun r₁ => r₁.LoopInvariant g ∧
    r.table.facts.Below g r₁.table.facts) ?_ (fun h => ⟨h.1.finish, h.2⟩) k hr
    ⟨hinv, (Facts.Same.refl g _).below⟩).2
  rintro r₁ r₂ hr₁ h ⟨hinv₁, hle⟩
  obtain ⟨hinv₂, hle₁⟩ := hinv₁.step hg hr₁ h
  exact ⟨hinv₂, hle.trans hle₁⟩

end Run

/-- However many rounds solving has made: both facts of every node are there, and are not below
what they were after fewer rounds; the fact after a node that was visited is what the statement
makes of the fact before it, no more and no less; and a node that is not pending has in the fact
before it all that its incoming edges carry. -/
theorem solve_loop_invariant {p : Program} {names : List Text} {g : Supergraph}
    (h : Supergraph.build p names = .ok g) (s : Settings) (noted : List Mismatch) (k : Nat) :
    let start := Run.begin g noted (.start g)
    let t := (start.after g s k).table
    (∀ n ∈ g.nodes, (t.inFact? n).isSome = true ∧ (t.outFact? n).isSome = true) ∧
    (∀ j ≤ k, (start.after g s j).table.facts.Below g t.facts) ∧
    (∀ v ∈ (start.after g s k).visits,
      ∃ f, v.node.transfer? (t.inFact v.node) = some f ∧ (t.outFact v.node).agrees f = true) ∧
    ∀ n ∈ g.nodes, n ∉ (start.after g s k).pending.toList →
      ∀ e ∈ g.inEdges n, (e.carry (t.outFact? e.source)).leq (t.inFact n) = true := by
  intro start t
  have hg := Supergraph.wellFormed_of_build h
  have hr : start.Ready g := Run.begin_ready noted hg (Table.start_ready hg)
  have hinv : ∀ j, (start.after g s j).LoopInvariant g := fun j =>
    ((Run.begin_loopInvariant hg noted).after hg hr j).1
  have hready : ∀ j, (start.after g s j).Ready g := fun j => Run.after_ready hg j hr
  refine ⟨fun n hn => ⟨?_, ?_⟩, fun j hj => ?_, fun v hv => ((hinv k).exact_visited v hv).transfer,
    fun n hn hp e he => ?_⟩
  · exact Option.isSome_iff_exists.mpr ⟨_, (hready k).table.inFact?_eq hn⟩
  · exact Option.isSome_iff_exists.mpr ⟨_, (hready k).table.outFact?_eq hn⟩
  · obtain ⟨i, rfl⟩ := Nat.exists_eq_add_of_le hj
    show (start.after g s j).table.facts.Below g (start.after g s (j + i)).table.facts
    rw [Run.after_add hg j i hr]
    exact ((hinv j).after hg (hready j) i).2
  · rw [outFact?_source hg (hready k).table he]
    exact Fact.leq_iff.mpr ((((hinv k).consistent n hn).resolve_left hp).flow e he)

/-- After nine rounds in the sample, the entry of `pick` was visited, and is pending again; the
branch of `main` is not pending. -/
theorem solve_loop_invariant_sample :
    let start := Run.begin Sample.graph [] (.start Sample.graph)
    let r := start.after Sample.graph ⟨.fifo, none⟩ 9
    (start.after Sample.graph ⟨.fifo, none⟩ 4).table.facts.Below Sample.graph r.table.facts ∧
      (∃ v ∈ r.visits, v.node = Sample.pick.entry ∧ v.node ∈ r.pending.toList ∧
        ∃ f, v.node.transfer? (r.table.inFact v.node) = some f ∧
          (r.table.outFact v.node).agrees f = true) ∧
      Sample.main.nodeAt 2 ∉ r.pending.toList ∧
      ∀ e ∈ Sample.graph.inEdges (Sample.main.nodeAt 2),
        (e.carry (r.table.outFact? e.source)).leq (r.table.inFact (Sample.main.nodeAt 2)) =
          true := by
  intro start r
  obtain ⟨-, hrise, hexact, hflow⟩ :=
    solve_loop_invariant Sample.build_eq ⟨.fifo, none⟩ [] 9
  have hvisited : Sample.pick.entry ∈ r.visits.map Visit.node := by decide +kernel
  have hpending : Sample.pick.entry ∈ r.pending.toList := by decide +kernel
  have hnode : Sample.main.nodeAt 2 ∈ Sample.graph.nodes := by decide +kernel
  have hsettled : Sample.main.nodeAt 2 ∉ r.pending.toList := by decide +kernel
  obtain ⟨v, hv, hvn⟩ := List.mem_map.mp hvisited
  exact ⟨hrise 4 (by decide), ⟨v, hv, hvn, hvn ▸ hpending, hexact v hv⟩, hsettled,
    hflow _ hnode hsettled⟩

end ConstFlow
