import ConstFlow.Proofs.LeastSolution

/-!
# Resuming a run

A run may be taken up from any table between the boundary and the least solution, with any
strategy. If it is not stopped it ends at the least solution; if it is stopped it leaves such a
table again. So it does not matter how often a run is stopped and taken up, and with which
strategies.

A table between the boundary and the least solution is just one that is on its way there
(`Between.approximates`, `Approximates.between`), so this is `resume_outcome` seen from the result.
Facts after nodes need not be above anything: where one is too low, the first visit of the node
lifts it.

On the solution itself every visit is idle (`Visits.idle`). No fact changes, nothing becomes pending
again, and each node is visited once.
-/

namespace ConstFlow

/-! ## Between the boundary and a solution -/

/-- A table with both facts of every node and 32-bit constants, above the boundary and below another
table. -/
structure Table.Between (g : Supergraph) (t l : Table) : Prop where
  ready : t.Ready g
  boundary : ∀ n ∈ g.nodes, (g.boundary n).leq (t.inFact n) = true
  below : t.facts.Below g l.facts

namespace Table

variable {g : Supergraph} {l t : Table}

theorem Between.approximates (ht : t.Between g l) (hl : l.Approximates g) : t.Approximates g :=
  ⟨ht.ready, fun n hn => Fact.leq_iff.mp (ht.boundary n hn),
    fun a ha => ht.below.trans (hl.below a ha)⟩

theorem Approximates.between (ht : t.Approximates g) (hl : l.facts.Covers g) : t.Between g l :=
  ⟨ht.ready, fun n hn => Fact.leq_iff.mpr (ht.boundary n hn), ht.below _ hl⟩

/-- Seen from the least solution: resuming leaves a table between, and either that is the solution
or the bound was reached. -/
theorem Between.resume (hg : g.WellFormed) (hl : l.Approximates g) (hc : l.facts.Covers g)
    (ht : t.Between g l) (s : Settings) (noted : List Mismatch) :
    (ConstFlow.resume g s noted t).run.table.Between g l ∧
      ((ConstFlow.resume g s noted t).ending = .fixpoint ∧
          (ConstFlow.resume g s noted t).run.table.facts.Same g l.facts ∨
        s.bound ≠ none ∧ ∃ made pending,
          (ConstFlow.resume g s noted t).ending = .failed (.diverged made pending)) := by
  obtain ⟨happrox, hend⟩ := resume_outcome hg (ht.approximates hl) s noted
  refine ⟨happrox.between hc, hend.imp_left ?_⟩
  rintro ⟨hfix, -, hcovers⟩
  exact ⟨hfix, happrox.same hcovers hl hc⟩

end Table

/-- A run from one table that is stopped by its bound and leaves another. -/
inductive Interrupted (g : Supergraph) (t : Table) : Table → Prop where
  | stopped (s : Settings) (noted : List Mismatch) (made pending : Nat)
      (ending : (resume g s noted t).ending = .failed (.diverged made pending)) :
      Interrupted g t (resume g s noted t).run.table

/-- Interrupted runs, one after another, stay between. -/
theorem Table.Between.interrupted {g : Supergraph} {l t t' : Table} (hg : g.WellFormed)
    (hl : l.Approximates g) (hc : l.facts.Covers g) (ht : t.Between g l)
    (h : Relation.ReflTransGen (Interrupted g) t t') : t'.Between g l := by
  induction h with
  | refl => exact ht
  | tail _ hstep ih =>
      obtain ⟨s, noted⟩ := hstep
      exact (ih.resume hg hl hc s noted).1

/-! ## On the solution -/

namespace Run

variable {g : Supergraph} {s : Settings} {r r' : Run} {a : Facts}

/-- On a solution, a visit changes no fact and makes nothing pending. -/
theorem Visits.idle (hg : g.WellFormed) (hr : r.Ready g) {n : Node} {rest : Worklist Node}
    {effect : Fact} (hv : Visits g r r' n rest effect) (ha : a.Solves g)
    (h : r.table.facts.Same g a) : r'.table.facts.Same g a ∧ r'.pending = rest := by
  have hn := hv.node_mem
  -- Gathering neither lowers the fact nor lifts it above the solution.
  have hin : (r'.table.inFact n).get = (a.before n).get := by
    refine le_antisymm ((hv.below (ha.covers hg) hg hr h.below).before hn) ?_
    exact (h.before hn).ge.trans (hv.le_inFact hg hr n)
  have heffect : (r.table.outFact n).get = effect.get := by
    obtain ⟨out, hout, hagrees⟩ := ha.after n hn
    obtain ⟨e, he, hget⟩ := Node.localEffect_of_transfer? hout
    obtain ⟨e', he', hget'⟩ := Action.localEffect_congr hin.symm he
    obtain rfl := Option.some.inj ((hv.inFact_self ▸ he').symm.trans hv.effect_eq)
    rw [hget', hget, ← Fact.agrees_iff.mp hagrees]
    exact h.after hn
  have hunchanged : (r.table.outFact n).copyChanges effect = false :=
    Fact.copyChanges_eq_false_iff.mpr fun x _ => congrFun heffect x
  have hout : (r'.table.outFact n).get = (a.after n).get := by
    rw [hv.outFact_self, Fact.get_copyFrom_of_unchanged hunchanged]
    exact h.after hn
  refine ⟨Facts.same_iff.mpr (hv.forall_facts (P := fun m before after =>
    before.get = (a.before m).get ∧ after.get = (a.after m).get) ⟨hin, hout⟩ fun m hm _ =>
    ⟨h.before hm, h.after hm⟩), ?_⟩
  rw [hv.pending_eq, hunchanged]
  rfl

/-- From a solution, every round is a visit of a node that was pending from the first. -/
theorem Steps.idle (hg : g.WellFormed) (hr : r.Ready g) (hsteps : Steps g s r r')
    (ha : a.Solves g) (h : r.table.facts.Same g a) :
    r'.table.facts.Same g a ∧
      r'.table.iterations + r'.pending.size = r.table.iterations + r.pending.size := by
  refine (hsteps.keeps hg (P := fun r₁ => r₁.table.facts.Same g a ∧
    r₁.table.iterations + r₁.pending.size = r.table.iterations + r.pending.size) ?_ hr
    ⟨h, rfl⟩).2
  rintro r₁ r₂ n rest effect hr₁ hv ⟨hsame, hcount⟩
  obtain ⟨hsame', hpending⟩ := hv.idle hg hr₁ ha hsame
  have hiter := hv.iterations_eq
  have hsize := hv.size_pending
  rw [hpending]
  exact ⟨hsame', by omega⟩

end Run

/-- Resumed on a solution, a run changes no fact, and if it is not stopped it visits every node
once. -/
theorem resume_idle {g : Supergraph} (hg : g.WellFormed) {t : Table} (ht : t.Ready g)
    (hs : t.facts.Solves g) (s : Settings) (noted : List Mismatch) :
    (resume g s noted t).run.table.facts.Same g t.facts ∧
      ((resume g s noted t).ending = .fixpoint →
        (resume g s noted t).run.table.iterations = t.iterations + g.nodes.length) := by
  obtain ⟨r, hsteps, hends⟩ := resume_ends hg ht s noted
  obtain ⟨hsame, hcount⟩ := hsteps.idle hg (Run.begin_ready noted hg ht) hs (.refl g t.facts)
  rw [Run.size_pending_begin noted hg] at hcount
  generalize resume g s noted t = f at hends
  cases hends with
  | fixpoint done =>
      rw [done] at hcount
      exact ⟨hsame, fun _ => hcount⟩
  | stopped pending bound => exact ⟨hsame, fun h => by cases h⟩

/-- Resuming, from whatever table between the boundary and the result `l` of solving: without a
bound it ends at `l`; with one it ends at `l` or is stopped, and leaves a table between; and so it
ends at `l` after any number of interruptions. From `l` itself it makes one idle visit of each
node. -/
theorem resume_reaches_solution {p : Program} {names : List Text} {g : Supergraph}
    (h : Supergraph.build p names = .ok g) (first : Strategy) (noted₀ : List Mismatch) :
    let l := (solve g ⟨first, none⟩ noted₀).run.table
    (∀ t : Table, t.Between g l →
      (∀ strategy noted,
        (resume g ⟨strategy, none⟩ noted t).ending = .fixpoint ∧
          (resume g ⟨strategy, none⟩ noted t).run.table.facts.Same g l.facts) ∧
      (∀ s noted,
        (resume g s noted t).run.table.Between g l ∧
          ((resume g s noted t).ending = .fixpoint ∧
              (resume g s noted t).run.table.facts.Same g l.facts ∨
            s.bound ≠ none ∧ ∃ made pending,
              (resume g s noted t).ending = .failed (.diverged made pending))) ∧
      ∀ t', Relation.ReflTransGen (Interrupted g) t t' → ∀ s noted,
        (resume g s noted t').ending = .fixpoint →
          (resume g s noted t').run.table.facts.Same g l.facts) ∧
    ∀ strategy noted,
      (resume g ⟨strategy, none⟩ noted l).ending = .fixpoint ∧
        (resume g ⟨strategy, none⟩ noted l).run.table.facts.Same g l.facts ∧
        (resume g ⟨strategy, none⟩ noted l).run.table.iterations =
          l.iterations + g.nodes.length := by
  intro l
  have hg := Supergraph.wellFormed_of_build h
  have hl : l.Approximates g := (resume_outcome hg (Table.start_approximates hg) _ noted₀).1
  have hc : l.facts.Covers g := (resume_unbounded hg (Table.start_approximates hg) first noted₀).2.2
  have hunbounded : ∀ t : Table, t.Between g l → ∀ strategy noted,
      (resume g ⟨strategy, none⟩ noted t).ending = .fixpoint ∧
        (resume g ⟨strategy, none⟩ noted t).run.table.facts.Same g l.facts :=
    fun t ht strategy noted =>
      (ht.resume hg hl hc ⟨strategy, none⟩ noted).2.resolve_right fun hb => hb.1 rfl
  refine ⟨fun t ht => ⟨hunbounded t ht, ht.resume hg hl hc, ?_⟩, fun strategy noted => ?_⟩
  · intro t' hint s noted hfix
    have hbetween := ht.interrupted hg hl hc hint
    rcases (hbetween.resume hg hl hc s noted).2 with ⟨-, hsame⟩ | ⟨-, made, pending, hdiv⟩
    · exact hsame
    · rw [hdiv] at hfix
      cases hfix
  · obtain ⟨hfix, hsame⟩ := hunbounded l (hl.between hc) strategy noted
    have hidle := resume_idle hg hl.ready (hl.solves hg hc) ⟨strategy, none⟩ noted
    exact ⟨hfix, hsame, hidle.2 hfix⟩

/-- The sample, stopped after five visits at the front of the worklist, and taken up at the back. -/
theorem resume_reaches_solution_sample :
    let first := resume Sample.graph ⟨.fifo, some 5⟩ [] (Table.start Sample.graph)
    let second := resume Sample.graph ⟨.lifo, none⟩ [] first.run.table
    (Table.start Sample.graph).Between Sample.graph
        (solve Sample.graph ⟨.fifo, none⟩ []).run.table ∧
      Interrupted Sample.graph (Table.start Sample.graph) first.run.table ∧
      second.run.table.facts.Same Sample.graph
        (solve Sample.graph ⟨.fifo, none⟩ []).run.table.facts := by
  have hg := Supergraph.wellFormed_of_build Sample.build_eq
  have hstart := Table.start_approximates hg
  have hbetween := hstart.between (resume_unbounded hg hstart .fifo []).2.2
  have hstop : Interrupted Sample.graph (Table.start Sample.graph)
      (resume Sample.graph ⟨.fifo, some 5⟩ [] (Table.start Sample.graph)).run.table :=
    .stopped _ _ 5 8 (by decide +kernel)
  have hreach := resume_reaches_solution Sample.build_eq .fifo []
  have hagain := ((hreach.1 _ hbetween).2.1 ⟨.fifo, some 5⟩ []).1
  exact ⟨hbetween, hstop, (hreach.1 _ hbetween).2.2 _ (.single hstop) ⟨.lifo, none⟩ []
    ((hreach.1 _ hagain).1 .lifo []).1⟩

end ConstFlow
