import ConstFlow.Proofs.VisitBound

/-!
# The least solution

Solving gives the least solution of the dataflow equations, whatever the strategy.

`Table.Approximates` collects what is true of a table all the way: it has all facts, it is above the
boundary, and it is below every assignment that covers the equations. The start is such a table, a
visit keeps it so (`Steps.approximates`), and so does a run that is stopped (`resume_outcome`). A
table of this kind that covers the equations itself is the least assignment that does, and there is
only one (`Approximates.same`). Nothing of this speaks of the order of visits, which is why both
strategies agree.
-/

namespace ConstFlow

/-- A table on the way to the least solution. -/
structure Table.Approximates (g : Supergraph) (t : Table) : Prop where
  ready : t.Ready g
  boundary : ∀ n ∈ g.nodes, (g.boundary n).get ≤ (t.inFact n).get
  below : ∀ a : Facts, a.Covers g → t.facts.Below g a

namespace Table

theorem start_approximates {g : Supergraph} (hg : g.WellFormed) : (start g).Approximates g :=
  ⟨start_ready hg, fun _ hn => (start_inFact hg hn ▸ le_rfl), fun _ ha => start_below hg ha⟩

namespace Approximates

variable {g : Supergraph} {t t' : Table}

/-- There is one table of this kind that covers the equations, as far as facts go. -/
theorem same (ht : t.Approximates g) (hc : t.facts.Covers g) (ht' : t'.Approximates g)
    (hc' : t'.facts.Covers g) : t.facts.Same g t'.facts :=
  (ht.below _ hc').antisymm (ht'.below _ hc)

theorem solves (hg : g.WellFormed) (ht : t.Approximates g) (hc : t.facts.Covers g) :
    t.facts.Solves g :=
  Facts.solves_of_least hg hc (fun _ hn => ht.ready.inRange_outFact hn) ht.below

end Approximates

end Table

/-- Visits keep a table on its way. -/
theorem Run.Steps.approximates {g : Supergraph} {s : Settings} {r r' : Run} (hg : g.WellFormed)
    (h : Run.Steps g s r r') (hr : r.Ready g) (ht : r.table.Approximates g) :
    r'.table.Approximates g := by
  obtain ⟨hready, hbound⟩ :=
    h.keeps hg (fun hr hv hb => hv.boundary_le hg hr hb) hr ht.boundary
  exact ⟨hready.table, hbound, fun a ha => h.below ha hg hr (ht.below a ha)⟩

/-- A run from a table on its way leaves one. It ends at the least solution, or it is stopped by its
bound. -/
theorem resume_outcome {g : Supergraph} (hg : g.WellFormed) {t : Table} (ht : t.Approximates g)
    (s : Settings) (noted : List Mismatch) :
    (resume g s noted t).run.table.Approximates g ∧
      ((resume g s noted t).ending = .fixpoint ∧
          (resume g s noted t).run.table.converged = true ∧
          (resume g s noted t).run.table.facts.Covers g ∨
        s.bound ≠ none ∧ ∃ made pending,
          (resume g s noted t).ending = .failed (.diverged made pending)) := by
  have hr := Run.begin_ready noted hg ht.ready
  have hbegin : (Run.begin g noted t).table.Approximates g :=
    ⟨hr.table, ht.boundary, ht.below⟩
  obtain ⟨r, hsteps, hends⟩ := resume_ends hg ht.ready s noted
  have hend := hsteps.approximates hg hr hbegin
  have hcovers := hsteps.covers hg hr (Run.mem_pending_begin noted hg) hbegin.boundary
  generalize resume g s noted t = f at hends
  cases hends with
  | fixpoint done =>
      refine ⟨⟨⟨hend.ready.before, hend.ready.after⟩, hend.boundary, hend.below⟩, Or.inl ?_⟩
      exact ⟨rfl, rfl, hcovers done⟩
  | stopped pending bound =>
      refine ⟨hend, Or.inr ⟨fun hnone => ?_, _, _, rfl⟩⟩
      rw [Settings.reached, hnone] at bound
      cases bound

/-- Without a bound, a run from a table on its way ends at the least solution. -/
theorem resume_unbounded {g : Supergraph} (hg : g.WellFormed) {t : Table} (ht : t.Approximates g)
    (strategy : Strategy) (noted : List Mismatch) :
    (resume g ⟨strategy, none⟩ noted t).ending = .fixpoint ∧
      (resume g ⟨strategy, none⟩ noted t).run.table.converged = true ∧
      (resume g ⟨strategy, none⟩ noted t).run.table.facts.Covers g :=
  (resume_outcome hg ht ⟨strategy, none⟩ noted).2.resolve_right fun h => h.1 rfl

/-- Solving ends, with both facts of every node, at the least solution of the equations; and every
strategy ends there. -/
theorem solve_least_solution {p : Program} {names : List Text} {g : Supergraph}
    (h : Supergraph.build p names = .ok g) (strategy : Strategy) (noted : List Mismatch) :
    (solve g ⟨strategy, none⟩ noted).ending = .fixpoint ∧
      (solve g ⟨strategy, none⟩ noted).run.table.converged = true ∧
      (∀ n ∈ g.nodes,
        ((solve g ⟨strategy, none⟩ noted).run.table.inFact? n).isSome = true ∧
        ((solve g ⟨strategy, none⟩ noted).run.table.outFact? n).isSome = true) ∧
      (solve g ⟨strategy, none⟩ noted).run.table.facts.Solves g ∧
      (∀ a : Facts, a.Solves g → (solve g ⟨strategy, none⟩ noted).run.table.facts.Below g a) ∧
      ∀ (other : Strategy) (noted' : List Mismatch),
        (solve g ⟨strategy, none⟩ noted).run.table.facts.Same g
          (solve g ⟨other, none⟩ noted').run.table.facts := by
  have hg := Supergraph.wellFormed_of_build h
  have hstart := Table.start_approximates hg
  have happrox := (resume_outcome hg hstart ⟨strategy, none⟩ noted).1
  obtain ⟨hend, hconv, hcovers⟩ := resume_unbounded hg hstart strategy noted
  refine ⟨hend, hconv, fun n hn => ⟨?_, ?_⟩, happrox.solves hg hcovers,
    fun a ha => happrox.below a (ha.covers hg), fun other noted' => ?_⟩
  · exact Option.isSome_iff_exists.mpr ⟨_, happrox.ready.inFact?_eq hn⟩
  · exact Option.isSome_iff_exists.mpr ⟨_, happrox.ready.outFact?_eq hn⟩
  · exact happrox.same hcovers (resume_outcome hg hstart ⟨other, none⟩ noted').1
      (resume_unbounded hg hstart other noted').2.2

/-- In the sample, both arguments are always `3`, and so is the result. -/
theorem solve_least_solution_sample :
    Supergraph.build Sample.program ["main"] = .ok Sample.graph ∧
      (solve Sample.graph ⟨.fifo, none⟩ []).run.table.facts.Solves Sample.graph ∧
      ((solve Sample.graph ⟨.fifo, none⟩ []).run.table.inFact Sample.main.exit).get
        ⟨"main", "j"⟩ = .const 3 ∧
      (solve Sample.graph ⟨.fifo, none⟩ []).run.table.facts.Same Sample.graph
        (solve Sample.graph ⟨.lifo, none⟩ []).run.table.facts := by
  obtain ⟨-, -, -, hsolves, -, hsame⟩ := solve_least_solution Sample.build_eq .fifo []
  exact ⟨Sample.build_eq, hsolves, by decide +kernel, hsame .lifo []⟩

end ConstFlow
