import ConstFlow.Proofs.VisitBound

/-!
# Rounds of the loop

The loop of the solver seen round by round. `Run.after` is the run after a number of rounds. It is
the loop itself with that number for its allowance, so `solve` and `resume` are among its values
(`Run.after_budget`), and every state that a run goes through is too. Rounds add up
(`Run.after_add`), and what one round keeps, any number of rounds keep (`Run.after_keeps`).

A bound does nothing but cut a run off. As long as it is not reached, a round with it is a round
without it (`Step.rebound`), so a run with a bound and the run without it go side by side until the
latter ends or the bound is reached.
-/

namespace ConstFlow

namespace Run

variable {g : Supergraph} {s : Settings} {r r' : Run}

/-- The run after `k` more rounds, or where it ends if that comes first. -/
def after (g : Supergraph) (s : Settings) (k : Nat) (r : Run) : Run := (go g s k r).run

/-! ## One round -/

/-- A round may as well be made under other settings, as long as their bound allows it. -/
theorem Step.rebound (h : Step g s r r') {s' : Settings} (hs : s'.strategy = s.strategy)
    (hb : s'.reached r.table = false) : Step g s' r r' := by
  obtain ⟨-, pop, visited⟩ := h
  exact .visit hb (hs ▸ pop) visited

theorem Step.ready (hg : g.WellFormed) (hr : r.Ready g) (h : Step g s r r') : r'.Ready g := by
  obtain ⟨n, rest, effect, hv⟩ := h.visits hg hr
  exact hv.ready hg hr

theorem Step.iterations_eq (hg : g.WellFormed) (hr : r.Ready g) (h : Step g s r r') :
    r'.table.iterations = r.table.iterations + 1 := by
  obtain ⟨n, rest, effect, hv⟩ := h.visits hg hr
  exact hv.iterations_eq

theorem Step.converged_eq (hg : g.WellFormed) (hr : r.Ready g) (h : Step g s r r') :
    r'.table.converged = r.table.converged := by
  obtain ⟨n, rest, effect, hv⟩ := h.visits hg hr
  rw [hv.table_eq]
  rfl

theorem Step.not_reached {strategy : Strategy} {b : Int} (h : Step g ⟨strategy, some b⟩ r r') :
    ¬ b ≤ r.table.iterations := by
  obtain ⟨bound, -, -⟩ := h
  exact of_decide_eq_false bound

theorem Step.length_visits (h : Step g s r r') : r'.visits.length = r.visits.length + 1 := by
  obtain ⟨-, -, -⟩ := h
  rfl

theorem Ready.finish (hr : r.Ready g) : r.finish.Ready g :=
  ⟨⟨hr.table.before, hr.table.after⟩, hr.inStep, hr.pending⟩

/-! ## Any number of rounds -/

theorem after_done (h : r.pending.size = 0) (k : Nat) : after g s k r = r.finish := by
  rw [after, go_done h]

theorem after_reached (hp : r.pending.size ≠ 0) (hb : s.reached r.table = true) (k : Nat) :
    after g s k r = r := by
  rw [after, go_reached hp hb]

theorem after_zero (hp : r.pending.size ≠ 0) : after g s 0 r = r := by
  cases hb : s.reached r.table with
  | true => exact after_reached hp hb 0
  | false => rw [after, go_zero hp hb]

theorem Step.after_succ (h : Step g s r r') (k : Nat) : after g s (k + 1) r = after g s k r' := by
  rw [after, h.go_succ, after]

theorem after_budget (g : Supergraph) (s : Settings) (noted : List Mismatch) (t : Table) :
    (resume g s noted t).run = after g s (visitBudget g t) (begin g noted t) := rfl

theorem after_add (hg : g.WellFormed) (i k : Nat) (hr : r.Ready g) :
    after g s (i + k) r = after g s k (after g s i r) := by
  induction i generalizing r with
  | zero =>
      by_cases hp : r.pending.size = 0
      · rw [after_done hp, after_done hp, after_done (r := r.finish) hp]
        rfl
      · rw [after_zero hp, Nat.zero_add]
  | succ i ih =>
      rcases progress hg hr s with hp | ⟨hp, hb⟩ | ⟨r', h⟩
      · rw [after_done hp, after_done hp, after_done (r := r.finish) hp]
        rfl
      · rw [after_reached hp hb, after_reached hp hb, after_reached hp hb]
      · rw [Nat.add_right_comm, h.after_succ, h.after_succ]
        exact ih (h.ready hg hr)

theorem after_keeps (hg : g.WellFormed) {P : Run → Prop}
    (hstep : ∀ {r r' : Run}, r.Ready g → Step g s r r' → P r → P r')
    (hfinish : ∀ {r : Run}, P r → P r.finish) (k : Nat) (hr : r.Ready g) (h0 : P r) :
    (after g s k r).Ready g ∧ P (after g s k r) := by
  induction k generalizing r with
  | zero =>
      by_cases hp : r.pending.size = 0
      · rw [after_done hp]
        exact ⟨hr.finish, hfinish h0⟩
      · rw [after_zero hp]
        exact ⟨hr, h0⟩
  | succ k ih =>
      rcases progress hg hr s with hp | ⟨hp, hb⟩ | ⟨r', h⟩
      · rw [after_done hp]
        exact ⟨hr.finish, hfinish h0⟩
      · rw [after_reached hp hb]
        exact ⟨hr, h0⟩
      · rw [h.after_succ]
        exact ih (h.ready hg hr) (hstep hr h h0)

theorem after_ready (hg : g.WellFormed) (k : Nat) (hr : r.Ready g) : (after g s k r).Ready g :=
  (after_keeps hg (P := fun _ => True) (fun _ _ _ => trivial) (fun _ => trivial) k hr trivial).1

theorem iterations_le_after (hg : g.WellFormed) (k : Nat) (hr : r.Ready g) :
    r.table.iterations ≤ (after g s k r).table.iterations := by
  refine (after_keeps hg (P := fun r₁ => r.table.iterations ≤ r₁.table.iterations) ?_ id k hr
    le_rfl).2
  intro r₁ r₂ hr₁ h hle
  have := h.iterations_eq hg hr₁
  omega

/-! ## Bounds -/

section Bounds

variable {strategy : Strategy} {b : Int}

/-- If the run without a bound ends within it, the run with the bound is the same. -/
theorem go_within (hg : g.WellFormed) (k : Nat) (hr : r.Ready g)
    (hend : (go g ⟨strategy, none⟩ k r).ending = .fixpoint)
    (hle : (go g ⟨strategy, none⟩ k r).run.table.iterations ≤ b) :
    go g ⟨strategy, some b⟩ k r = go g ⟨strategy, none⟩ k r := by
  induction k generalizing r with
  | zero =>
      by_cases hp : r.pending.size = 0
      · rw [go_done hp, go_done hp]
      · rw [go_zero hp rfl] at hend
        cases hend
  | succ k ih =>
      rcases progress hg hr ⟨strategy, none⟩ with hp | ⟨-, hb⟩ | ⟨r', h⟩
      · rw [go_done hp, go_done hp]
      · cases hb
      · rw [h.go_succ] at hend hle ⊢
        -- The counter has not come to its final value yet, so the bound allows this round.
        have hlater : r'.table.iterations ≤ (go g ⟨strategy, none⟩ k r').run.table.iterations :=
          iterations_le_after hg k (h.ready hg hr)
        have hiter := h.iterations_eq hg hr
        have hallow : (Settings.mk strategy (some b)).reached r.table = false := by
          rw [Settings.reached, decide_eq_false_iff_not]
          omega
        have hbounded : Step g ⟨strategy, some b⟩ r r' := h.rebound rfl hallow
        rw [hbounded.go_succ]
        exact ih (h.ready hg hr) hend hle

/-- If it ends beyond the bound, something is pending as long as the bound is not passed. -/
theorem size_pending_ne_of_beyond {k : Nat}
    (hlt : b < (go g ⟨strategy, none⟩ k r).run.table.iterations)
    (hp : r.pending.size ≠ 0 ∨ r.table.iterations ≤ b) : r.pending.size ≠ 0 := by
  intro hdone
  have hle := hp.resolve_left (not_not.mpr hdone)
  rw [go_done hdone] at hlt
  exact absurd hlt (not_lt.mpr hle)

/-- If it ends beyond the bound, the run with the bound is that run cut off where the counter comes
to the bound, or at once if the counter is there already. -/
theorem go_beyond (hg : g.WellFormed) (k : Nat) (hr : r.Ready g)
    (hend : (go g ⟨strategy, none⟩ k r).ending = .fixpoint)
    (hlt : b < (go g ⟨strategy, none⟩ k r).run.table.iterations)
    (hp : r.pending.size ≠ 0 ∨ r.table.iterations ≤ b) :
    ∃ v, ((r.table.iterations + v : Nat) : Int) = max (r.table.iterations : Int) b ∧
      (after g ⟨strategy, none⟩ v r).pending.size ≠ 0 ∧
      (after g ⟨strategy, none⟩ v r).table.converged = r.table.converged ∧
      (after g ⟨strategy, none⟩ v r).visits.length = r.visits.length + v ∧
      go g ⟨strategy, some b⟩ k r = ⟨after g ⟨strategy, none⟩ v r, .failed (.diverged
        (r.table.iterations + v) (after g ⟨strategy, none⟩ v r).pending.size)⟩ := by
  induction k generalizing r with
  | zero =>
      rw [go_zero (size_pending_ne_of_beyond hlt hp) rfl] at hend
      cases hend
  | succ k ih =>
      have hpending := size_pending_ne_of_beyond hlt hp
      rcases progress hg hr ⟨strategy, some b⟩ with hdone | ⟨-, hb⟩ | ⟨r', h⟩
      · exact absurd hdone hpending
      · have hle : b ≤ r.table.iterations := of_decide_eq_true hb
        refine ⟨0, ?_⟩
        rw [after_zero hpending, go_reached hpending hb]
        exact ⟨(max_eq_left hle).symm, hpending, rfl, rfl, rfl⟩
      · have hfree : Step g ⟨strategy, none⟩ r r' := h.rebound rfl rfl
        have hiter := h.iterations_eq hg hr
        have hvisits := h.length_visits
        have hconv := h.converged_eq hg hr
        have hlow : ¬ b ≤ r.table.iterations := h.not_reached
        rw [hfree.go_succ] at hend hlt
        obtain ⟨v, hv, hne, hc, hlen, hgo⟩ :=
          ih (h.ready hg hr) hend hlt (Or.inr (by omega))
        refine ⟨v + 1, ?_⟩
        rw [hfree.after_succ, h.go_succ, hgo]
        refine ⟨by omega, hne, hc.trans hconv, by omega, ?_⟩
        rw [hiter, Nat.add_right_comm, Nat.add_assoc]

end Bounds

end Run

/-! ## What a bound does -/

/-- What a bound `b` makes of the run that is `free` without it, and starts from the table `t`.
Nothing, if that run ends within the bound. Otherwise it stops that run when the counter comes to
the bound, with nodes still pending; the counter may be beyond the bound from the first, and then
there is no visit at all. -/
structure OnlyCutsOff (g : Supergraph) (strategy : Strategy) (noted : List Mismatch) (t : Table)
    (b : Int) (free bounded : Finished) : Prop where
  ends : free.ending = .fixpoint
  within : free.run.table.iterations ≤ b → bounded = free
  beyond : b < free.run.table.iterations →
    ∃ visits pending : Nat,
      ((t.iterations + visits : Nat) : Int) = max (t.iterations : Int) b ∧
      bounded.ending = .failed (.diverged (t.iterations + visits) pending) ∧
      1 ≤ pending ∧ pending ≤ g.nodes.length ∧
      bounded.run = (Run.begin g noted t).after g ⟨strategy, none⟩ visits ∧
      bounded.run.visits.length = visits ∧
      bounded.run.table.converged = false

theorem Run.Ready.size_pending_le {g : Supergraph} {r : Run} (hr : r.Ready g) :
    r.pending.size ≤ g.nodes.length := by
  rw [← Worklist.length_toList]
  exact (List.subperm_of_subset hr.inStep.nodup hr.pending).length_le

/-- A bound only cuts a run off, whatever complete table with 32-bit constants the run is resumed
from, and so it does when solving, which starts with the counter at zero. -/
theorem bound_only_cuts_off {p : Program} {names : List Text} {g : Supergraph}
    (h : Supergraph.build p names = .ok g) (hne : g.nodes ≠ []) (strategy : Strategy) (b : Int)
    (noted : List Mismatch) :
    (∀ t : Table, t.Ready g →
      OnlyCutsOff g strategy noted t b (resume g ⟨strategy, none⟩ noted t)
        (resume g ⟨strategy, some b⟩ noted t)) ∧
    OnlyCutsOff g strategy noted (.start g) b (solve g ⟨strategy, none⟩ noted)
      (solve g ⟨strategy, some b⟩ noted) ∧
    (Table.start g).iterations = 0 := by
  have hg := Supergraph.wellFormed_of_build h
  have hresume : ∀ t : Table, t.Ready g →
      OnlyCutsOff g strategy noted t b (resume g ⟨strategy, none⟩ noted t)
        (resume g ⟨strategy, some b⟩ noted t) := by
    intro t ht
    have hready := Run.begin_ready noted hg ht
    have hend : (resume g ⟨strategy, none⟩ noted t).ending = .fixpoint := by
      obtain ⟨r, -, hends⟩ := resume_ends hg ht ⟨strategy, none⟩ noted
      rw [hends.of_unbounded.2]
    have hpending : (Run.begin g noted t).pending.size ≠ 0 := by
      rw [Run.size_pending_begin noted hg]
      exact fun hzero => hne (List.length_eq_zero_iff.mp hzero)
    refine ⟨hend, fun hle => Run.go_within hg _ hready hend hle, fun hlt => ?_⟩
    obtain ⟨v, hv, hp, hc, hlen, hgo⟩ :=
      Run.go_beyond hg _ hready hend hlt (Or.inl hpending)
    have hafter := Run.after_ready (s := ⟨strategy, none⟩) hg v hready
    have hbounded : resume g ⟨strategy, some b⟩ noted t = _ := hgo
    refine ⟨v, _, hv, by rw [hbounded]; rfl, Nat.one_le_iff_ne_zero.mpr hp, hafter.size_pending_le,
      by rw [hbounded], ?_, ?_⟩
    · rw [hbounded, hlen]
      exact Nat.zero_add v
    · rw [hbounded, hc]
      rfl
  exact ⟨hresume, hresume _ (Table.start_ready hg), Table.start_iterations g⟩

/-- The sample takes 22 visits from the front. A bound of 22 changes nothing, and one of 21 stops
the run before the last visit. Where the counter is at 5, a negative bound stops a run at once. -/
theorem bound_only_cuts_off_sample :
    let stopped := (solve Sample.graph ⟨.fifo, some 5⟩ []).run.table
    Sample.graph.nodes ≠ [] ∧ stopped.Ready Sample.graph ∧
      solve Sample.graph ⟨.fifo, some 22⟩ [] = solve Sample.graph ⟨.fifo, none⟩ [] ∧
      (∃ pending, 1 ≤ pending ∧
        (solve Sample.graph ⟨.fifo, some 21⟩ []).ending = .failed (.diverged 21 pending)) ∧
      ∃ pending, 1 ≤ pending ∧
        (resume Sample.graph ⟨.lifo, some (-3)⟩ [] stopped).ending =
          .failed (.diverged 5 pending) := by
  intro stopped
  have hg := Supergraph.wellFormed_of_build Sample.build_eq
  have hne : Sample.graph.nodes ≠ [] := by decide +kernel
  have hready : stopped.Ready Sample.graph :=
    (Run.after_ready hg _ (Run.begin_ready [] hg (Table.start_ready hg))).table
  have hfree : (solve Sample.graph ⟨.fifo, none⟩ []).run.table.iterations = 22 := by
    decide +kernel
  have hcounter : stopped.iterations = 5 := by decide +kernel
  obtain ⟨-, hexact, -⟩ := bound_only_cuts_off Sample.build_eq hne .fifo 22 []
  obtain ⟨-, hshort, hzero⟩ := bound_only_cuts_off Sample.build_eq hne .fifo 21 []
  obtain ⟨hnegative, -⟩ := bound_only_cuts_off Sample.build_eq hne .lifo (-3) []
  refine ⟨hne, hready, hexact.within (by rw [hfree]; decide), ?_, ?_⟩
  · obtain ⟨visits, pending, hv, hend, hlow, -⟩ := hshort.beyond (by rw [hfree]; decide)
    rw [hzero, Nat.zero_add] at hv hend
    obtain rfl : visits = 21 := by omega
    exact ⟨pending, hlow, hend⟩
  · obtain ⟨visits, pending, hv, hend, hlow, -⟩ := (hnegative stopped hready).beyond (by omega)
    rw [hcounter] at hv hend
    obtain rfl : visits = 0 := by omega
    exact ⟨pending, hlow, hend⟩

end ConstFlow
