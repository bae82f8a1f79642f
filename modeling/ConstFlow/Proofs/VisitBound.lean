import Mathlib.Algebra.BigOperators.Ring.Finset
import Mathlib.Algebra.Order.BigOperators.Group.Finset
import ConstFlow.Proofs.Solutions

/-!
# How long runs last

Visits are paid for. A pending node has one visit paid; a visit that changes the fact after its node
has to pay for the successors, and does so out of the room that the facts of that node have left to
rise. `Run.potential` is what is paid and what can still be paid, and every visit lowers it
(`Visits.potential_lt`). How room is measured is a parameter, since two measures are needed:

- from **any** table (`Node.room`), the fact after a node may be anything, so a change of it says
  little. But the fact before the node rose, or the fact after it did not fit the fact before it,
  and that is so at most once. So the allowance of the solver is enough (`resume_ends`);
- from the **start** (`Node.roomAfter`), the fact after a node is never above the effect of the
  statement, so facts after nodes only rise. This gives the sharper bound of `solve_ends`.

Both count how far a fact can rise on a fixed set of variables, so first it is shown that a run
binds no others: the assignment that has `nac` for these variables everywhere covers the equations.
-/

namespace ConstFlow

/-! ## Ranks -/

namespace Value

/-- How high a value stands. -/
def rank : Value → Nat
  | unset => 0
  | const _ => 1
  | nac => 2

theorem rank_le_two (v : Value) : v.rank ≤ 2 := by cases v <;> simp [rank]

theorem rank_mono {v w : Value} (h : v ≤ w) : v.rank ≤ w.rank := by
  rcases le_iff.mp h with rfl | rfl | rfl
  · exact Nat.zero_le _
  · exact v.rank_le_two
  · exact le_rfl

theorem rank_lt {v w : Value} (h : v ≤ w) (hne : v ≠ w) : v.rank < w.rank := by
  rcases le_iff.mp h with rfl | rfl | rfl
  · cases w <;> simp_all [rank]
  · cases v <;> simp_all [rank]
  · exact absurd rfl hne

end Value

namespace Fact

/-- How high a fact stands, on some variables. -/
def rank (xs : Finset Var) (f : Fact) : Nat := ∑ x ∈ xs, (f.get x).rank

theorem rank_le (xs : Finset Var) (f : Fact) : f.rank xs ≤ 2 * xs.card := by
  have h := Finset.sum_le_card_nsmul xs _ 2 fun x _ => (f.get x).rank_le_two
  rwa [nsmul_eq_mul, Nat.cast_id, mul_comm] at h

theorem rank_mono (xs : Finset Var) {f g : Fact} (h : f.get ≤ g.get) : f.rank xs ≤ g.rank xs :=
  Finset.sum_le_sum fun x _ => Value.rank_mono (h x)

/-- A fact that rises, and binds none but these variables, rises on them. -/
theorem rank_lt {xs : Finset Var} {f g : Fact} (h : f.get ≤ g.get) (hne : f.get ≠ g.get)
    (hg : ∀ x, g.get x ≠ .unset → x ∈ xs) : f.rank xs < g.rank xs := by
  obtain ⟨x, hx⟩ := Function.ne_iff.mp hne
  have hbound : g.get x ≠ .unset := fun hu =>
    hx ((Value.eq_unset_of_le (hu ▸ h x)).trans hu.symm)
  exact Finset.sum_lt_sum (fun y _ => Value.rank_mono (h y))
    ⟨x, hg x hbound, Value.rank_lt (h x) hx⟩

end Fact

/-! ## Potentials -/

/-- Every edge leaves one node of the graph. -/
theorem Supergraph.WellFormed.sum_succs {g : Supergraph} (hg : g.WellFormed) :
    ∑ n ∈ g.nodes.toFinset, (g.succs n).length = g.edges.length := by
  have hcount : ∀ n, (g.succs n).length = (g.edges.map Edge.source : Multiset Node).count n := by
    intro n
    rw [Multiset.coe_count, List.count, List.countP_map, List.countP_eq_length_filter, succs,
      hg.indexed.out, List.length_map]
    rfl
  simp only [hcount]
  rw [Multiset.sum_count_eq_card, Multiset.coe_card, List.length_map]
  intro n hn
  obtain ⟨e, he, rfl⟩ := List.mem_map.mp (Multiset.mem_coe.mp hn)
  exact List.mem_toFinset.mpr (hg.source_mem e he)

namespace Run

/-- The pending visits, and those that changes may still bring about. The room that the two facts of
a node have left is how often the node can make its successors pending. -/
def potential (g : Supergraph) (room : Node → Fact → Fact → Nat) (r : Run) : Nat :=
  r.pending.size +
    ∑ n ∈ g.nodes.toFinset, (g.succs n).length * room n (r.table.inFact n) (r.table.outFact n)

variable {g : Supergraph} {r r' : Run} {room : Node → Fact → Fact → Nat}

/-- A visit lowers the potential, if a change takes some room from its node. -/
theorem Visits.potential_lt {n : Node} {rest : Worklist Node} {effect : Fact}
    (hv : Visits g r r' n rest effect)
    (hroom : room n (r'.table.inFact n) (r'.table.outFact n) +
        ((r.table.outFact n).copyChanges effect).toNat ≤
      room n (r.table.inFact n) (r.table.outFact n)) :
    r'.potential g room < r.potential g room := by
  have hsize := hv.size_pending
  have hn : n ∈ g.nodes.toFinset := List.mem_toFinset.mpr hv.node_mem
  have hothers : ∀ m ∈ g.nodes.toFinset.erase n,
      (g.succs m).length * room m (r'.table.inFact m) (r'.table.outFact m) =
        (g.succs m).length * room m (r.table.inFact m) (r.table.outFact m) := fun m hm => by
    have hne := Finset.ne_of_mem_erase hm
    rw [hv.inFact_of_ne hne, hv.outFact_of_ne hne]
  have hpay := Nat.mul_le_mul_left (g.succs n).length hroom
  unfold potential
  rw [← Finset.add_sum_erase _ _ hn, ← Finset.add_sum_erase _ _ hn,
    Finset.sum_congr rfl hothers, hv.pending_eq]
  split
  · -- A change: the successors become pending, and the room of `n` pays for them.
    rename_i hc
    have hadd : (rest.addAll (g.succs n)).size ≤ rest.size + (g.succs n).length :=
      rest.size_addAll.2
    rw [hc, Bool.toNat_true, Nat.mul_add, Nat.mul_one] at hpay
    omega
  · rename_i hc
    rw [Bool.not_eq_true] at hc
    rw [hc, Bool.toNat_false, Nat.add_zero] at hpay
    omega

theorem potential_le (hg : g.WellFormed) {k : Nat}
    (hroom : ∀ n before after, room n before after ≤ k) :
    r.potential g room ≤ r.pending.size + g.edges.length * k := by
  refine Nat.add_le_add_left ?_ _
  rw [← hg.sum_succs, Finset.sum_mul]
  exact Finset.sum_le_sum fun n _ => Nat.mul_le_mul_left _ (hroom n _ _)

end Run

/-! ## The variables of a run -/

/-- The parameters of methods and the targets of statements are all among some variables. -/
structure Supergraph.ScopedBy (g : Supergraph) (xs : List Var) : Prop where
  params : ∀ m ∈ g.methods, ∀ x ∈ m.params, x ∈ xs
  targets : ∀ n ∈ g.nodes, ∀ x, n.action.target? = some x → x ∈ xs

/-- Everywhere, some variables may be anything. -/
def Facts.nacOn (xs : List Var) : Facts := ⟨fun _ => .nacOn xs, fun _ => .nacOn xs⟩

/-- No run leaves such a set of variables. -/
theorem Facts.nacOn_covers {g : Supergraph} (hg : g.WellFormed) {xs : List Var}
    (hxs : g.ScopedBy xs) : (Facts.nacOn xs).Covers g := by
  refine ⟨fun n _ => ?_, fun e he => ?_, fun n hn => ?_⟩
  · rcases g.boundary_cases n with ⟨m, hm, -, h⟩ | h
    · rw [h]
      refine Fact.le_nacOn_iff.mpr fun x hx => hxs.params m (hg.entry_mem m hm) x ?_
      exact Fact.le_nacOn_iff.mp (le_refl (Fact.nacOn m.params).get) x hx
    · rw [h]
      exact Fact.empty_le _
  · refine Fact.le_nacOn_iff.mpr fun x hx => ?_
    rcases Edge.mem_of_carry hx with ⟨-, h⟩ | ⟨callee, hk, hx⟩ | ⟨site, callee, hk, hx⟩
    · exact Fact.le_nacOn_iff.mp le_rfl x h
    · exact hxs.params callee (hg.callee_mem e he callee hk) x hx
    · exact hxs.targets site (hg.site_mem e he site callee hk) x hx
  · obtain ⟨f, hf, -⟩ := n.action.exists_localEffect (Fact.nacOn_inRange xs)
    refine ⟨f, hf, Fact.le_nacOn_iff.mpr fun x hx => ?_⟩
    rcases Action.mem_of_localEffect hf hx with h | h
    · exact Fact.le_nacOn_iff.mp le_rfl x h
    · exact hxs.targets n hn x h

/-! ## The allowance is enough -/

/-- Whether recomputing the fact after a node would change it. -/
def Node.stale (n : Node) (before after : Fact) : Bool :=
  match n.action.localEffect before with
  | some effect => after.copyChanges effect
  | none => true

/-- How often the fact after a node may still change: once if it is stale, and once whenever the
fact before it rises. -/
def Node.room (xs : Finset Var) (n : Node) (before after : Fact) : Nat :=
  (n.stale before after).toNat + (2 * xs.card - before.rank xs)

theorem Node.room_le (xs : Finset Var) (n : Node) (before after : Fact) :
    n.room xs before after ≤ 1 + 2 * xs.card :=
  Nat.add_le_add (Bool.toNat_le _) (Nat.sub_le _ _)

namespace Run

variable {g : Supergraph} {s : Settings} {r r' : Run}

/-- A visit that changes the fact after its node takes some of the room. -/
theorem Visits.room_le (hg : g.WellFormed) (hr : r.Ready g) {n : Node} {rest : Worklist Node}
    {effect : Fact} (hv : Visits g r r' n rest effect) {xs : Finset Var}
    (hxs : ∀ x, (r'.table.inFact n).get x ≠ .unset → x ∈ xs) :
    n.room xs (r'.table.inFact n) (r'.table.outFact n) +
        ((r.table.outFact n).copyChanges effect).toNat ≤
      n.room xs (r.table.inFact n) (r.table.outFact n) := by
  have hfresh : n.stale (r'.table.inFact n) (r'.table.outFact n) = false := by
    rw [hv.inFact_self, hv.outFact_self, Node.stale, hv.effect_eq]
    exact Fact.copyChanges_copyFrom _ _
  have hle := hv.le_inFact hg hr n
  unfold Node.room
  rw [hfresh, Bool.toNat_false]
  by_cases heq : (r'.table.inFact n).get = (r.table.inFact n).get
  · -- The fact before the node says what it said, so there is a change only if it was stale.
    have hstale : n.stale (r.table.inFact n) (r.table.outFact n) =
        (r.table.outFact n).copyChanges effect := by
      obtain ⟨old, hold, hget⟩ := Action.localEffect_congr heq (hv.inFact_self ▸ hv.effect_eq)
      rw [Node.stale, hold]
      exact Fact.copyChanges_congr hget _
    have hrank := Fact.rank_mono xs hle
    rw [hstale]
    omega
  · have hrise := Fact.rank_lt hle (Ne.symm heq) hxs
    have htop := Fact.rank_le xs (r'.table.inFact n)
    have hone := Bool.toNat_le ((r.table.outFact n).copyChanges effect)
    omega

/-- Where a run from a table begins: every node is pending. -/
def begin (g : Supergraph) (noted : List Mismatch) (t : Table) : Run :=
  ⟨{ t with converged := false }, .ofList g.nodes, [], noted⟩

section Begin

variable {t : Table} (noted : List Mismatch) (hg : g.WellFormed)
include hg

theorem toList_pending_begin : (begin g noted t).pending.toList = g.nodes :=
  Worklist.toList_ofList hg.nodup

theorem size_pending_begin : (begin g noted t).pending.size = g.nodes.length := by
  rw [← Worklist.length_toList, toList_pending_begin noted hg]

theorem mem_pending_begin : ∀ n ∈ g.nodes, n ∈ (begin g noted t).pending.toList := by
  rw [toList_pending_begin noted hg]
  exact fun n hn => hn

theorem begin_ready (ht : t.Ready g) : (begin g noted t).Ready g := by
  refine ⟨⟨ht.before, ht.after⟩, Worklist.inStep_ofList g.nodes, ?_⟩
  rw [toList_pending_begin noted hg]
  exact fun n hn => hn

end Begin

end Run

/-- A table binds the variables that it is said to bind. -/
theorem Table.below_nacOn (g : Supergraph) (t : Table) {xs : List Var}
    (hxs : ∀ x ∈ t.vars, x ∈ xs) : t.facts.Below g (.nacOn xs) := by
  have hvars : ∀ (n : Node) (f : Fact), (n, some f) ∈ t.before.entries ++ t.after.entries →
      f.get ≤ (Fact.nacOn xs).get := fun n f hmem => by
    refine Fact.le_nacOn_iff.mpr fun x hx => hxs x ?_
    exact List.mem_flatMap.mpr ⟨(n, some f), hmem, (f.mem_vars_iff x).mpr hx⟩
  refine Facts.below_iff.mpr fun n _ => ?_
  show (t.inFact n).get ≤ (Fact.nacOn xs).get ∧ (t.outFact n).get ≤ (Fact.nacOn xs).get
  refine ⟨?_, ?_⟩
  · cases hf : t.inFact? n with
    | none =>
        rw [inFact, hf]
        exact Fact.empty_le _
    | some f =>
        rw [inFact, hf]
        exact hvars n f (List.mem_append_left _
          ((t.before.mem_entries_iff n _).mpr (Option.join_eq_some_iff.mp hf)))
  · cases hf : t.outFact? n with
    | none =>
        rw [outFact, hf]
        exact Fact.empty_le _
    | some f =>
        rw [outFact, hf]
        exact hvars n f (List.mem_append_right _
          ((t.after.mem_entries_iff n _).mpr (Option.join_eq_some_iff.mp hf)))

/-- From a table that has all facts, a run goes on until nothing is pending or the bound is
reached. -/
theorem resume_ends {g : Supergraph} (hg : g.WellFormed) {t : Table} (ht : t.Ready g) (s : Settings)
    (noted : List Mismatch) :
    ∃ r, Run.Steps g s (.begin g noted t) r ∧ Run.Ends s r (resume g s noted t) := by
  have hscope : g.ScopedBy (runVars g t) := by
    refine ⟨fun m hm x hx => ?_, fun n hn x hx => ?_⟩
    · exact List.mem_append_left _ (List.mem_append_right _ (List.mem_flatMap.mpr ⟨m, hm, hx⟩))
    · exact List.mem_append_right _ (List.mem_filterMap.mpr ⟨n, hn, hx⟩)
  have hcovers := Facts.nacOn_covers hg hscope
  -- The invariant keeps facts on the variables by which room is measured.
  refine Run.go_ends hg
    (fun r => r.Ready g ∧ r.table.facts.Below g (.nacOn (runVars g t)))
    (Run.potential g (Node.room (runVars g t).toFinset)) (fun h => h.1) ?_ ?_ ?_
  · rintro r r' ⟨hr, hbelow⟩ hstep
    obtain ⟨n, rest, effect, hv⟩ := hstep.visits hg hr
    have hbelow' := hv.below hcovers hg hr hbelow
    refine ⟨⟨hv.ready hg hr, hbelow'⟩, hv.potential_lt (hv.room_le hg hr fun x hx => ?_)⟩
    exact List.mem_toFinset.mpr (Fact.le_nacOn_iff.mp (hbelow'.before hv.node_mem) x hx)
  · refine ⟨Run.begin_ready noted hg ht, Table.below_nacOn g _ fun x hx => ?_⟩
    exact List.mem_append_left _ (List.mem_append_left _ hx)
  · have hle := Run.potential_le (r := Run.begin g noted t) hg
      (Node.room_le (runVars g t).toFinset)
    have hcard := List.toFinset_card_le (runVars g t)
    rw [Run.size_pending_begin noted hg] at hle
    refine hle.trans (Nat.add_le_add_left (Nat.mul_le_mul_left _ ?_) _)
    omega

/-! ## From the start -/

/-- Facts after nodes are not above the effects of their statements. -/
def Table.Rising (g : Supergraph) (t : Table) : Prop :=
  ∀ n ∈ g.nodes, ∃ f, n.action.localEffect (t.inFact n) = some f ∧ (t.outFact n).get ≤ f.get

theorem Table.start_rising {g : Supergraph} (hg : g.WellFormed) : (start g).Rising g := by
  intro n hn
  rw [start_inFact hg hn, start_outFact hg hn]
  rcases g.boundary_cases n with ⟨m, -, rfl, -⟩ | h
  · exact ⟨_, rfl, le_rfl⟩
  · obtain ⟨f, hf, -⟩ := n.action.exists_localEffect (g.boundary_inRange n)
    refine ⟨f, hf, ?_⟩
    rw [h]
    exact Fact.empty_le _

/-- How often the fact after a node may still rise. -/
def Node.roomAfter (xs : Finset Var) (_ : Node) (_ after : Fact) : Nat :=
  2 * xs.card - after.rank xs

namespace Run

variable {g : Supergraph} {s : Settings} {r r' : Run}

section Rising

variable {n : Node} {rest : Worklist Node} {effect : Fact} (hg : g.WellFormed) (hr : r.Ready g)
  (hv : Visits g r r' n rest effect) (hrise : r.table.Rising g)
include hg hr hv hrise

/-- The effect is above the fact after the node, so it takes its place. -/
theorem Visits.outFact_eq_effect :
    (r.table.outFact n).get ≤ effect.get ∧ (r'.table.outFact n).get = effect.get := by
  obtain ⟨f, hf, hle⟩ := hrise n hv.node_mem
  have hup : (r.table.outFact n).get ≤ effect.get :=
    hle.trans (Action.localEffect_mono (le_gather hg hr.table n _) hf hv.effect_eq)
  rw [hv.outFact_self]
  exact ⟨hup, Fact.get_copyFrom_of_le hup⟩

theorem Visits.rising : r'.table.Rising g := by
  refine hv.forall_facts (P := fun m before after =>
    ∃ f, m.action.localEffect before = some f ∧ after.get ≤ f.get) ?_ fun m hm _ => hrise m hm
  refine ⟨effect, ?_, (hv.outFact_eq_effect hg hr hrise).2.le⟩
  rw [hv.inFact_self]
  exact hv.effect_eq

/-- A change of the fact after a node is a rise, and takes some of the room. -/
theorem Visits.roomAfter_le {xs : Finset Var}
    (hxs : ∀ x, (r'.table.outFact n).get x ≠ .unset → x ∈ xs) :
    n.roomAfter xs (r'.table.inFact n) (r'.table.outFact n) +
        ((r.table.outFact n).copyChanges effect).toNat ≤
      n.roomAfter xs (r.table.inFact n) (r.table.outFact n) := by
  obtain ⟨hup, heq⟩ := hv.outFact_eq_effect hg hr hrise
  have hle : (r.table.outFact n).get ≤ (r'.table.outFact n).get := heq ▸ hup
  unfold Node.roomAfter
  cases hc : (r.table.outFact n).copyChanges effect with
  | false =>
      have hrank := Fact.rank_mono xs hle
      rw [Bool.toNat_false]
      omega
  | true =>
      obtain ⟨x, -, hx⟩ := Fact.copyChanges_iff.mp hc
      have hne : (r.table.outFact n).get ≠ (r'.table.outFact n).get := fun h =>
        hx (heq ▸ congrFun h x)
      have hrank := Fact.rank_lt hle hne hxs
      have htop := Fact.rank_le xs (r'.table.outFact n)
      rw [Bool.toNat_true]
      omega

end Rising

/-- Visits that were made and visits that are pending, together, never get fewer. -/
theorem Visits.iterations_add_pending {n : Node} {rest : Worklist Node} {effect : Fact}
    (hv : Visits g r r' n rest effect) :
    r.table.iterations + r.pending.size ≤ r'.table.iterations + r'.pending.size := by
  have hiter := hv.iterations_eq
  have hsize := hv.size_pending
  rw [hv.pending_eq]
  split
  · have hadd : rest.size ≤ (rest.addAll (g.succs n)).size := rest.size_addAll.1
    omega
  · omega

end Run

/-! ## Bounds for solving -/

/-- The variables of a method: its parameters, and what its statements assign and read. -/
def Method.vars (m : Method) : List Var :=
  m.params ++ m.body.flatMap fun s => s.action.target?.toList ++ s.action.uses

/-- The variables that occur in the methods of a graph. -/
def Supergraph.vars (g : Supergraph) : List Var := g.methods.flatMap Method.vars

theorem Supergraph.Built.scopedBy_vars {p : Program} {g : Supergraph} (hg : Built p g) :
    g.ScopedBy g.vars := by
  refine ⟨fun m hm x hx => ?_, fun n hn x hx => ?_⟩
  · exact List.mem_flatMap.mpr ⟨m, hm, List.mem_append_left _ hx⟩
  · obtain ⟨m, hm, hnm⟩ := hg.mem_nodes_iff.mp hn
    refine List.mem_flatMap.mpr ⟨m, hm, List.mem_append_right _ ?_⟩
    rcases Method.mem_nodes_iff.mp hnm with rfl | hnm | rfl
    · cases hx
    · obtain ⟨i, st, hst, rfl⟩ := Method.mem_stmtNodes_iff.mp hnm
      refine List.mem_flatMap.mpr ⟨st, List.mem_of_getElem? hst, List.mem_append_left _ ?_⟩
      rw [show st.action.target? = some x from hx]
      exact List.mem_singleton_self x
    · cases hx

/-- A bound on the visits of solving, from the sizes of a graph. -/
def Supergraph.visitBound (g : Supergraph) : Nat :=
  g.nodes.length + 2 * g.vars.toFinset.card * g.edges.length

/-- However far solving has come, each node was visited or is pending, and visits made and pending
do not exceed the bound. -/
theorem solve_ends {p : Program} {g : Supergraph} (hb : Supergraph.Built p g) (s : Settings)
    (noted : List Mismatch) :
    ∃ r, Run.Steps g s (.begin g noted (.start g)) r ∧ Run.Ends s r (solve g s noted) ∧
      g.nodes.length ≤ r.table.iterations + r.pending.size ∧
      r.table.iterations + r.pending.size ≤ g.visitBound := by
  have hg := hb.wellFormed
  have hcovers := Facts.nacOn_covers hg hb.scopedBy_vars
  let room := Node.roomAfter g.vars.toFinset
  obtain ⟨r, hsteps, hends⟩ := resume_ends hg (Table.start_ready hg) s noted
  have hready := Run.begin_ready noted hg (Table.start_ready hg)
  have hzero : (Run.begin g noted (.start g)).table.iterations = 0 := Table.start_iterations g
  have hlow : g.nodes.length ≤ r.table.iterations + r.pending.size := by
    refine (hsteps.keeps hg (P := fun r => g.nodes.length ≤ r.table.iterations + r.pending.size)
      (fun _ hv h => h.trans hv.iterations_add_pending) hready ?_).2
    rw [hzero, Run.size_pending_begin noted hg, Nat.zero_add]
  have hhigh : r.table.iterations + r.potential g room ≤ g.visitBound := by
    refine (hsteps.keeps hg (P := fun r =>
      r.table.Rising g ∧ r.table.facts.Below g (.nacOn g.vars) ∧
        r.table.iterations + r.potential g room ≤ g.visitBound) ?_ hready ?_).2.2.2
    · rintro r r' n rest effect hr hv ⟨hrise, hbelow, hle⟩
      have hbelow' := hv.below hcovers hg hr hbelow
      have hiter := hv.iterations_eq
      have hlt : r'.potential g room < r.potential g room :=
        hv.potential_lt (hv.roomAfter_le hg hr hrise fun x hx => List.mem_toFinset.mpr
          (Fact.le_nacOn_iff.mp (hbelow'.after hv.node_mem) x hx))
      exact ⟨hv.rising hg hr hrise, hbelow', by omega⟩
    · refine ⟨Table.start_rising hg, Table.start_below hg hcovers, ?_⟩
      have hle : (Run.begin g noted (.start g)).potential g room ≤ _ :=
        Run.potential_le hg fun _ _ _ => Nat.sub_le (2 * g.vars.toFinset.card) _
      rw [Run.size_pending_begin noted hg, Nat.mul_comm] at hle
      rw [hzero, Nat.zero_add]
      exact hle
  refine ⟨r, hsteps, hends, hlow, le_trans (Nat.add_le_add_left ?_ _) hhigh⟩
  exact Nat.le_add_right _ _

/-- Without a bound, a run ends with nothing pending. -/
theorem Run.Ends.of_unbounded {strategy : Strategy} {r : Run} {f : Finished}
    (h : Run.Ends ⟨strategy, none⟩ r f) :
    r.pending.size = 0 ∧
      f = ⟨{ r with table := { r.table with converged := true } }, .fixpoint⟩ := by
  cases h with
  | fixpoint done => exact ⟨done, rfl⟩
  | stopped _ bound => cases bound

/-- Solving visits every node, and makes no more visits than the sizes of the graph allow. A bound
that allows as many does not stop it. -/
theorem solve_visits_bounded {p : Program} {names : List Text} {g : Supergraph}
    (h : Supergraph.build p names = .ok g) (strategy : Strategy) (noted : List Mismatch) :
    ((solve g ⟨strategy, none⟩ noted).ending = .fixpoint ∧
      g.nodes.length ≤ (solve g ⟨strategy, none⟩ noted).run.table.iterations ∧
      (solve g ⟨strategy, none⟩ noted).run.table.iterations ≤
        g.nodes.length + 2 * g.vars.toFinset.card * g.edges.length) ∧
    ∀ b : Int, (g.nodes.length + 2 * g.vars.toFinset.card * g.edges.length : Nat) ≤ b →
      (solve g ⟨strategy, some b⟩ noted).ending = .fixpoint := by
  have hb := Supergraph.built_of_build h
  refine ⟨?_, fun b hle => ?_⟩
  · obtain ⟨r, -, hends, hlow, hhigh⟩ := solve_ends hb ⟨strategy, none⟩ noted
    obtain ⟨hdone, hf⟩ := hends.of_unbounded
    rw [hf]
    rw [hdone] at hlow hhigh
    exact ⟨rfl, hlow, hhigh⟩
  · obtain ⟨r, -, hends, -, hhigh⟩ := solve_ends hb ⟨strategy, some b⟩ noted
    generalize solve g ⟨strategy, some b⟩ noted = f at hends
    cases hends with
    | fixpoint done => rfl
    | stopped pending bound =>
        -- A node is pending, so the visits made are fewer than the bound on visits.
        have hreached : b ≤ r.table.iterations := of_decide_eq_true bound
        have hmade : r.table.iterations + r.pending.size ≤
            g.nodes.length + 2 * g.vars.toFinset.card * g.edges.length := hhigh
        omega

theorem solve_visits_bounded_sample :
    Supergraph.build Sample.program ["main"] = .ok Sample.graph ∧
      (solve Sample.graph ⟨.lifo, none⟩ []).ending = .fixpoint ∧
      12 ≤ (solve Sample.graph ⟨.lifo, none⟩ []).run.table.iterations ∧
      (solve Sample.graph ⟨.lifo, none⟩ []).run.table.iterations ≤ 12 + 2 * 4 * 16 ∧
      (solve Sample.graph ⟨.lifo, some 140⟩ []).ending = .fixpoint := by
  have h := solve_visits_bounded Sample.build_eq .lifo []
  have hnodes : Sample.graph.nodes.length = 12 := by decide +kernel
  have hedges : Sample.graph.edges.length = 16 := by decide +kernel
  have hvars : Sample.graph.vars.toFinset.card = 4 := by decide +kernel
  rw [hnodes, hedges, hvars] at h
  exact ⟨Sample.build_eq, h.1.1, h.1.2.1, h.1.2.2, h.2 140 (by decide)⟩

end ConstFlow
