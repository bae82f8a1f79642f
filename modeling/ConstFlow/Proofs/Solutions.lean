import ConstFlow.Proofs.SolverRuns

/-!
# Solutions of the dataflow equations

The equations say of every node that the fact before it is the boundary combined with everything
its incoming edges carry, and that the fact after it is what its statement makes of the fact before
it. `Facts.Solves` is that, where facts are equal if they say the same. `Facts.Covers` has `≤` for
both equalities, and is all that runs are compared with:

- **below** (`Run.Steps.below`): a run that starts below an assignment that covers the equations
  stays below it. Here transfer functions have to be monotone. Facts after nodes may fall on the
  way, when the start has them too high for the facts before, but never rise above;
- **above** (`Run.Steps.covers`): when nothing is pending any more, the table covers the equations.
  The invariant is that a node that is not pending is settled: its fact is above all that its edges
  carry, and the fact after it is above the effect. A fact after a node that changes makes pending
  just the nodes for which this may fail.

So a run from below ends at the least assignment that covers the equations, and the least one of
these is a solution (`Facts.solves_of_least`): putting it through the equations once gives another
assignment that covers them and is below the first.
-/

namespace ConstFlow

/-! ## Equations -/

/-- What is known before a node from the start: parameters of entry methods may be anything. -/
def Supergraph.boundary (g : Supergraph) (n : Node) : Fact :=
  match g.entryMethods.find? fun m => m.entry = n with
  | some m => .boundary m
  | none => .empty

/-- The fact after a node, recomputed from the fact before it as if nothing had been there. -/
def Node.transfer? (n : Node) (f : Fact) : Option Fact :=
  match recompute n f (some .empty) with
  | .ok (some out, _) => some out
  | _ => none

/-- Facts before and after every node. -/
structure Facts where
  before : Node → Fact
  after : Node → Fact

/-- The facts of a table. -/
def Table.facts (t : Table) : Facts := ⟨t.inFact, t.outFact⟩

namespace Facts

/-- The boundary and everything that incoming edges carry, combined. -/
def inflow (g : Supergraph) (a : Facts) (n : Node) : Fact :=
  (g.inEdges n).foldl (fun f e => f.meet (e.carry (some (a.after e.source)))) (g.boundary n)

/-- Both equations hold at every node. -/
structure Solves (g : Supergraph) (a : Facts) : Prop where
  before : ∀ n ∈ g.nodes, (a.before n).agrees (a.inflow g n) = true
  after : ∀ n ∈ g.nodes, ∃ f, n.transfer? (a.before n) = some f ∧ (a.after n).agrees f = true

/-- At every node, one assignment is below another. -/
def Below (g : Supergraph) (a b : Facts) : Prop :=
  ∀ n ∈ g.nodes, (a.before n).leq (b.before n) = true ∧ (a.after n).leq (b.after n) = true

/-- At every node, two assignments say the same. -/
def Same (g : Supergraph) (a b : Facts) : Prop :=
  ∀ n ∈ g.nodes, (a.before n).agrees (b.before n) = true ∧ (a.after n).agrees (b.after n) = true

/-- The equations with "at least" for "equal". -/
structure Covers (g : Supergraph) (a : Facts) : Prop where
  boundary : ∀ n ∈ g.nodes, (g.boundary n).get ≤ (a.before n).get
  flow : ∀ e ∈ g.edges, (e.carry (some (a.after e.source))).get ≤ (a.before e.target).get
  effect : ∀ n ∈ g.nodes, ∃ f, n.action.localEffect (a.before n) = some f ∧
    f.get ≤ (a.after n).get

variable {g : Supergraph} {a b : Facts}

theorem below_iff : Below g a b ↔ ∀ n ∈ g.nodes,
    (a.before n).get ≤ (b.before n).get ∧ (a.after n).get ≤ (b.after n).get :=
  forall₂_congr fun _ _ => and_congr Fact.leq_iff Fact.leq_iff

theorem same_iff : Same g a b ↔ ∀ n ∈ g.nodes,
    (a.before n).get = (b.before n).get ∧ (a.after n).get = (b.after n).get :=
  forall₂_congr fun _ _ => and_congr Fact.agrees_iff Fact.agrees_iff

theorem Below.before (h : Below g a b) {n : Node} (hn : n ∈ g.nodes) :
    (a.before n).get ≤ (b.before n).get := (below_iff.mp h n hn).1

theorem Below.after (h : Below g a b) {n : Node} (hn : n ∈ g.nodes) :
    (a.after n).get ≤ (b.after n).get := (below_iff.mp h n hn).2

theorem Same.before (h : Same g a b) {n : Node} (hn : n ∈ g.nodes) :
    (a.before n).get = (b.before n).get := (same_iff.mp h n hn).1

theorem Same.after (h : Same g a b) {n : Node} (hn : n ∈ g.nodes) :
    (a.after n).get = (b.after n).get := (same_iff.mp h n hn).2

theorem Same.refl (g : Supergraph) (a : Facts) : Same g a a :=
  same_iff.mpr fun _ _ => ⟨rfl, rfl⟩

theorem Same.below (h : Same g a b) : Below g a b :=
  below_iff.mpr fun _ hn => ⟨(h.before hn).le, (h.after hn).le⟩

theorem Below.trans {c : Facts} (hab : Below g a b) (hbc : Below g b c) : Below g a c :=
  below_iff.mpr fun _ hn =>
    ⟨(hab.before hn).trans (hbc.before hn), (hab.after hn).trans (hbc.after hn)⟩

theorem Below.antisymm (hab : Below g a b) (hba : Below g b a) : Same g a b :=
  same_iff.mpr fun _ hn =>
    ⟨le_antisymm (hab.before hn) (hba.before hn), le_antisymm (hab.after hn) (hba.after hn)⟩

theorem inflow_le_iff {n : Node} {φ : Var → Value} :
    (a.inflow g n).get ≤ φ ↔
      (g.boundary n).get ≤ φ ∧
        ∀ e ∈ g.inEdges n, (e.carry (some (a.after e.source))).get ≤ φ := by
  have heq : a.inflow g n =
      ((g.inEdges n).map fun e => e.carry (some (a.after e.source))).foldl Fact.meet
        (g.boundary n) := by
    rw [inflow, List.foldl_map]
  rw [heq, Fact.foldl_meet_le_iff, List.forall_mem_map]

theorem Covers.inflow_le (hg : g.WellFormed) (ha : a.Covers g) {n : Node} (hn : n ∈ g.nodes) :
    (a.inflow g n).get ≤ (a.before n).get := by
  refine inflow_le_iff.mpr ⟨ha.boundary n hn, fun e he => ?_⟩
  obtain ⟨hmem, rfl⟩ := hg.mem_inEdges_iff.mp he
  exact ha.flow e hmem

end Facts

/-- The boundary of a node is that of an entry method, or says nothing. -/
theorem Supergraph.boundary_cases (g : Supergraph) (n : Node) :
    (∃ m ∈ g.entryMethods, m.entry = n ∧ g.boundary n = .boundary m) ∨ g.boundary n = .empty := by
  unfold boundary
  split
  · rename_i m hm
    exact Or.inl ⟨m, List.mem_of_find?_eq_some hm, by simpa using List.find?_some hm, rfl⟩
  · exact Or.inr rfl

theorem Supergraph.boundary_inRange (g : Supergraph) (n : Node) : (g.boundary n).InRange := by
  rcases g.boundary_cases n with ⟨m, -, -, h⟩ | h
  · rw [h]
    exact Fact.nacOn_inRange _
  · rw [h]
    exact Fact.inRange_empty

/-- An empty fact keeps nothing of its own, so recomputing over it gives the effect. -/
theorem Node.transfer?_eq {n : Node} {f effect : Fact}
    (h : n.action.localEffect f = some effect) :
    ∃ out, n.transfer? f = some out ∧ out.get = effect.get := by
  refine ⟨Fact.empty.copyFrom effect, ?_, Fact.get_copyFrom_of_le (Fact.empty_le _)⟩
  rw [transfer?, recompute_of_localEffect h]

theorem Node.localEffect_of_transfer? {n : Node} {f out : Fact} (h : n.transfer? f = some out) :
    ∃ effect, n.action.localEffect f = some effect ∧ effect.get = out.get := by
  cases he : n.action.localEffect f with
  | none =>
      rw [transfer?, recompute, he] at h
      cases h
  | some effect =>
      obtain ⟨out', ho, hget⟩ := Node.transfer?_eq he
      obtain rfl := Option.some.inj (h.symm.trans ho)
      exact ⟨effect, rfl, hget.symm⟩

/-- A solution covers the equations. -/
theorem Facts.Solves.covers {g : Supergraph} {a : Facts} (hg : g.WellFormed) (ha : a.Solves g) :
    a.Covers g := by
  have hin : ∀ n ∈ g.nodes, (a.before n).get = (a.inflow g n).get := fun n hn =>
    Fact.agrees_iff.mp (ha.before n hn)
  refine ⟨fun n hn => ?_, fun e he => ?_, fun n hn => ?_⟩
  · rw [hin n hn]
    exact (inflow_le_iff.mp le_rfl).1
  · rw [hin e.target (hg.target_mem e he)]
    exact (inflow_le_iff.mp le_rfl).2 e (hg.mem_inEdges_iff.mpr ⟨he, rfl⟩)
  · obtain ⟨out, ho, hout⟩ := ha.after n hn
    obtain ⟨effect, he, hget⟩ := Node.localEffect_of_transfer? ho
    exact ⟨effect, he, by rw [hget, Fact.agrees_iff.mp hout]⟩

/-- The least assignment that covers the equations solves them. -/
theorem Facts.solves_of_least {g : Supergraph} {a : Facts} (hg : g.WellFormed) (ha : a.Covers g)
    (hrange : ∀ n ∈ g.nodes, (a.after n).InRange) (hleast : ∀ b : Facts, b.Covers g → a.Below g b) :
    a.Solves g := by
  -- `b` is `a` put through the equations once.
  let b : Facts := ⟨a.inflow g, fun n => (n.action.localEffect (a.before n)).getD .empty⟩
  have hafter : ∀ {n effect}, n.action.localEffect (a.before n) = some effect →
      b.after n = effect := fun {n effect} h => by
    show (n.action.localEffect (a.before n)).getD .empty = effect
    rw [h]
    rfl
  have hb : b.Covers g := by
    refine ⟨fun n _ => (inflow_le_iff.mp le_rfl).1, fun e he => ?_, fun n hn => ?_⟩
    · obtain ⟨effect, hs, hle⟩ := ha.effect e.source (hg.source_mem e he)
      rw [hafter hs]
      exact (e.carry_mono hle).trans
        ((inflow_le_iff.mp le_rfl).2 e (hg.mem_inEdges_iff.mpr ⟨he, rfl⟩))
    · have hin : (a.inflow g n).InRange := by
        unfold inflow
        rw [← List.foldl_map (f := fun e : Edge => e.carry (some (a.after e.source)))]
        refine (g.boundary_inRange n).foldl_meet ?_
        simp only [List.mem_map]
        rintro _ ⟨e, he, rfl⟩
        exact e.carry_inRange
          (hrange _ (hg.source_mem e (hg.mem_inEdges_iff.mp he).1))
      obtain ⟨effect, hs, -⟩ := ha.effect n hn
      obtain ⟨effect', hs', -⟩ := n.action.exists_localEffect hin
      refine ⟨effect', hs', ?_⟩
      rw [hafter hs]
      exact Action.localEffect_mono (ha.inflow_le hg hn) hs' hs
  have hab := hleast b hb
  refine ⟨fun n hn => ?_, fun n hn => ?_⟩
  · exact Fact.agrees_iff.mpr (le_antisymm (hab.before hn) (ha.inflow_le hg hn))
  · obtain ⟨effect, hs, hle⟩ := ha.effect n hn
    obtain ⟨out, ho, hget⟩ := Node.transfer?_eq hs
    refine ⟨out, ho, Fact.agrees_iff.mpr ?_⟩
    rw [hget]
    exact le_antisymm (hafter hs ▸ hab.after hn) hle

/-! ## Staying below -/

namespace Run

variable {g : Supergraph} {s : Settings} {r r' : Run}

/-- A visit does not lift a run above an assignment that covers the equations. -/
theorem Visits.below {a : Facts} (ha : a.Covers g) (hg : g.WellFormed) (hr : r.Ready g) {n : Node}
    {rest : Worklist Node} {effect : Fact} (hv : Visits g r r' n rest effect)
    (h : r.table.facts.Below g a) : r'.table.facts.Below g a := by
  have hin : (gather g r.table n (r.table.inFact n)).get ≤ (a.before n).get := by
    refine (gather_le_iff hg hr.table).mpr ⟨h.before hv.node_mem, fun e he => ?_⟩
    obtain ⟨hmem, rfl⟩ := hg.mem_inEdges_iff.mp he
    exact (e.carry_mono (h.after (hg.source_mem e hmem))).trans (ha.flow e hmem)
  refine Facts.below_iff.mpr (hv.forall_facts (P := fun m before after =>
    before.get ≤ (a.before m).get ∧ after.get ≤ (a.after m).get) ?_ fun m hm _ =>
    ⟨h.before hm, h.after hm⟩)
  rw [hv.inFact_self, hv.outFact_self]
  obtain ⟨effect', hs, hle⟩ := ha.effect n hv.node_mem
  exact ⟨hin, Fact.copyFrom_le (h.after hv.node_mem)
    ((Action.localEffect_mono hin hv.effect_eq hs).trans hle)⟩

theorem Steps.below {a : Facts} (ha : a.Covers g) (hg : g.WellFormed) (hr : r.Ready g)
    (h : Steps g s r r') (h0 : r.table.facts.Below g a) : r'.table.facts.Below g a :=
  (h.keeps hg (fun hr hv hb => hv.below ha hg hr hb) hr h0).2

end Run

/-! ## Ending above -/

/-- The fact before a node is above all that its edges carry, and the fact after it is above the
effect of its statement. -/
structure Table.Settled (g : Supergraph) (t : Table) (n : Node) : Prop where
  flow : ∀ e ∈ g.inEdges n, (e.carry (some (t.outFact e.source))).get ≤ (t.inFact n).get
  effect : ∃ f, n.action.localEffect (t.inFact n) = some f ∧ f.get ≤ (t.outFact n).get

namespace Run

/-- Every node is pending or settled. -/
def Consistent (g : Supergraph) (r : Run) : Prop :=
  ∀ n ∈ g.nodes, n ∈ r.pending.toList ∨ r.table.Settled g n

variable {g : Supergraph} {s : Settings} {r r' : Run}

namespace Visits

variable {n : Node} {rest : Worklist Node} {effect : Fact} (hv : Visits g r r' n rest effect)
include hv

/-- If a node is not pending after a visit, nothing has changed at the sources of its edges. -/
theorem outFact_source (hg : g.WellFormed) {m : Node} (hm : m ∉ r'.pending.toList) {e : Edge}
    (he : e ∈ g.inEdges m) :
    (r'.table.outFact e.source).get = (r.table.outFact e.source).get := by
  by_cases hs : e.source = n
  · have hsucc : m ∈ g.succs n := by
      obtain ⟨hmem, htarget⟩ := hg.mem_inEdges_iff.mp he
      exact hg.mem_succs_iff.mpr ⟨e, hmem, hs, htarget⟩
    have hc : (r.table.outFact n).copyChanges effect = false := by
      rw [← Bool.not_eq_true]
      exact fun hc => hm (hv.succs_pending hc hsucc)
    rw [hs, hv.outFact_self, Fact.get_copyFrom_of_unchanged hc]
  · rw [hv.outFact_of_ne hs]

theorem consistent (hg : g.WellFormed) (hr : r.Ready g) (h : r.Consistent g) :
    r'.Consistent g := by
  intro m hm
  by_cases hp : m ∈ r'.pending.toList
  · exact Or.inl hp
  refine Or.inr ?_
  by_cases hmn : m = n
  · subst hmn
    refine ⟨fun e he => ?_, effect, ?_, ?_⟩
    · rw [e.carry_congr (hv.outFact_source hg hp he), hv.inFact_self]
      exact carry_le_gather hg hr.table _ he
    · rw [hv.inFact_self]
      exact hv.effect_eq
    · rw [hv.outFact_self]
      exact Fact.le_copyFrom _ _
  · -- `m` was not pending before the visit either, so it was settled then.
    have hold : m ∉ r.pending.toList := fun hmem => by
      rcases List.mem_cons.mp (hv.popped.mem_iff.mp hmem) with h | h
      · exact hmn h
      · exact hp (hv.mem_pending h)
    have hset := (h m hm).resolve_left hold
    refine ⟨fun e he => ?_, ?_⟩
    · rw [e.carry_congr (hv.outFact_source hg hp he), hv.inFact_of_ne hmn]
      exact hset.flow e he
    · rw [hv.inFact_of_ne hmn, hv.outFact_of_ne hmn]
      exact hset.effect

/-- Facts before nodes stay above the boundary. -/
theorem boundary_le (hg : g.WellFormed) (hr : r.Ready g)
    (h : ∀ n ∈ g.nodes, (g.boundary n).get ≤ (r.table.inFact n).get) :
    ∀ n ∈ g.nodes, (g.boundary n).get ≤ (r'.table.inFact n).get := fun m hm =>
  (h m hm).trans (hv.le_inFact hg hr m)

end Visits

/-- When nothing is pending, the table covers the equations. -/
theorem Steps.covers (hg : g.WellFormed) (hr : r.Ready g) (h : Steps g s r r')
    (hall : ∀ n ∈ g.nodes, n ∈ r.pending.toList)
    (hbound : ∀ n ∈ g.nodes, (g.boundary n).get ≤ (r.table.inFact n).get)
    (hdone : r'.pending.size = 0) : r'.table.facts.Covers g := by
  have hcons : r'.Consistent g :=
    (h.keeps hg (fun hr hv hc => hv.consistent hg hr hc) hr fun n hn => Or.inl (hall n hn)).2
  have hbound' := (h.keeps hg (fun hr hv hb => hv.boundary_le hg hr hb) hr hbound).2
  have hnil : r'.pending.toList = [] := by
    rw [← List.length_eq_zero_iff, Worklist.length_toList, hdone]
  have hset : ∀ n ∈ g.nodes, r'.table.Settled g n := fun n hn =>
    (hcons n hn).resolve_left (hnil ▸ List.not_mem_nil)
  refine ⟨hbound', fun e he => ?_, fun n hn => (hset n hn).effect⟩
  exact (hset e.target (hg.target_mem e he)).flow e (hg.mem_inEdges_iff.mpr ⟨he, rfl⟩)

end Run

/-! ## The start -/

namespace Supergraph

theorem boundary_entry {g : Supergraph} (hg : g.WellFormed) {m : Method}
    (hm : m ∈ g.entryMethods) : g.boundary m.entry = .boundary m := by
  unfold boundary
  split
  · rename_i c hc
    have hce : c.entry = m.entry := by simpa using List.find?_some hc
    rw [hg.entry_inj c (List.mem_of_find?_eq_some hc) m hm hce]
  · rename_i hnone
    exact absurd (decide_eq_true rfl) (List.find?_eq_none.mp hnone m hm)

end Supergraph

namespace Table

/-- Both facts of a node are the same one. -/
def HasBoth (t : Table) (n : Node) (f : Fact) : Prop :=
  t.inFact? n = some f ∧ t.outFact? n = some f

theorem hasBoth_setBoth_self (t : Table) (n : Node) (f : Fact) : (t.setBoth n f).HasBoth n f := by
  refine ⟨?_, ?_⟩
  · rw [setBoth, inFact?_setOut, inFact?_setIn, if_pos rfl]
  · rw [setBoth, outFact?_setOut, if_pos rfl]

theorem HasBoth.setBoth_of_ne {t : Table} {n m : Node} {f : Fact} (h : t.HasBoth n f) (k : Fact)
    (hne : n ≠ m) : (t.setBoth m k).HasBoth n f := by
  refine ⟨?_, ?_⟩
  · rw [setBoth, inFact?_setOut, inFact?_setIn, if_neg hne]
    exact h.1
  · rw [setBoth, outFact?_setOut, outFact?_setIn, if_neg hne]
    exact h.2

/-- Facts put at several nodes, where all that is put at `n` is `f`. -/
theorem hasBoth_foldl {ι : Type} {node : ι → Node} {fact : ι → Fact} {n : Node} {f : Fact}
    {is : List ι} {t : Table} (hf : ∀ i ∈ is, node i = n → fact i = f)
    (h : (∃ i ∈ is, node i = n) ∨ t.HasBoth n f) :
    (is.foldl (fun t i => t.setBoth (node i) (fact i)) t).HasBoth n f := by
  induction is generalizing t with
  | nil => exact h.resolve_left fun ⟨i, hi, _⟩ => absurd hi List.not_mem_nil
  | cons i is ih =>
      rw [List.forall_mem_cons] at hf
      refine ih hf.2 ?_
      by_cases hi : node i = n
      · refine Or.inr ?_
        show (t.setBoth (node i) (fact i)).HasBoth n f
        rw [hi, hf.1 hi]
        exact hasBoth_setBoth_self t n f
      · rcases h with ⟨j, hj, hjn⟩ | h
        · rcases List.mem_cons.mp hj with rfl | hj
          · exact absurd hjn hi
          · exact Or.inl ⟨j, hj, hjn⟩
        · exact Or.inr (h.setBoth_of_ne _ (Ne.symm hi))

/-- Boundaries are put at the entries of the entry methods that are in the graph. -/
theorem start_eq_filter (g : Supergraph) :
    start g = (g.entryMethods.filter fun m => decide (m ∈ g.methods)).foldl
      (fun t m => t.setBoth m.entry (.boundary m)) (clear g (empty analysisName)) := by
  have henter : ∀ (t : Table) (m : Method),
      enter g t m = if decide (m ∈ g.methods) then t.setBoth m.entry (.boundary m) else t := by
    intro t m
    unfold enter
    split
    · rename_i n hn
      obtain ⟨hm, rfl⟩ := g.entryOf_eq_ok_iff.mp hn
      rw [if_pos (decide_eq_true hm)]
    · rename_i e he
      have hm : m ∉ g.methods := fun hm => by
        cases he.symm.trans (g.entryOf_eq_ok_iff.mpr ⟨hm, rfl⟩)
      rw [decide_eq_false hm]
      rfl
  rw [List.foldl_filter, start]
  exact congrArg (fun f => g.entryMethods.foldl f _) (funext fun t => funext fun m => henter t m)

theorem start_eq {g : Supergraph} (hg : g.WellFormed) :
    start g = g.entryMethods.foldl (fun t m => t.setBoth m.entry (.boundary m))
      (clear g (empty analysisName)) := by
  rw [start_eq_filter, List.filter_eq_self.mpr fun m hm => decide_eq_true (hg.entry_mem m hm)]

/-- Solving starts from the boundary, before and after every node. -/
theorem start_hasBoth {g : Supergraph} (hg : g.WellFormed) {n : Node} (hn : n ∈ g.nodes) :
    (start g).HasBoth n (g.boundary n) := by
  rw [start_eq hg]
  refine hasBoth_foldl (fun m hm h => h ▸ (Supergraph.boundary_entry hg hm).symm) ?_
  rcases g.boundary_cases n with ⟨m, hm, hmn, -⟩ | h
  · exact Or.inl ⟨m, hm, hmn⟩
  · rw [h]
    exact Or.inr (hasBoth_foldl (fun _ _ _ => rfl) (Or.inl ⟨n, hn, rfl⟩))

theorem start_ready {g : Supergraph} (hg : g.WellFormed) : (start g).Ready g :=
  ⟨fun n hn => ⟨_, (start_hasBoth hg hn).1, g.boundary_inRange n⟩,
    fun n hn => ⟨_, (start_hasBoth hg hn).2, g.boundary_inRange n⟩⟩

theorem start_inFact {g : Supergraph} (hg : g.WellFormed) {n : Node} (hn : n ∈ g.nodes) :
    (start g).inFact n = g.boundary n := by
  rw [inFact, (start_hasBoth hg hn).1]
  rfl

theorem start_outFact {g : Supergraph} (hg : g.WellFormed) {n : Node} (hn : n ∈ g.nodes) :
    (start g).outFact n = g.boundary n := by
  rw [outFact, (start_hasBoth hg hn).2]
  rfl

theorem start_iterations (g : Supergraph) : (start g).iterations = 0 := by
  have hkeep : ∀ {ι : Type} {node : ι → Node} {fact : ι → Fact} (is : List ι) (t : Table),
      (is.foldl (fun t i => t.setBoth (node i) (fact i)) t).iterations = t.iterations := by
    intro ι node fact is
    induction is with
    | nil => exact fun t => rfl
    | cons i is ih => exact fun t => ih _
  rw [start_eq_filter, clear, hkeep, hkeep]
  rfl

/-- The entry of a method passes its fact on, so the start is below whatever covers the
equations, also after nodes. -/
theorem start_below {g : Supergraph} (hg : g.WellFormed) {a : Facts} (ha : a.Covers g) :
    (start g).facts.Below g a := by
  refine Facts.below_iff.mpr fun n hn => ?_
  show ((start g).inFact n).get ≤ _ ∧ ((start g).outFact n).get ≤ _
  rw [start_inFact hg hn, start_outFact hg hn]
  have hin := ha.boundary n hn
  refine ⟨hin, ?_⟩
  rcases g.boundary_cases n with ⟨m, -, rfl, -⟩ | h
  · obtain ⟨effect, he, hle⟩ := ha.effect m.entry hn
    obtain rfl : a.before m.entry = effect := Option.some.inj he
    exact hin.trans hle
  · rw [h]
    exact Fact.empty_le _

end Table

end ConstFlow
