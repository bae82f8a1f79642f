import Mathlib.Logic.Relation
import ConstFlow.Analysis.Solver
import ConstFlow.Proofs.GraphShape
import ConstFlow.Proofs.TransferOrder
import ConstFlow.Proofs.Worklists

/-!
# Runs of the solver

What one visit does, and how a run is made of visits.

On a table that has both facts for every node, with 32-bit constants (`Table.Ready`), a visit never
fails. `Run.Visits` says all that it does: it takes one node off the worklist, writes the two facts
of that node, and makes the successors pending if the fact after it changed. Every invariant of the
solver is proved from `Run.Visits` alone.

`Run.Step` is one round of the loop, `Run.Steps` any number of rounds. A ready run is at one of
three places (`Run.progress`): nothing is pending, the bound is reached, or there is another round.
Each has one equation for `Run.go`, and nothing else is used of the loop. `Run.go_ends` is for whole
runs: given a quantity that every round lowers and that starts within the allowance, a run is a
sequence of rounds that ends with nothing pending or at the bound. The allowance is then never what
stops it.
-/

namespace ConstFlow

/-! ## Tables -/

namespace Table

/-- The fact before a node; an absent fact reads as the empty one. -/
def inFact (t : Table) (n : Node) : Fact := (t.inFact? n).getD .empty

/-- The fact after a node; an absent fact reads as the empty one. -/
def outFact (t : Table) (n : Node) : Fact := (t.outFact? n).getD .empty

/-- The facts of a node written anew, and a visit counted. -/
def write (t : Table) (n : Node) (before after : Fact) : Table :=
  (({ t with iterations := t.iterations + 1 }).setIn n (some before)).setOut n (some after)

section Lookup

variable (t : Table) (n m : Node) (f : Option Fact)

theorem inFact?_setIn : (t.setIn n f).inFact? m = if m = n then f else t.inFact? m := by
  simp only [inFact?, setIn, Assoc.get?_set]
  split <;> rfl

theorem outFact?_setOut : (t.setOut n f).outFact? m = if m = n then f else t.outFact? m := by
  simp only [outFact?, setOut, Assoc.get?_set]
  split <;> rfl

theorem inFact?_setOut : (t.setOut n f).inFact? m = t.inFact? m := rfl

theorem outFact?_setIn : (t.setIn n f).outFact? m = t.outFact? m := rfl

variable (i o : Fact)

theorem inFact?_write :
    (t.write n i o).inFact? m = if m = n then some i else t.inFact? m := by
  rw [write, inFact?_setOut, inFact?_setIn]
  rfl

theorem outFact?_write :
    (t.write n i o).outFact? m = if m = n then some o else t.outFact? m := by
  rw [write, outFact?_setOut, outFact?_setIn]
  rfl

theorem inFact_write_self : (t.write n i o).inFact n = i := by
  rw [inFact, inFact?_write, if_pos rfl]
  rfl

theorem outFact_write_self : (t.write n i o).outFact n = o := by
  rw [outFact, outFact?_write, if_pos rfl]
  rfl

theorem inFact_write_of_ne {m n : Node} (h : m ≠ n) : (t.write n i o).inFact m = t.inFact m := by
  rw [inFact, inFact?_write, if_neg h]
  rfl

theorem outFact_write_of_ne {m n : Node} (h : m ≠ n) :
    (t.write n i o).outFact m = t.outFact m := by
  rw [outFact, outFact?_write, if_neg h]
  rfl

@[simp] theorem iterations_write : (t.write n i o).iterations = t.iterations + 1 := rfl

end Lookup

/-- Both facts of every node are there, and all constants are 32-bit integers. -/
structure Ready (g : Supergraph) (t : Table) : Prop where
  before : ∀ n ∈ g.nodes, ∃ f, t.inFact? n = some f ∧ f.InRange
  after : ∀ n ∈ g.nodes, ∃ f, t.outFact? n = some f ∧ f.InRange

namespace Ready

variable {g : Supergraph} {t : Table} (ht : t.Ready g) {n : Node} (hn : n ∈ g.nodes)
include ht hn

theorem inFact?_eq : t.inFact? n = some (t.inFact n) := by
  obtain ⟨f, hf, -⟩ := ht.before n hn
  rw [inFact, hf]
  rfl

theorem outFact?_eq : t.outFact? n = some (t.outFact n) := by
  obtain ⟨f, hf, -⟩ := ht.after n hn
  rw [outFact, hf]
  rfl

theorem inRange_inFact : (t.inFact n).InRange := by
  obtain ⟨f, hf, hr⟩ := ht.before n hn
  rw [inFact, hf]
  exact hr

theorem inRange_outFact : (t.outFact n).InRange := by
  obtain ⟨f, hf, hr⟩ := ht.after n hn
  rw [outFact, hf]
  exact hr

end Ready

theorem Ready.write {g : Supergraph} {t : Table} (ht : t.Ready g) {n : Node} {i o : Fact}
    (hi : i.InRange) (ho : o.InRange) : (t.write n i o).Ready g := by
  constructor
  · intro m hm
    rw [inFact?_write]
    split
    · exact ⟨i, rfl, hi⟩
    · exact ht.before m hm
  · intro m hm
    rw [outFact?_write]
    split
    · exact ⟨o, rfl, ho⟩
    · exact ht.after m hm

end Table

/-! ## Gathering -/

section Gather

variable {g : Supergraph} {t : Table}

theorem gather_eq (n : Node) (f : Fact) :
    gather g t n f =
      ((g.inEdges n).map fun e => e.carry (t.outFact? e.source)).foldl Fact.meet f := by
  rw [gather, List.foldl_map]

variable (hg : g.WellFormed) (ht : t.Ready g)
include hg ht

theorem outFact?_source {n : Node} {e : Edge} (he : e ∈ g.inEdges n) :
    t.outFact? e.source = some (t.outFact e.source) :=
  ht.outFact?_eq (hg.source_mem e (hg.mem_inEdges_iff.mp he).1)

/-- The gathered fact is the least one above the old fact and everything that edges carry. -/
theorem gather_le_iff {n : Node} {f : Fact} {φ : Var → Value} :
    (gather g t n f).get ≤ φ ↔
      f.get ≤ φ ∧ ∀ e ∈ g.inEdges n, (e.carry (some (t.outFact e.source))).get ≤ φ := by
  rw [gather_eq, Fact.foldl_meet_le_iff, List.forall_mem_map]
  refine and_congr_right fun _ => forall₂_congr fun e he => ?_
  rw [outFact?_source hg ht he]

theorem le_gather (n : Node) (f : Fact) : f.get ≤ (gather g t n f).get :=
  ((gather_le_iff hg ht).mp le_rfl).1

theorem carry_le_gather {n : Node} (f : Fact) {e : Edge} (he : e ∈ g.inEdges n) :
    (e.carry (some (t.outFact e.source))).get ≤ (gather g t n f).get :=
  ((gather_le_iff hg ht).mp le_rfl).2 e he

theorem gather_inRange {n : Node} {f : Fact} (hf : f.InRange) : (gather g t n f).InRange := by
  rw [gather_eq]
  refine hf.foldl_meet ?_
  simp only [List.mem_map]
  rintro _ ⟨e, he, rfl⟩
  rw [outFact?_source hg ht he]
  exact e.carry_inRange
    (ht.inRange_outFact (hg.source_mem e (hg.mem_inEdges_iff.mp he).1))

end Gather

/-! ## One visit -/

/-- What a visit of `n` makes of a run: `rest` is the worklist without `n`, and `effect` is what the
statement of `n` makes of the gathered fact. -/
structure Run.Visits (g : Supergraph) (r r' : Run) (n : Node) (rest : Worklist Node)
    (effect : Fact) : Prop where
  node_mem : n ∈ g.nodes
  popped : r.pending.toList.Perm (n :: rest.toList)
  rest_inStep : rest.InStep
  effect_eq : n.action.localEffect (gather g r.table n (r.table.inFact n)) = some effect
  table_eq : r'.table = r.table.write n (gather g r.table n (r.table.inFact n))
    ((r.table.outFact n).copyFrom effect)
  pending_eq : r'.pending =
    if (r.table.outFact n).copyChanges effect then rest.addAll (g.succs n) else rest

/-- A run at work: its table is ready, its worklist is in step, and nodes of the graph are
pending. -/
structure Run.Ready (g : Supergraph) (r : Run) : Prop where
  table : r.table.Ready g
  inStep : r.pending.InStep
  pending : ∀ n ∈ r.pending.toList, n ∈ g.nodes

theorem Run.Ready.mem_nodes_of_pop? {g : Supergraph} {r : Run} (hr : r.Ready g) {s : Strategy}
    {n : Node} {rest : Worklist Node} (h : r.pending.pop? s = some (n, rest)) : n ∈ g.nodes :=
  hr.pending n ((Worklist.perm_of_pop? h).mem_iff.mpr List.mem_cons_self)

theorem recompute_of_localEffect {n : Node} {f effect : Fact}
    (h : n.action.localEffect f = some effect) (out : Fact) :
    recompute n f (some out) =
      .ok (some (out.copyFrom effect), out.copyChanges effect) := by
  rw [recompute, h]
  rfl

/-- A visit writes the gathered fact, and what is recomputed from it. -/
theorem Table.visit_of_recompute {g : Supergraph} {t : Table} {n : Node} {f out : Fact}
    {changed : Bool} (hin : t.inFact? n = some f)
    (hrec : recompute n (gather g t n f) (t.outFact? n) = .ok (some out, changed)) :
    t.visit g n =
      ⟨t.write n (gather g t n f) out, .ok ⟨n, changed, gather g t n f, some out⟩⟩ := by
  have hin' : ({ t with iterations := t.iterations + 1 } : Table).inFact? n = some f := hin
  -- Counting the visit and writing the first fact leave the facts after nodes as they are.
  have hrec' : recompute n (gather g { t with iterations := t.iterations + 1 } n f)
      ((({ t with iterations := t.iterations + 1 } : Table).setIn n
        (some (gather g { t with iterations := t.iterations + 1 } n f))).outFact? n) =
      .ok (some out, changed) := hrec
  simp only [visit, hin', hrec']
  rfl

/-- On a ready table, a visit succeeds. -/
theorem Table.Ready.visit_eq {g : Supergraph} {t : Table} (hg : g.WellFormed) (ht : t.Ready g)
    {n : Node} (hn : n ∈ g.nodes) :
    ∃ effect, n.action.localEffect (gather g t n (t.inFact n)) = some effect ∧
      effect.InRange ∧
      t.visit g n =
        ⟨t.write n (gather g t n (t.inFact n)) ((t.outFact n).copyFrom effect),
          .ok ⟨n, (t.outFact n).copyChanges effect, gather g t n (t.inFact n),
            some ((t.outFact n).copyFrom effect)⟩⟩ := by
  obtain ⟨effect, he, hr⟩ :=
    n.action.exists_localEffect (gather_inRange hg ht (n := n) (ht.inRange_inFact hn))
  refine ⟨effect, he, hr, visit_of_recompute (ht.inFact?_eq hn) ?_⟩
  rw [ht.outFact?_eq hn]
  exact recompute_of_localEffect he _

namespace Run

/-- One round of the loop: the bound is not reached, and a pending node is visited. -/
inductive Step (g : Supergraph) (s : Settings) (r : Run) : Run → Prop where
  | visit {n : Node} {rest : Worklist Node} {v : Visit}
      (bound : s.reached r.table = false)
      (pop : r.pending.pop? s.strategy = some (n, rest))
      (visited : (r.table.visit g n).visit = .ok v) :
      Step g s r
        { table := (r.table.visit g n).table
          pending := if v.changed then rest.addAll (g.succs n) else rest
          visits := v :: r.visits
          noted := noteMismatches r.noted (mismatchesAt g r.table n) }

/-- Any number of rounds. -/
abbrev Steps (g : Supergraph) (s : Settings) : Run → Run → Prop :=
  Relation.ReflTransGen (Step g s)

variable {g : Supergraph} {s : Settings} {r r' : Run}

/-- A round is a visit, and notes it with the mismatches that it meets. -/
theorem Step.visited_noted (hg : g.WellFormed) (hr : r.Ready g) (h : Step g s r r') :
    ∃ n rest effect v, Visits g r r' n rest effect ∧ v.node = n ∧ r'.visits = v :: r.visits ∧
      r'.noted = noteMismatches r.noted (mismatchesAt g r.table n) := by
  obtain ⟨bound, pop, visited⟩ := h
  rename_i n rest v
  have hn := hr.mem_nodes_of_pop? pop
  obtain ⟨effect, he, -, hv⟩ := hr.table.visit_eq hg hn
  rw [hv] at visited
  obtain rfl := Except.ok.inj visited
  exact ⟨n, rest, effect, _,
    ⟨hn, Worklist.perm_of_pop? pop, hr.inStep.pop? pop, he, by rw [hv], rfl⟩, rfl, rfl, rfl⟩

theorem Step.visited (hg : g.WellFormed) (hr : r.Ready g) (h : Step g s r r') :
    ∃ n rest effect v, Visits g r r' n rest effect ∧ v.node = n ∧ r'.visits = v :: r.visits := by
  obtain ⟨n, rest, effect, v, hv, hn, hvisits, -⟩ := h.visited_noted hg hr
  exact ⟨n, rest, effect, v, hv, hn, hvisits⟩

theorem Step.visits (hg : g.WellFormed) (hr : r.Ready g) (h : Step g s r r') :
    ∃ n rest effect, Visits g r r' n rest effect := by
  obtain ⟨n, rest, effect, -, hv, -⟩ := h.visited hg hr
  exact ⟨n, rest, effect, hv⟩

namespace Visits

variable {n : Node} {rest : Worklist Node} {effect : Fact} (hv : Visits g r r' n rest effect)
include hv

theorem inFact_self : r'.table.inFact n = gather g r.table n (r.table.inFact n) := by
  rw [hv.table_eq, Table.inFact_write_self]

theorem outFact_self : r'.table.outFact n = (r.table.outFact n).copyFrom effect := by
  rw [hv.table_eq, Table.outFact_write_self]

theorem inFact_of_ne {m : Node} (h : m ≠ n) : r'.table.inFact m = r.table.inFact m := by
  rw [hv.table_eq, Table.inFact_write_of_ne _ _ _ h]

theorem outFact_of_ne {m : Node} (h : m ≠ n) : r'.table.outFact m = r.table.outFact m := by
  rw [hv.table_eq, Table.outFact_write_of_ne _ _ _ h]

/-- What is to be shown of the facts of every node is shown of the visited one anew. -/
theorem forall_facts {P : Node → Fact → Fact → Prop}
    (hself : P n (r'.table.inFact n) (r'.table.outFact n))
    (hothers : ∀ m ∈ g.nodes, m ≠ n → P m (r.table.inFact m) (r.table.outFact m)) :
    ∀ m ∈ g.nodes, P m (r'.table.inFact m) (r'.table.outFact m) := by
  intro m hm
  by_cases hmn : m = n
  · rw [hmn]
    exact hself
  · rw [hv.inFact_of_ne hmn, hv.outFact_of_ne hmn]
    exact hothers m hm hmn

theorem iterations_eq : r'.table.iterations = r.table.iterations + 1 := by
  rw [hv.table_eq, Table.iterations_write]

theorem size_pending : r.pending.size = rest.size + 1 := by
  rw [← Worklist.length_toList, hv.popped.length_eq, List.length_cons, Worklist.length_toList]

/-- Other pending nodes stay pending. -/
theorem mem_pending {m : Node} (hm : m ∈ rest.toList) : m ∈ r'.pending.toList := by
  rw [hv.pending_eq]
  split
  · exact hv.rest_inStep.mem_addAll.mpr (Or.inl hm)
  · exact hm

/-- After a change, the nodes that come next are pending. -/
theorem succs_pending (hc : (r.table.outFact n).copyChanges effect = true) {m : Node}
    (hm : m ∈ g.succs n) : m ∈ r'.pending.toList := by
  rw [hv.pending_eq, if_pos hc]
  exact hv.rest_inStep.mem_addAll.mpr (Or.inr hm)

/-- Facts before nodes only rise. -/
theorem le_inFact (hg : g.WellFormed) (hr : r.Ready g) (m : Node) :
    (r.table.inFact m).get ≤ (r'.table.inFact m).get := by
  by_cases h : m = n
  · rw [h, hv.inFact_self]
    exact le_gather hg hr.table n _
  · rw [hv.inFact_of_ne h]

/-- A visit leaves the run ready for the next one. -/
theorem ready (hg : g.WellFormed) (hr : r.Ready g) : r'.Ready g := by
  have hmem : ∀ m ∈ rest.toList, m ∈ r.pending.toList := fun m hm =>
    hv.popped.mem_iff.mpr (List.mem_cons_of_mem n hm)
  have hin := hr.table.inRange_inFact hv.node_mem
  obtain ⟨effect', he', hrange⟩ :=
    n.action.exists_localEffect (gather_inRange hg hr.table (n := n) hin)
  obtain rfl := Option.some.inj (hv.effect_eq.symm.trans he')
  refine ⟨?_, ?_, ?_⟩
  · rw [hv.table_eq]
    exact hr.table.write (gather_inRange hg hr.table hin)
      ((hr.table.inRange_outFact hv.node_mem).copyFrom hrange)
  · rw [hv.pending_eq]
    split
    · exact hv.rest_inStep.addAll
    · exact hv.rest_inStep
  · rw [hv.pending_eq]
    intro m hm
    split at hm
    · rcases hv.rest_inStep.mem_addAll.mp hm with h | h
      · exact hr.pending m (hmem m h)
      · obtain ⟨e, he, -, rfl⟩ := hg.mem_succs_iff.mp h
        exact hg.target_mem e he
    · exact hr.pending m (hmem m hm)

end Visits

/-- What a round keeps, a run keeps. -/
theorem Steps.keeps (hg : g.WellFormed) {P : Run → Prop}
    (hP : ∀ {r r' : Run} {n : Node} {rest : Worklist Node} {effect : Fact},
      r.Ready g → Visits g r r' n rest effect → P r → P r')
    (hr : r.Ready g) (h : Steps g s r r') (h0 : P r) : r'.Ready g ∧ P r' := by
  induction h with
  | refl => exact ⟨hr, h0⟩
  | tail _ hstep ih =>
      obtain ⟨n, rest, effect, hv⟩ := hstep.visits hg ih.1
      exact ⟨hv.ready hg ih.1, hP ih.1 hv ih.2⟩

/-! ## The three places of the loop -/

/-- The run with its table marked as converged. -/
def finish (r : Run) : Run := { r with table := { r.table with converged := true } }

theorem go_done (h : r.pending.size = 0) (k : Nat) : go g s k r = ⟨r.finish, .fixpoint⟩ := by
  unfold go
  rw [if_pos h]
  rfl

theorem go_reached (hp : r.pending.size ≠ 0) (hb : s.reached r.table = true) (k : Nat) :
    go g s k r = ⟨r, .failed (.diverged r.table.iterations r.pending.size)⟩ := by
  unfold go
  rw [if_neg hp, if_pos hb]

theorem go_zero (hp : r.pending.size ≠ 0) (hb : s.reached r.table = false) :
    go g s 0 r = ⟨r, .unfinished⟩ := by
  unfold go
  rw [if_neg hp, if_neg (by simp [hb])]

theorem Step.size_pending_ne (h : Step g s r r') : r.pending.size ≠ 0 := by
  obtain ⟨-, pop, -⟩ := h
  rw [← Worklist.length_toList, (Worklist.perm_of_pop? pop).length_eq, List.length_cons]
  omega

theorem Step.go_succ (h : Step g s r r') (k : Nat) : go g s (k + 1) r = go g s k r' := by
  have hp := h.size_pending_ne
  obtain ⟨bound, pop, visited⟩ := h
  conv_lhs => unfold go
  rw [if_neg hp, if_neg (by simp [bound])]
  simp only [pop, visited]

theorem progress (hg : g.WellFormed) (hr : r.Ready g) (s : Settings) :
    r.pending.size = 0 ∨ (r.pending.size ≠ 0 ∧ s.reached r.table = true) ∨ ∃ r', Step g s r r' := by
  by_cases hp : r.pending.size = 0
  · exact Or.inl hp
  by_cases hb : s.reached r.table = true
  · exact Or.inr (Or.inl ⟨hp, hb⟩)
  obtain ⟨n, rest, hpop⟩ := Worklist.exists_pop? hp s.strategy
  obtain ⟨effect, -, -, hv⟩ := hr.table.visit_eq hg (hr.mem_nodes_of_pop? hpop)
  exact Or.inr (Or.inr ⟨_, .visit (Bool.not_eq_true _ ▸ hb) hpop (by rw [hv])⟩)

/-! ## Whole runs -/

/-- How a run ends that has come so far: nothing is pending, or the bound is reached. -/
inductive Ends (s : Settings) (r : Run) : Finished → Prop where
  | fixpoint (done : r.pending.size = 0) :
      Ends s r ⟨{ r with table := { r.table with converged := true } }, .fixpoint⟩
  | stopped (pending : r.pending.size ≠ 0) (bound : s.reached r.table = true) :
      Ends s r ⟨r, .failed (.diverged r.table.iterations r.pending.size)⟩

/-- If every round lowers some quantity, and the allowance is as large as that quantity at the
start, then the allowance does not run out. -/
theorem go_ends (hg : g.WellFormed) (Inv : Run → Prop) (Φ : Run → Nat)
    (hready : ∀ {r : Run}, Inv r → r.Ready g)
    (hstep : ∀ {r r' : Run}, Inv r → Step g s r r' → Inv r' ∧ Φ r' < Φ r) :
    ∀ {fuel : Nat} {r : Run}, Inv r → Φ r ≤ fuel → ∃ r', Steps g s r r' ∧ Ends s r' (go g s fuel r)
  | fuel, r, hr, hfuel => by
      rcases progress hg (hready hr) s with hp | ⟨hp, hb⟩ | ⟨r₁, hfirst⟩
      · rw [go_done hp]
        exact ⟨r, .refl, .fixpoint hp⟩
      · rw [go_reached hp hb]
        exact ⟨r, .refl, .stopped hp hb⟩
      obtain ⟨hr₁, hlt⟩ := hstep hr hfirst
      -- The quantity falls in this round, so it was not zero, and neither was the allowance.
      cases fuel with
      | zero => omega
      | succ fuel =>
          obtain ⟨r', hsteps, hends⟩ := go_ends hg Inv Φ hready hstep hr₁ (show _ ≤ fuel by omega)
          rw [hfirst.go_succ]
          exact ⟨r', .head hfirst hsteps, hends⟩

end Run

end ConstFlow
