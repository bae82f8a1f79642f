import ConstFlow.Proofs.Moments

/-!
# Constants stay in range

Every constant that is ever stored while solving is a 32-bit integer, whatever literals the program
has. This is more than tidiness. Before two constants are divided, the divisor is compared with zero
as it stands, but the division takes it modulo `2 ^ 32`. The two tests agree on 32-bit integers
(`Action.exists_apply_of_folded?`) and not beyond, so only the range keeps solving from failing.

"Ever stored" is said of all moments of all visits, and is shown of single bindings: those that
edges carry and those that statements give have 32-bit constants (`Fact.inRange_takesIn`).
-/

namespace ConstFlow

/-! ## Tables -/

/-- All constants of all facts of a table are 32-bit integers. -/
def Table.InRange (t : Table) : Prop :=
  ∀ n f, t.inFact? n = some f ∨ t.outFact? n = some f → f.InRange

theorem Table.start_inRange (g : Supergraph) : (Table.start g).InRange :=
  Table.All.start (P := fun _ f => f.InRange) (fun _ _ => Fact.inRange_empty)
    fun m _ => Fact.nacOn_inRange m.params

theorem Fact.InRange.of_mem {f : Fact} (hf : f.InRange) {b : Var × Value} (hb : b ∈ f.entries) :
    b.2.InRange := by
  obtain ⟨hget, -⟩ := (f.mem_entries_iff b.1 b.2).mp hb
  rw [← hget]
  exact hf b.1

theorem Fact.inRange_takesIn {g : Supergraph} (hg : g.WellFormed) :
    Table.TakesIn g fun _ f => f.InRange := by
  refine ⟨fun {t n} hr _ _ b hb f hf => ?_, fun {n gathered effect} _ hgathered he b hb f hf => ?_⟩
  · obtain ⟨e, he, hb⟩ := List.mem_flatMap.mp hb
    rw [outFact?_source hg hr he] at hb
    have hsource := hg.source_mem e (hg.mem_inEdges_iff.mp he).1
    have hvalue : b.2.InRange := (e.carry_inRange (hr.inRange_outFact hsource)).of_mem hb
    exact hf.update (hvalue.sup (hf b.1)) b.1
  · obtain ⟨effect', he', hrange⟩ := n.action.exists_localEffect hgathered
    obtain rfl := Option.some.inj (he.symm.trans he')
    exact hf.update (hrange.of_mem hb) b.1

/-- On a table with 32-bit constants, there is no other constant at any moment of a visit. -/
theorem Table.Ready.moments_inRange {g : Supergraph} {t : Table} (hg : g.WellFormed)
    (ht : t.Ready g) {n : Node} (hn : n ∈ g.nodes) (hr : t.InRange) :
    ∀ t' ∈ t.moments g n, t'.InRange := (Fact.inRange_takesIn hg).moments hg ht hr hn

theorem Run.after_inRange {g : Supergraph} {s : Settings} {r : Run} (hg : g.WellFormed) (k : Nat)
    (hr : r.Ready g) (ht : r.table.InRange) : (r.after g s k).table.InRange :=
  (Fact.inRange_takesIn hg).after hg hr ht k

/-! ## Folding -/

namespace Action

/-- The operator and the constants that evaluating a statement folds, if it does. -/
def folded? (f : Fact) : Action → Option (Operator × Int × Int)
  | binary _ op y z =>
    match f.get y, f.get z with
    | .const a, .const b => if op.isDivision && b = 0 then none else some (op, a, b)
    | _, _ => none
  | _ => none

variable {a : Action} {f : Fact} {op : Operator} {c d : Int}

theorem folded?_eq_some (h : a.folded? f = some (op, c, d)) :
    ∃ x y z, a = .binary x op y z ∧ f.get y = .const c ∧ f.get z = .const d ∧
      ¬(op.isDivision && d = 0) = true := by
  unfold folded? at h
  split at h
  · rename_i x op' y z
    split at h
    · rename_i c' d' hy hz
      split at h
      · cases h
      · rename_i hd
        cases h
        exact ⟨x, y, z, rfl, hy, hz, hd⟩
    · cases h
  · cases h

/-- Folding is all that evaluating does with two constants, and on 32-bit constants the divisor, if
there is one, does not become zero. -/
theorem exists_apply_of_folded? (hf : f.InRange) (h : a.folded? f = some (op, c, d)) :
    (op.isDivision = true → Int32.wrap d ≠ 0) ∧
      ∃ v, op.apply c d = some v ∧ a.evaluate f = some (.const v) := by
  obtain ⟨x, y, z, rfl, hy, hz, hd⟩ := folded?_eq_some h
  have hrange : Int32.InRange d := by
    have := hf z
    rw [hz] at this
    exact this
  obtain ⟨v, hv⟩ := Operator.exists_apply hrange hd c
  refine ⟨fun hdiv hzero => ?_, v, hv, ?_⟩
  · rw [Int32.wrap_eq_self hrange] at hzero
    exact hd (by simp [hdiv, hzero])
  · rw [evaluate, hy, hz, Operator.applyAbstract_const, if_neg hd, hv]
    rfl

/-- Out of range, a divisor may pass the test and still be zero when it comes to dividing. -/
example : Operator.div.applyAbstract (.const 1) (.const 4294967296) = none := by decide

end Action

/-! ## Endings -/

/-- Nothing but a bound stops a run from a ready table. -/
theorem resume_ending {g : Supergraph} (hg : g.WellFormed) {t : Table} (ht : t.Ready g)
    (s : Settings) (noted : List Mismatch) :
    (resume g s noted t).ending = .fixpoint ∨
      ∃ b made pending, s.bound = some b ∧ b ≤ (made : Nat) ∧
        (resume g s noted t).ending = .failed (.diverged made pending) := by
  obtain ⟨r, -, hends⟩ := resume_ends hg ht s noted
  generalize resume g s noted t = f at hends
  cases hends with
  | fixpoint done => exact Or.inl rfl
  | stopped pending bound =>
      unfold Settings.reached at bound
      split at bound
      · cases bound
      · rename_i b hb
        exact Or.inr ⟨b, _, _, hb, of_decide_eq_true bound, rfl⟩

/-! ## Literals out of range -/

namespace Sample

/-- The first literal is a zero divisor, modulo `2 ^ 32`, and the second is not. -/
def ratio : Method :=
  .of "ratio" []
    [⟨1, .literal ⟨"ratio", "x"⟩ 4294967296⟩,
      ⟨2, .literal ⟨"ratio", "y"⟩ (-4294967299)⟩,
      ⟨3, .binary ⟨"ratio", "z"⟩ .div ⟨"ratio", "y"⟩ ⟨"ratio", "x"⟩⟩,
      ⟨4, .binary ⟨"ratio", "z"⟩ .rem ⟨"ratio", "x"⟩ ⟨"ratio", "y"⟩⟩]
    Assoc.empty

def ratios : Program := ⟨[ratio], by decide⟩

end Sample

/-- However many rounds solving has made, all stored constants are 32-bit integers, and so they are
at every moment of the visit that comes next. That visit succeeds. If it folds an operator, the
divisor does not become zero, and the folding has a result. So nothing but a bound stops solving
early. -/
theorem solve_constants_inRange {p : Program} {names : List Text} {g : Supergraph}
    (h : Supergraph.build p names = .ok g) (s : Settings) (noted : List Mismatch) :
    (∀ k, let r := (Run.begin g noted (.start g)).after g s k
      r.table.InRange ∧
      ∀ n rest, r.pending.pop? s.strategy = some (n, rest) →
        (∀ t ∈ r.table.moments g n, t.InRange) ∧
        (r.table.moments g n).getLast? = some (r.table.visit g n).table ∧
        (∃ v, (r.table.visit g n).visit = .ok v) ∧
        ∀ op c d, n.action.folded? (gather g r.table n (r.table.inFact n)) = some (op, c, d) →
          (op.isDivision = true → Int32.wrap d ≠ 0) ∧ ∃ v, op.apply c d = some v) ∧
    ((solve g s noted).ending = .fixpoint ∨
      ∃ b made pending, s.bound = some b ∧ b ≤ (made : Nat) ∧
        (solve g s noted).ending = .failed (.diverged made pending)) := by
  have hg := Supergraph.wellFormed_of_build h
  have hstart := Table.start_ready hg
  have hbegin := Run.begin_ready noted hg hstart
  refine ⟨fun k => ?_, resume_ending hg hstart s noted⟩
  intro r
  have hr : r.Ready g := Run.after_ready hg k hbegin
  have hrange : r.table.InRange := Run.after_inRange hg k hbegin (Table.start_inRange g)
  refine ⟨hrange, fun n rest hpop => ?_⟩
  have hn := hr.mem_nodes_of_pop? hpop
  obtain ⟨effect, -, -, hv⟩ := hr.table.visit_eq hg hn
  refine ⟨hr.table.moments_inRange hg hn hrange, hr.table.getLast?_moments hg hn,
    ⟨_, by rw [hv]⟩, fun op c d hfold => ?_⟩
  obtain ⟨hwrap, v, hv, -⟩ := Action.exists_apply_of_folded?
    (gather_inRange hg hr.table (hr.table.inRange_inFact hn)) hfold
  exact ⟨hwrap, v, hv⟩

/-- In the sample, the second division comes after four visits. It divides by `-3`, and the first
one is not made at all: its divisor was stored as `0`. -/
theorem solve_constants_inRange_sample :
    let g := Sample.graphOf Sample.ratios ["ratio"]
    let r := (Run.begin g [] (.start g)).after g ⟨.fifo, none⟩ 4
    let n := Sample.ratio.nodeAt 3
    Supergraph.build Sample.ratios ["ratio"] = .ok g ∧
      r.table.InRange ∧
      (∃ rest, r.pending.pop? .fifo = some (n, rest)) ∧
      (∀ t ∈ r.table.moments g n, t.InRange) ∧
      n.action.folded? (gather g r.table n (r.table.inFact n)) = some (.rem, 0, -3) ∧
      Int32.wrap (-3) ≠ 0 ∧
      (solve g ⟨.fifo, none⟩ []).ending = .fixpoint := by
  intro g r n
  have hb : Supergraph.build Sample.ratios ["ratio"] = .ok g :=
    Sample.build_graphOf (by decide +kernel)
  obtain ⟨hrounds, hend⟩ := solve_constants_inRange hb ⟨.fifo, none⟩ []
  obtain ⟨hrange, hvisit⟩ := hrounds 4
  have hnext : (r.pending.pop? .fifo).map Prod.fst = some n := by decide +kernel
  obtain ⟨⟨_, rest⟩, hpop, rfl⟩ := Option.map_eq_some_iff.mp hnext
  obtain ⟨hmoments, -, -, hfold⟩ := hvisit _ rest hpop
  have hfolded : n.action.folded? (gather g r.table n (r.table.inFact n)) =
      some (.rem, 0, -3) := by decide +kernel
  refine ⟨hb, hrange, ⟨rest, hpop⟩, hmoments, hfolded, (hfold _ _ _ hfolded).1 rfl, ?_⟩
  exact hend.resolve_right fun ⟨b, _, _, hbound, _⟩ => by cases hbound

end ConstFlow
