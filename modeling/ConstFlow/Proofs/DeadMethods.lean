import ConstFlow.Proofs.Rounds
import ConstFlow.Proofs.TwinGraphs

/-!
# Methods that are never reached have no say

If two programs agree on what is run from some entries, the solver does the same on both: it visits
the same nodes in the same order, and leaves the same facts. What else the programs define, in which
order, and on which lines, does not matter.

The graphs are twins, and the two runs go on in lockstep. Tables and worklists are lists of nodes
with something beside them, so they are related entry by entry (`Table.Twin`, `Worklist.Related`).
The solver looks nodes up and compares them, which gives the same answers on both sides because a
node has one twin only; all else that it reads of nodes, edges and methods is equal for twins.
-/

namespace ConstFlow

open List (Forall₂)

/-! ## Associations and worklists -/

/-- The same values in the same order, under related keys. -/
def Assoc.Related {α α' β : Type} (R : α → α' → Prop) (a : Assoc α β) (a' : Assoc α' β) : Prop :=
  Forall₂ (fun e e' => R e.1 e'.1 ∧ e.2 = e'.2) a.entries a'.entries

namespace Assoc.Related

variable {α α' β : Type} [DecidableEq α] [DecidableEq α'] {R : α → α' → Prop}
  (hR : Relator.BiUnique R) {a : Assoc α β} {a' : Assoc α' β} (h : a.Related R a')
  {k : α} {k' : α'} (hk : R k k')
include hR h hk

theorem get?_eq : a.get? k = a'.get? k' := by
  unfold Assoc.get?
  have hentries : Forall₂ (fun e e' => R e.1 e'.1 ∧ e.2 = e'.2) a.entries a'.entries := h
  generalize a.entries = es, a'.entries = es' at hentries
  induction hentries with
  | nil => rfl
  | @cons e e' es es' he _ ih =>
      obtain ⟨k₁, v⟩ := e
      obtain ⟨k₁', v'⟩ := e'
      obtain ⟨hk₁, rfl⟩ := he
      have heq : k = k₁ ↔ k' = k₁' := Relator.rel_eq hR hk hk₁
      by_cases hkk : k = k₁
      · simp [hkk, heq.mp hkk]
      · have hkk' : k' ≠ k₁' := mt heq.mpr hkk
        simp [List.lookup_cons, beq_false_of_ne hkk, beq_false_of_ne hkk', ih]

theorem set (v : β) : (a.set k v).Related R (a'.set k' v) := by
  have hkeys : Forall₂ R a.keys a'.keys := List.rel_map (fun _ _ he => he.1) h
  have hmem : k ∈ a.keys ↔ k' ∈ a'.keys := List.rel_mem hR hk hkeys
  unfold Assoc.set
  by_cases hin : k ∈ a.keys
  · rw [dif_pos hin, dif_pos (hmem.mp hin)]
    refine List.rel_map ?_ h
    rintro ⟨k₁, v₁⟩ ⟨k₁', _⟩ ⟨hk₁, rfl⟩
    have heq : k₁ = k ↔ k₁' = k' := Relator.rel_eq hR hk₁ hk
    by_cases hkk : k₁ = k
    · simp [hkk, heq.mp hkk, hk]
    · simp [hkk, mt heq.mpr hkk, hk₁]
  · rw [dif_neg hin, dif_neg (mt hmem.mpr hin)]
    exact List.rel_append h (.cons ⟨hk, rfl⟩ .nil)

end Assoc.Related

/-- Related items in the same order. -/
structure Worklist.Related {α α' : Type} (R : α → α' → Prop) (w : Worklist α)
    (w' : Worklist α') : Prop where
  front : Forall₂ R w.front w'.front
  back : Forall₂ R w.back w'.back
  members : Forall₂ R w.members w'.members

namespace Worklist.Related

variable {α α' : Type} {R : α → α' → Prop} {w : Worklist α} {w' : Worklist α'}

theorem size_eq (h : w.Related R w') : w.size = w'.size := by
  simp only [size, h.front.length_eq, h.back.length_eq]

variable [DecidableEq α] [DecidableEq α'] (hR : Relator.BiUnique R)
include hR

theorem discard (h : w.Related R w') {a : α} {a' : α'} (ha : R a a') :
    Forall₂ R (w.discard a) (w'.discard a') := by
  refine List.rel_filter (fun b b' hb => ?_) h.members
  simpa using not_congr (Relator.rel_eq hR hb ha)

theorem pop? (h : w.Related R w') (s : Strategy) :
    Option.Rel (fun a a' => R a.1 a'.1 ∧ a.2.Related R a'.2) (w.pop? s) (w'.pop? s) := by
  have hdiscard : ∀ {a a'}, R a a' → Forall₂ R (w.discard a) (w'.discard a') := h.discard hR
  obtain ⟨front, back, members⟩ := w
  obtain ⟨front', back', members'⟩ := w'
  obtain ⟨hfront, hback, -⟩ := h
  cases s with
  | fifo =>
      simp only [Worklist.pop?, popOldest?]
      cases hfront with
      | cons ha hrest => exact .some ⟨ha, hrest, hback, hdiscard ha⟩
      | nil =>
          have hrev := List.rel_reverse hback
          generalize back.reverse = l, back'.reverse = l' at hrev
          cases hrev with
          | nil => exact .none
          | cons ha hrest => exact .some ⟨ha, hrest, .nil, hdiscard ha⟩
  | lifo =>
      simp only [Worklist.pop?, popNewest?]
      cases hback with
      | cons ha hrest => exact .some ⟨ha, hfront, hrest, hdiscard ha⟩
      | nil =>
          have hrev := List.rel_reverse hfront
          generalize front.reverse = l, front'.reverse = l' at hrev
          cases hrev with
          | nil => exact .none
          | cons ha hrest => exact .some ⟨ha, .nil, hrest, hdiscard ha⟩

theorem add (h : w.Related R w') {a : α} {a' : α'} (ha : R a a') :
    (w.add a).Related R (w'.add a') := by
  have hmem : a ∈ w.members ↔ a' ∈ w'.members := List.rel_mem hR ha h.members
  by_cases hin : a ∈ w.members
  · rw [add_of_mem hin, add_of_mem (hmem.mp hin)]
    exact h
  · rw [add_of_not_mem hin, add_of_not_mem (mt hmem.mpr hin)]
    exact ⟨h.front, .cons ha h.back, .cons ha h.members⟩

theorem addAll (h : w.Related R w') {as : List α} {as' : List α'} (has : Forall₂ R as as') :
    (w.addAll as).Related R (w'.addAll as') :=
  List.rel_foldl (fun _ _ hw _ _ ha => hw.add hR ha) h has

end Worklist.Related

/-! ## Transfer -/

section

variable {p q : Program}

theorem Edge.Twin.carry_eq {e e' : Edge} (h : e.Twin p q e') (out : Option Fact) :
    e.carry out = e'.carry out := by
  obtain ⟨source, target, kind⟩ := e
  obtain ⟨source', target', kind'⟩ := e'
  obtain ⟨hsource, -, hkind⟩ := h
  have haction : source.action = source'.action := hsource.alike.action
  unfold Edge.carry
  cases out with
  | none => rfl
  | some f =>
      cases hkind with
      | normal => rfl
      | callToReturn => simp only [haction]
      | call hc => simp only [haction, hc.alike.params]
      | ret hn hc => simp only [hn.alike.action, hc.alike.returnVars]

namespace Supergraph.Twin

variable {g g' : Supergraph} (h : g.Twin p q g') (hwf : g.WellFormed) (hwf' : g'.WellFormed)
include h hwf hwf'

theorem inEdges {n n' : Node} (hn : n.Twin p q n') :
    Forall₂ (Edge.Twin p q) (g.inEdges n) (g'.inEdges n') := by
  rw [hwf.indexed.into, hwf'.indexed.into]
  refine List.rel_filter (fun e e' he => ?_) h.edges
  simpa using Relator.rel_eq (Node.Twin.biUnique p q) he.target hn

theorem succs {n n' : Node} (hn : n.Twin p q n') :
    Forall₂ (Node.Twin p q) (g.succs n) (g'.succs n') := by
  rw [Supergraph.succs, Supergraph.succs, hwf.indexed.out, hwf'.indexed.out]
  refine List.rel_map (fun _ _ he => he.target) (List.rel_filter (fun e e' he => ?_) h.edges)
  simpa using Relator.rel_eq (Node.Twin.biUnique p q) he.source hn

end Supergraph.Twin

theorem Method.Twin.boundary_eq {m m' : Method} (h : m.Twin p q m') :
    Fact.boundary m = Fact.boundary m' := by
  simp only [Fact.boundary, h.alike.params]

/-! ## Tables -/

/-- Tables with the same facts at twins. -/
structure Table.Twin (p q : Program) (t t' : Table) : Prop where
  before : t.before.Related (Node.Twin p q) t'.before
  after : t.after.Related (Node.Twin p q) t'.after
  iterations : t.iterations = t'.iterations

namespace Table.Twin

variable {t t' : Table} (h : t.Twin p q t')
include h

theorem inFact?_eq {n n' : Node} (hn : n.Twin p q n') : t.inFact? n = t'.inFact? n' :=
  congrArg Option.join (h.before.get?_eq (Node.Twin.biUnique p q) hn)

theorem outFact?_eq {n n' : Node} (hn : n.Twin p q n') : t.outFact? n = t'.outFact? n' :=
  congrArg Option.join (h.after.get?_eq (Node.Twin.biUnique p q) hn)

theorem setIn {n n' : Node} (hn : n.Twin p q n') (f : Option Fact) :
    (t.setIn n f).Twin p q (t'.setIn n' f) :=
  ⟨h.before.set (Node.Twin.biUnique p q) hn f, h.after, h.iterations⟩

theorem setOut {n n' : Node} (hn : n.Twin p q n') (f : Option Fact) :
    (t.setOut n f).Twin p q (t'.setOut n' f) :=
  ⟨h.before, h.after.set (Node.Twin.biUnique p q) hn f, h.iterations⟩

theorem setBoth {n n' : Node} (hn : n.Twin p q n') (f : Fact) :
    (t.setBoth n f).Twin p q (t'.setBoth n' f) := (h.setIn hn _).setOut hn _

theorem vars_eq : t.vars = t'.vars := by
  have hentries := List.rel_append h.before h.after
  unfold Table.vars
  rw [List.flatMap_def, List.flatMap_def]
  exact congrArg List.flatten (map_eq_of_forall₂ hentries fun e e' he => by rw [he.2])

theorem gather_eq {g g' : Supergraph} (hg : g.Twin p q g') (hwf : g.WellFormed)
    (hwf' : g'.WellFormed) {n n' : Node} (hn : n.Twin p q n') (f : Fact) :
    gather g t n f = gather g' t' n' f := by
  refine List.rel_foldl (P := (· = ·)) ?_ rfl (hg.inEdges hwf hwf' hn)
  rintro f _ rfl e e' he
  simp only [he.carry_eq, h.outFact?_eq he.source]

end Table.Twin

theorem Table.Twin.start {g g' : Supergraph} (hg : g.Twin p q g') (hwf : g.WellFormed)
    (hwf' : g'.WellFormed) : (Table.start g).Twin p q (Table.start g') := by
  have hclear : (clear g (empty analysisName)).Twin p q (clear g' (empty analysisName)) :=
    List.rel_foldl (fun _ _ ht _ _ hn => ht.setBoth hn _) ⟨.nil, .nil, rfl⟩ hg.nodes
  rw [start_eq hwf, start_eq hwf']
  refine List.rel_foldl (fun t t' ht m m' hm => ?_) hclear hg.entryMethods
  simp only [hm.boundary_eq]
  exact ht.setBoth hm.entry _

theorem Node.Twin.recompute_eq {n n' : Node} (h : n.Twin p q n') (f : Fact) (out : Option Fact) :
    recompute n f out = recompute n' f out := by
  simp only [recompute, h.alike.action]

/-- What visits of twins leave: tables with the same facts, and the same failure or the same word on
whether something changed. -/
structure Visited.Twin (p q : Program) (v v' : Visited) : Prop where
  table : v.table.Twin p q v'.table
  visit : SameOutcome (fun a a' => a.changed = a'.changed) v.visit v'.visit

theorem Table.Twin.visit {g g' : Supergraph} (hg : g.Twin p q g') (hwf : g.WellFormed)
    (hwf' : g'.WellFormed) {t t' : Table} (h : t.Twin p q t') {n n' : Node} (hn : n.Twin p q n') :
    (t.visit g n).Twin p q (t'.visit g' n') := by
  have hcounted : Table.Twin p q { t with iterations := t.iterations + 1 }
      { t' with iterations := t'.iterations + 1 } :=
    ⟨h.before, h.after, congrArg (· + 1) h.iterations⟩
  unfold Table.visit
  simp only [hcounted.inFact?_eq hn]
  split
  · exact ⟨hcounted, .error _⟩
  · rename_i f hf
    have hset := hcounted.setIn hn
      (some (gather g' { t' with iterations := t'.iterations + 1 } n' f))
    simp only [hcounted.gather_eq hg hwf hwf' hn, hset.outFact?_eq hn, hn.recompute_eq]
    split
    · exact ⟨hset, .error _⟩
    · exact ⟨hset.setOut hn _, .ok rfl⟩

/-! ## Runs -/

/-- Runs that have come equally far. -/
structure Run.Twin (p q : Program) (r r' : Run) : Prop where
  table : r.table.Twin p q r'.table
  pending : r.pending.Related (Node.Twin p q) r'.pending

theorem Run.Twin.step {g g' : Supergraph} (hg : g.Twin p q g') (hwf : g.WellFormed)
    (hwf' : g'.WellFormed) {s : Settings} {r r₁ r' : Run} (h : r.Twin p q r')
    (hstep : Run.Step g s r r₁) :
    ∃ r₁', Run.Step g' s r' r₁' ∧ r₁.Twin p q r₁' := by
  obtain ⟨bound, pop, visited⟩ := hstep
  rename_i n rest v
  have hbound : s.reached r'.table = false := by
    rw [← bound, Settings.reached, Settings.reached, h.table.iterations]
  have hpop := h.pending.pop? (Node.Twin.biUnique p q) s.strategy
  rw [pop] at hpop
  generalize hpop' : r'.pending.pop? s.strategy = popped at hpop
  cases hpop with
  | @some _ b hab =>
      obtain ⟨hn, hrest⟩ := hab
      have hv := h.table.visit hg hwf hwf' hn
      have hvisit := hv.visit
      rw [visited] at hvisit
      generalize hvisited' : (r'.table.visit g' b.1).visit = outcome at hvisit
      cases hvisit with
      | ok hchanged =>
          refine ⟨_, .visit hbound hpop' hvisited', hv.table, ?_⟩
          simp only [hchanged]
          split
          · exact hrest.addAll (Node.Twin.biUnique p q) (hg.succs hwf hwf' hn)
          · exact hrest

theorem Run.Twin.reached_eq {r r' : Run} (h : r.Twin p q r') (s : Settings) :
    s.reached r.table = s.reached r'.table := by
  rw [Settings.reached, Settings.reached, h.table.iterations]

/-- Runs in lockstep end alike. -/
theorem Run.Twin.go {g g' : Supergraph} (hg : g.Twin p q g') (hwf : g.WellFormed)
    (hwf' : g'.WellFormed) (s : Settings) (fuel : Nat) {r r' : Run} (hr : r.Ready g)
    (h : r.Twin p q r') :
    (Run.go g s fuel r).run.table.Twin p q (Run.go g' s fuel r').run.table ∧
      (Run.go g s fuel r).ending = (Run.go g' s fuel r').ending := by
  induction fuel generalizing r r' with
  | zero =>
      have hsize := h.pending.size_eq
      have hreached := h.reached_eq s
      by_cases hp : r.pending.size = 0
      · rw [go_done hp, go_done (hsize ▸ hp)]
        exact ⟨⟨h.table.before, h.table.after, h.table.iterations⟩, rfl⟩
      · cases hb : s.reached r.table with
        | true =>
            rw [go_reached hp hb, go_reached (hsize ▸ hp) (hreached ▸ hb), hsize,
              h.table.iterations]
            exact ⟨h.table, rfl⟩
        | false =>
            rw [go_zero hp hb, go_zero (hsize ▸ hp) (hreached ▸ hb)]
            exact ⟨h.table, rfl⟩
  | succ fuel ih =>
      have hsize := h.pending.size_eq
      rcases progress hwf hr s with hp | ⟨hp, hb⟩ | ⟨r₁, hstep⟩
      · rw [go_done hp, go_done (hsize ▸ hp)]
        exact ⟨⟨h.table.before, h.table.after, h.table.iterations⟩, rfl⟩
      · rw [go_reached hp hb, go_reached (hsize ▸ hp) (h.reached_eq s ▸ hb), hsize,
          h.table.iterations]
        exact ⟨h.table, rfl⟩
      · obtain ⟨r₁', hstep', h₁⟩ := h.step hg hwf hwf' hstep
        rw [hstep.go_succ, hstep'.go_succ]
        exact ih (hstep.ready hwf hr) h₁

theorem Supergraph.Twin.visitBudget_eq {g g' : Supergraph} (hg : g.Twin p q g') {t t' : Table}
    (ht : t.Twin p q t') : visitBudget g t = visitBudget g' t' := by
  have hparams : g.methods.flatMap Method.params = g'.methods.flatMap Method.params := by
    rw [List.flatMap_def, List.flatMap_def,
      map_eq_of_forall₂ hg.methods fun _ _ hm => hm.alike.params]
  have htargets : (g.nodes.filterMap fun n => n.action.target?) =
      g'.nodes.filterMap fun n => n.action.target? := by
    have haction := map_eq_of_forall₂ hg.nodes fun _ _ hn => hn.alike.action
    simpa only [List.filterMap_map, Function.comp_def] using
      congrArg (List.filterMap Action.target?) haction
  rw [visitBudget, visitBudget, runVars, runVars, hg.nodes.length_eq, hg.edges.length_eq,
    ht.vars_eq, hparams, htargets]

theorem Supergraph.Twin.solve {g g' : Supergraph} (hg : g.Twin p q g') (hwf : g.WellFormed)
    (hwf' : g'.WellFormed) (s : Settings) (noted noted' : List Mismatch) :
    (solve g s noted).run.table.Twin p q (solve g' s noted').run.table ∧
      (solve g s noted).ending = (solve g' s noted').ending := by
  have hstart := Table.Twin.start hg hwf hwf'
  unfold ConstFlow.solve resume
  rw [hg.visitBudget_eq hstart]
  refine Run.Twin.go hg hwf hwf' s _ (Run.begin_ready noted hwf (Table.start_ready hwf)) ⟨?_, ?_⟩
  · exact ⟨hstart.before, hstart.after, hstart.iterations⟩
  · exact Worklist.Related.addAll (Node.Twin.biUnique p q) ⟨.nil, .nil, .nil⟩ hg.nodes

end

/-- Methods that are never reached cannot influence a result. If every name that is an entry or is
called from a reachable method is undefined in both programs, or defined in both by methods with the
same parameters, statements and labels, then building the call graph and the supergraph fails in the
same way or gives the same reachable methods, calls, nodes and edges in the same order. Solving then
ends in the same way after as many visits, with the same facts at every node and its twin. -/
theorem solve_ignores_dead_methods {p q : Program} {names : List Text}
    (h : Program.Agree names p q) :
    SameOutcome (CallGraph.Twin p q) (CallGraph.build p names) (CallGraph.build q names) ∧
    SameOutcome
      (fun g g' => g.Twin p q g' ∧
        ∀ (s : Settings) (noted noted' : List Mismatch),
          let f := solve g s noted
          let f' := solve g' s noted'
          f.ending = f'.ending ∧ f.run.table.iterations = f'.run.table.iterations ∧
            ∀ n ∈ g.nodes, ∀ n' ∈ g'.nodes, n.Alike n' →
              ∃ before after,
                f.run.table.inFact? n = some before ∧ f'.run.table.inFact? n' = some before ∧
                f.run.table.outFact? n = some after ∧ f'.run.table.outFact? n' = some after)
      (Supergraph.build p names) (Supergraph.build q names) := by
  refine ⟨h.callGraph, h.supergraph.attach.imp ?_⟩
  rintro g g' ⟨htwin, hg, hg'⟩
  have hb := Supergraph.built_of_build hg
  have hb' := Supergraph.built_of_build hg'
  have hwf := hb.wellFormed
  refine ⟨htwin, fun s noted noted' => ?_⟩
  obtain ⟨htable, hending⟩ := htwin.solve hwf hb'.wellFormed s noted noted'
  have hready : (solve g s noted).run.table.Ready g :=
    (Run.after_ready hwf _ (Run.begin_ready noted hwf (Table.start_ready hwf))).table
  generalize solve g s noted = f at htable hending hready ⊢
  generalize solve g' s noted' = f' at htable hending ⊢
  refine ⟨hending, htable.iterations, fun n hn n' hn' halike => ?_⟩
  obtain ⟨m, hm, hnm⟩ := hb.mem_nodes_iff.mp hn
  obtain ⟨m', hm', hnm'⟩ := hb'.mem_nodes_iff.mp hn'
  have hnn : n.Twin p q n' := ⟨halike, ⟨m, hb.calls.reachable.defined m hm, hnm⟩,
    ⟨m', hb'.calls.reachable.defined m' hm', hnm'⟩⟩
  have hbefore := hready.inFact?_eq hn
  have hafter := hready.outFact?_eq hn
  exact ⟨_, _, hbefore, htable.inFact?_eq hnn ▸ hbefore, hafter, htable.outFact?_eq hnn ▸ hafter⟩

namespace Sample

/-- A method ten lines further down. -/
def movedDown (m : Method) : Method :=
  .of m.name m.params (m.body.map fun s => ⟨s.line + 10, s.action⟩) m.labels

theorem alike_movedDown (m : Method) : m.Alike (movedDown m) :=
  ⟨rfl, rfl, by simp [movedDown, Method.map_action_of], fun _ => rfl⟩

/-- Nobody calls it; it could not be put into a graph, since it jumps to a label that it lacks. -/
def spare : Method :=
  .of "spare" [⟨"spare", "a"⟩]
    [⟨1, .call "main" [] (some ⟨"spare", "a"⟩)⟩, ⟨2, .jump "nowhere"⟩]
    .empty

/-- The sample with its methods in another order, below one that nobody calls. -/
def extended : Program := ⟨[spare, movedDown pick, movedDown main], by decide⟩

theorem agree_extended : Program.Agree ["main"] program extended := by
  have hcalls : ∀ m ∈ graph.calls.reachable, ∀ s ∈ m.body,
      s.action.callee? = none ∨ s.action.callee? = some "pick" := by decide +kernel
  have hmain : Option.Rel Method.Alike (program.find? "main") (extended.find? "main") := by
    rw [show program.find? "main" = some main by decide +kernel,
      show extended.find? "main" = some (movedDown main) by decide +kernel]
    exact .some (alike_movedDown main)
  have hpick : Option.Rel Method.Alike (program.find? "pick") (extended.find? "pick") := by
    rw [show program.find? "pick" = some pick by decide +kernel,
      show extended.find? "pick" = some (movedDown pick) by decide +kernel]
    exact .some (alike_movedDown pick)
  rintro name (hname | ⟨m, hm, s, hs, hcallee⟩)
  · rw [List.mem_singleton.mp hname]
    exact hmain
  · have hmem := (CallGraph.mem_reachable_iff (Supergraph.calls_of_build build_eq)).mpr hm
    rcases hcalls m hmem s hs with hnone | hpickcall
    · rw [hnone] at hcallee
      cases hcallee
    · rw [hpickcall] at hcallee
      rw [← Option.some.inj hcallee]
      exact hpick

end Sample

/-- The sample and its extension have different lines everywhere, yet solving takes as many visits
on either and finds the same at the end of `pick`. -/
theorem solve_ignores_dead_methods_sample :
    let g := Sample.graph
    let g' := Sample.graphOf Sample.extended ["main"]
    let t := (solve g ⟨.lifo, none⟩ []).run.table
    let t' := (solve g' ⟨.lifo, none⟩ []).run.table
    Program.Agree ["main"] Sample.program Sample.extended ∧
      Supergraph.build Sample.extended ["main"] = .ok g' ∧
      g.Twin Sample.program Sample.extended g' ∧ t.iterations = t'.iterations ∧
      ∃ f, t.inFact? Sample.pick.exit = some f ∧
        t'.inFact? (Sample.movedDown Sample.pick).exit = some f := by
  intro g g' t t'
  have hbuild : Supergraph.build Sample.extended ["main"] = .ok g' :=
    Sample.build_graphOf (by decide +kernel)
  have hsame := (solve_ignores_dead_methods Sample.agree_extended).2
  rw [Sample.build_eq, hbuild] at hsame
  cases hsame with
  | ok hsame =>
      obtain ⟨htwin, hsolve⟩ := hsame
      obtain ⟨-, hiterations, hfacts⟩ := hsolve ⟨.lifo, none⟩ [] []
      obtain ⟨f, -, hf, hf', -, -⟩ := hfacts Sample.pick.exit (by decide +kernel)
        (Sample.movedDown Sample.pick).exit (by decide +kernel) (Sample.alike_movedDown _).exit
      exact ⟨Sample.agree_extended, hbuild, htwin, hiterations, f, hf, hf'⟩

end ConstFlow
