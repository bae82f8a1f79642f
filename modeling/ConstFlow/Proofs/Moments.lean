import ConstFlow.Proofs.Rounds

/-!
# Moments of a visit

A visit writes one binding after another, first of the fact before its node and then of the fact
after it. `Table.moments` has all the tables on the way, so that something can be said of every
fact that is ever stored, and not only of those that a visit leaves. They are those of the solver:
the first part ends with the gathered fact (`Table.getLast?_incoming`), the second with what the
visit leaves (`Table.Ready.getLast?_moments`).

What is to hold of every stored fact is shown of single bindings. If a fact may take in each binding
that edges carry to its node, and each that its statement gives (`Table.TakesIn`), then all moments
of all rounds are as they should be (`Table.TakesIn.moments`, `Table.TakesIn.after`).
-/

namespace ConstFlow

/-! ## All facts of a table -/

/-- Every fact of a table is as it should be at its node. -/
def Table.All (P : Node → Fact → Prop) (t : Table) : Prop :=
  ∀ n f, t.inFact? n = some f ∨ t.outFact? n = some f → P n f

namespace Table.All

variable {P : Node → Fact → Prop} {t : Table} {n : Node} {f : Fact}

theorem setIn (ht : t.All P) (hf : P n f) : (t.setIn n (some f)).All P := by
  rintro m k (h | h)
  · rw [inFact?_setIn] at h
    split at h
    · rename_i hm
      obtain rfl := Option.some.inj h
      exact hm ▸ hf
    · exact ht m k (Or.inl h)
  · exact ht m k (Or.inr h)

theorem setOut (ht : t.All P) (hf : P n f) : (t.setOut n (some f)).All P := by
  rintro m k (h | h)
  · exact ht m k (Or.inl h)
  · rw [outFact?_setOut] at h
    split at h
    · rename_i hm
      obtain rfl := Option.some.inj h
      exact hm ▸ hf
    · exact ht m k (Or.inr h)

theorem foldl_setBoth {ι : Type} {node : ι → Node} {fact : ι → Fact} {is : List ι}
    (hfact : ∀ i ∈ is, P (node i) (fact i)) (ht : t.All P) :
    (is.foldl (fun t i => t.setBoth (node i) (fact i)) t).All P := by
  induction is generalizing t with
  | nil => exact ht
  | cons i is ih =>
      rw [List.forall_mem_cons] at hfact
      exact ih hfact.2 ((ht.setIn hfact.1).setOut hfact.1)

/-- At the start there is nothing but empty facts and the boundaries of entries. -/
theorem start {g : Supergraph} (hempty : ∀ n ∈ g.nodes, P n .empty)
    (hentry : ∀ m ∈ g.entryMethods, P m.entry (.boundary m)) : (Table.start g).All P := by
  rw [Table.start_eq_filter]
  refine foldl_setBoth (fun m hm => hentry m (List.mem_filter.mp hm).1) (foldl_setBoth hempty ?_)
  rintro n f (h | h) <;> cases h

end Table.All

/-! ## Moments -/

namespace Table

/-- The bindings that are combined into the fact before a node, one after another. -/
def incoming (g : Supergraph) (t : Table) (n : Node) : List (Var × Value) :=
  (g.inEdges n).flatMap fun e => (e.carry (t.outFact? e.source)).entries

/-- The last fact of those that take them in is the gathered one. -/
theorem getLast?_incoming (g : Supergraph) (t : Table) (n : Node) :
    ((t.incoming g n).scanl (fun f b => f.update b.1 (b.2.meet (f.get b.1)))
      (t.inFact n)).getLast? = some (gather g t n (t.inFact n)) := by
  rw [List.getLast?_scanl, incoming, List.foldl_flatMap]
  rfl

/-- The tables while the fact before a node takes in what edges carry. -/
def gathering (g : Supergraph) (t : Table) (n : Node) : List Table :=
  ((t.incoming g n).scanl (fun f b => f.update b.1 (b.2.meet (f.get b.1))) (t.inFact n)).map
    fun f => { t with iterations := t.iterations + 1 }.setIn n (some f)

/-- The tables while the effect of a statement is copied into the fact after a node. -/
def copying (t : Table) (n : Node) (gathered effect : Fact) : List Table :=
  (effect.entries.scanl (fun f b => f.update b.1 b.2) (t.outFact n)).map
    fun f => ({ t with iterations := t.iterations + 1 }.setIn n (some gathered)).setOut n (some f)

/-- The tables that a visit goes through, from the first to the one that it leaves. -/
def moments (g : Supergraph) (t : Table) (n : Node) : List Table :=
  let gathered := gather g t n (t.inFact n)
  match n.action.localEffect gathered with
  | none => t.gathering g n
  | some effect => t.gathering g n ++ t.copying n gathered effect

theorem moments_eq {g : Supergraph} {t : Table} {n : Node} {effect : Fact}
    (h : n.action.localEffect (gather g t n (t.inFact n)) = some effect) :
    t.moments g n = t.gathering g n ++ t.copying n (gather g t n (t.inFact n)) effect := by
  simp only [moments, h]

/-- The last moment of a visit is what the visit leaves. -/
theorem Ready.getLast?_moments {g : Supergraph} {t : Table} (hg : g.WellFormed) (ht : t.Ready g)
    {n : Node} (hn : n ∈ g.nodes) : (t.moments g n).getLast? = some (t.visit g n).table := by
  obtain ⟨effect, he, -, hv⟩ := ht.visit_eq hg hn
  rw [moments_eq he, hv, List.getLast?_append, copying, List.getLast?_map, List.getLast?_scanl]
  rfl

end Table

theorem forall_mem_scanl {α β : Type} {step : β → α → β} {P : β → Prop} :
    ∀ {as : List α} {b : β}, P b → (∀ a ∈ as, ∀ b, P b → P (step b a)) →
      ∀ c ∈ as.scanl step b, P c
  | [], b, hb, _, c, hc => by
      obtain rfl := List.mem_singleton.mp hc
      exact hb
  | a :: as, b, hb, hstep, c, hc => by
      rw [List.forall_mem_cons] at hstep
      rw [List.scanl_cons, List.mem_cons] at hc
      rcases hc with rfl | hc
      · exact hb
      · exact forall_mem_scanl (hstep.1 b hb) hstep.2 c hc

/-! ## What single bindings keep -/

/-- On tables whose facts are as they should be, facts may take in the bindings that a visit puts
into them. -/
structure Table.TakesIn (g : Supergraph) (P : Node → Fact → Prop) : Prop where
  incoming : ∀ {t : Table} {n : Node}, t.Ready g → t.All P → n ∈ g.nodes →
    ∀ b ∈ t.incoming g n, ∀ f, P n f → P n (f.update b.1 (b.2.meet (f.get b.1)))
  effect : ∀ {n : Node} {gathered effect : Fact}, n ∈ g.nodes → P n gathered →
    n.action.localEffect gathered = some effect →
    ∀ b ∈ effect.entries, ∀ f, P n f → P n (f.update b.1 b.2)

namespace Table.TakesIn

variable {g : Supergraph} {P : Node → Fact → Prop} (hP : TakesIn g P) (hg : g.WellFormed)
include hP hg

theorem moments {t : Table} (hr : t.Ready g) (ht : t.All P) {n : Node} (hn : n ∈ g.nodes) :
    ∀ t' ∈ t.moments g n, t'.All P := by
  obtain ⟨effect, he, -, -⟩ := hr.visit_eq hg hn
  have hcount : ({ t with iterations := t.iterations + 1 } : Table).All P := ht
  have hin : ∀ f ∈ (t.incoming g n).scanl (fun f b => f.update b.1 (b.2.meet (f.get b.1)))
      (t.inFact n), P n f :=
    forall_mem_scanl (ht n _ (Or.inl (hr.inFact?_eq hn))) (hP.incoming hr ht hn)
  have hgathered : P n (gather g t n (t.inFact n)) :=
    hin _ (List.mem_of_getLast? (getLast?_incoming g t n))
  intro t' ht'
  rw [moments_eq he, List.mem_append] at ht'
  rcases ht' with h | h
  · obtain ⟨f, hf, rfl⟩ := List.mem_map.mp h
    exact hcount.setIn (hin f hf)
  · obtain ⟨f, hf, rfl⟩ := List.mem_map.mp h
    refine (hcount.setIn hgathered).setOut ?_
    exact forall_mem_scanl (ht n _ (Or.inr (hr.outFact?_eq hn)))
      (hP.effect hn hgathered he) f hf

theorem step {s : Settings} {r r' : Run} (hr : r.Ready g) (h : Run.Step g s r r')
    (ht : r.table.All P) : r'.table.All P := by
  obtain ⟨-, pop, -⟩ := h
  have hn := hr.mem_nodes_of_pop? pop
  have hlast := hr.table.getLast?_moments hg hn
  exact hP.moments hg hr.table ht hn _ (List.mem_of_getLast? hlast)

/-- However many rounds a run makes, its facts stay as they should be. -/
theorem after {s : Settings} {r : Run} (hr : r.Ready g) (ht : r.table.All P) (k : Nat) :
    (r.after g s k).table.All P :=
  (Run.after_keeps hg (P := fun r => r.table.All P) (fun hr h ht => hP.step hg hr h ht) id k hr
    ht).2

end Table.TakesIn

end ConstFlow
