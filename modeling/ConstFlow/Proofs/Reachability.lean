import Mathlib.Data.Multiset.AddSub
import Mathlib.Logic.Relation
import ConstFlow.Proofs.EdgeStructure

/-!
# What a search of a method reaches

`ControlFlow.visit` puts every successor of a node on the stack, visited or not, so nodes wait there
several times and the stack grows while the search goes round a loop. Two things hold it together.

* A turn of the search takes one node off the stack, and a visit puts one on for each edge that
  leaves the node and never does so again. So each turn makes the edges that are left and the stack
  smaller by exactly one (`Turn.fuel_eq`), and there is at most one turn more than there are edges.
* A successor of a visited node was visited or waits (`Explores`), so once nothing waits the visited
  nodes are closed under edges.

Neither argument looks at the order of the stack. Turns are therefore given for a bag of waiting
nodes, from which any one may be taken (`Turn`), and a search in any order ends with the same nodes.
-/

namespace ConstFlow.ControlFlow

variable {g : ControlFlow}

/-- An edge leads from one node to another. -/
def Leads (g : ControlFlow) (n r : Node) : Prop := ∃ e ∈ g.edges, e.source = n ∧ e.target = r

/-- Zero or more edges lead from one node to another. -/
def Path (g : ControlFlow) : Node → Node → Prop := Relation.ReflTransGen g.Leads

/-! ## Turns -/

/-- A search, as far as it has come: the visited nodes, the last one first, and those that wait. -/
structure Search where
  visited : List Node
  waiting : Multiset Node

/-- A search from a node. -/
def Search.start (s : Node) : Search := ⟨[], {s}⟩

/-- One turn of a search takes any waiting node. -/
inductive Turn (g : ControlFlow) : Search → Search → Prop where
  | skip {n : Node} {visited : List Node} {waiting : Multiset Node} (seen : n ∈ visited) :
      Turn g ⟨visited, n ::ₘ waiting⟩ ⟨visited, waiting⟩
  | visit {n : Node} {visited : List Node} {waiting : Multiset Node} (new : n ∉ visited) :
      Turn g ⟨visited, n ::ₘ waiting⟩ ⟨n :: visited, g.succs n + waiting⟩

/-- Some number of turns, one after another. -/
inductive Turns (g : ControlFlow) : Nat → Search → Search → Prop where
  | none (x : Search) : Turns g 0 x x
  | more {k : Nat} {x y z : Search} (first : Turn g x y) (rest : Turns g k y z) :
      Turns g (k + 1) x z

/-- A search goes on as long as a node waits. -/
theorem exists_turn_iff {x : Search} : (∃ y, g.Turn x y) ↔ x.waiting ≠ 0 := by
  obtain ⟨visited, waiting⟩ := x
  constructor
  · rintro ⟨y, hturn⟩
    cases hturn <;> exact Multiset.cons_ne_zero
  · intro hne
    obtain ⟨n, hn⟩ := Multiset.exists_mem_of_ne_zero hne
    obtain ⟨rest, rfl⟩ := Multiset.exists_cons_of_mem hn
    by_cases hv : n ∈ visited
    · exact ⟨_, .skip hv⟩
    · exact ⟨_, .visit hv⟩

/-! ## Turns run out -/

/-- The edges that leave nodes still to be visited, and the nodes that wait. -/
def Search.fuel (g : ControlFlow) (x : Search) : Nat := g.unvisited x.visited + x.waiting.card

theorem fuel_start (hi : g.Indexed FlowEdge.source FlowEdge.target) (s : Node) :
    (Search.start s).fuel g = g.edges.length + 1 := by
  simp [Search.fuel, Search.start, unvisited, hi.size]

theorem Turn.fuel_eq {x y : Search} (h : g.Turn x y) : y.fuel g + 1 = x.fuel g := by
  cases h with
  | skip seen =>
      simp only [Search.fuel, Multiset.card_cons]
      omega
  | visit new =>
      have hedges := g.unvisited_cons new
      simp only [Search.fuel, Multiset.card_add, Multiset.coe_card, Multiset.card_cons]
      omega

theorem Turns.fuel_eq {k : Nat} {x y : Search} (h : g.Turns k x y) :
    y.fuel g + k = x.fuel g := by
  induction h with
  | none x => rfl
  | more first rest ih =>
      have hfirst := first.fuel_eq
      omega

/-! ## Turns explore -/

/-- What is known of a search from a node at any time. -/
structure Search.Explores (g : ControlFlow) (s : Node) (x : Search) : Prop where
  nodup : x.visited.Nodup
  start : s ∈ x.visited ∨ s ∈ x.waiting
  visited : ∀ n ∈ x.visited, g.Path s n
  waiting : ∀ n ∈ x.waiting, g.Path s n
  /-- Where an edge leads from a visited node has been visited, or waits. -/
  closed : ∀ n ∈ x.visited, ∀ r, g.Leads n r → r ∈ x.visited ∨ r ∈ x.waiting

theorem explores_start (g : ControlFlow) (s : Node) : (Search.start s).Explores g s where
  nodup := List.nodup_nil
  start := .inr (Multiset.mem_singleton_self s)
  visited := fun _ hn => absurd hn List.not_mem_nil
  waiting := fun _ hn => Multiset.mem_singleton.mp hn ▸ .refl
  closed := fun _ hn => absurd hn List.not_mem_nil

theorem Turn.explores (hi : g.Indexed FlowEdge.source FlowEdge.target) {s : Node}
    {x y : Search} (h : g.Turn x y) (hx : x.Explores g s) : y.Explores g s := by
  obtain ⟨hnodup, hstart, hvisited, hwaiting, hclosed⟩ := hx
  cases h with
  | @skip n visited waiting seen =>
      -- Only a node that was visited before stops waiting.
      have hkept : ∀ {r}, r ∈ visited ∨ r ∈ n ::ₘ waiting → r ∈ visited ∨ r ∈ waiting := by
        intro r hr
        rcases hr with hr | hr
        · exact .inl hr
        · rcases Multiset.mem_cons.mp hr with rfl | hr
          · exact .inl seen
          · exact .inr hr
      exact
        { nodup := hnodup
          start := hkept hstart
          visited := hvisited
          waiting := fun r hr => hwaiting r (Multiset.mem_cons_of_mem hr)
          closed := fun r hr q hq => hkept (hclosed r hr q hq) }
  | @visit n visited waiting new =>
      have hn : g.Path s n := hwaiting n (Multiset.mem_cons_self n waiting)
      have hkept : ∀ {r}, r ∈ visited ∨ r ∈ n ::ₘ waiting →
          r ∈ n :: visited ∨ r ∈ (g.succs n : Multiset Node) + waiting := by
        intro r hr
        rcases hr with hr | hr
        · exact .inl (List.mem_cons_of_mem n hr)
        · rcases Multiset.mem_cons.mp hr with rfl | hr
          · exact .inl List.mem_cons_self
          · exact .inr (Multiset.mem_add.mpr (.inr hr))
      refine ⟨List.nodup_cons.mpr ⟨new, hnodup⟩, hkept hstart, ?_, ?_, ?_⟩
      · intro r hr
        rcases List.mem_cons.mp hr with rfl | hr
        · exact hn
        · exact hvisited r hr
      · intro r hr
        rcases Multiset.mem_add.mp hr with hr | hr
        · exact hn.tail ((mem_succs_iff hi).mp hr)
        · exact hwaiting r (Multiset.mem_cons_of_mem hr)
      · intro r hr q hq
        rcases List.mem_cons.mp hr with rfl | hr
        · exact .inr (Multiset.mem_add.mpr (.inl ((mem_succs_iff hi).mpr hq)))
        · exact hkept (hclosed r hr q hq)

theorem Turns.explores (hi : g.Indexed FlowEdge.source FlowEdge.target) {s : Node} {k : Nat}
    {x y : Search} (h : g.Turns k x y) (hx : x.Explores g s) : y.Explores g s := by
  induction h with
  | none x => exact hx
  | more first rest ih => exact ih (first.explores hi hx)

/-- Once nothing waits, the visited nodes are those to which a path leads. -/
theorem Search.Explores.mem_visited_iff {s : Node} {x : Search} (hx : x.Explores g s)
    (hdone : x.waiting = 0) {n : Node} : n ∈ x.visited ↔ g.Path s n := by
  have hvisited : ∀ {r}, r ∈ x.visited ∨ r ∈ x.waiting → r ∈ x.visited := by
    intro r hr
    rcases hr with hr | hr
    · exact hr
    · rw [hdone] at hr
      exact absurd hr (Multiset.notMem_zero r)
  constructor
  · exact hx.visited n
  · intro hpath
    induction hpath with
    | refl => exact hvisited hx.start
    | tail _ hlast ih => exact hvisited (hx.closed _ ih _ hlast)

/-! ## The search of a stack -/

/-- Searching a stack is taking turns until nothing waits. -/
theorem exists_turns_visit (g : ControlFlow) (visited stack : List Node) :
    ∃ k, g.Turns k ⟨visited, stack⟩ ⟨g.visit visited stack, 0⟩ := by
  fun_induction visit g visited stack with
  | case1 visited => exact ⟨0, .none _⟩
  | case2 visited n rest seen ih =>
      obtain ⟨k, hk⟩ := ih
      rw [← Multiset.cons_coe]
      exact ⟨k + 1, .more (.skip seen) hk⟩
  | case3 visited n rest new ih =>
      obtain ⟨k, hk⟩ := ih
      rw [← Multiset.coe_add] at hk
      rw [← Multiset.cons_coe]
      exact ⟨k + 1, .more (.visit new) hk⟩

/-- A path stays among the nodes of the graph. -/
theorem mem_nodes_of_path {m : Method} (hg : build m = .ok g) {s n : Node} (hs : s ∈ g.nodes)
    (h : g.Path s n) : n ∈ g.nodes := by
  induction h with
  | refl => exact hs
  | tail _ hlast _ =>
      obtain ⟨e, he, -, rfl⟩ := hlast
      rw [nodes, method_of_build hg]
      exact (mem_nodes_of_build hg he).2

/-- **A search finds what paths lead to, and ends.** It lists each node of the graph to which a path
leads from the start, once, and no others. It gets there by turns. Whatever waiting node each of
them takes, there is at most one turn more than there are edges, and wherever no turn is left the
same nodes have been visited. -/
theorem reachableFrom_exact {m : Method} {g : ControlFlow} (hg : build m = .ok g) {s : Node}
    (hs : s ∈ g.nodes) :
    (∀ n, n ∈ g.reachableFrom s ↔ g.Path s n) ∧
      (g.reachableFrom s).Nodup ∧ (∀ n ∈ g.reachableFrom s, n ∈ g.nodes) ∧
      (∃ k, g.Turns k (.start s) ⟨g.reachableFrom s, 0⟩) ∧
      ∀ k x, g.Turns k (.start s) x →
        k ≤ g.edges.length + 1 ∧
          ((¬ ∃ y, g.Turn x y) → ∀ n, n ∈ x.visited ↔ n ∈ g.reachableFrom s) := by
  obtain ⟨k, hturns⟩ := g.exists_turns_visit [] [s]
  have hi := indexed_of_build hg
  have hend := hturns.explores hi (explores_start g s)
  have hreached : ∀ n, n ∈ g.reachableFrom s ↔ g.Path s n := fun n => hend.mem_visited_iff rfl
  refine ⟨hreached, hend.nodup, ?_, ⟨k, hturns⟩, ?_⟩
  · intro n hn
    exact mem_nodes_of_path hg hs ((hreached n).mp hn)
  · intro j x hx
    have hfuel := hx.fuel_eq
    rw [fuel_start hi] at hfuel
    refine ⟨by omega, fun hdone n => ?_⟩
    rw [exists_turn_iff, not_not] at hdone
    rw [hreached]
    exact (hx.explores hi (explores_start g s)).mem_visited_iff hdone

end ConstFlow.ControlFlow

namespace ConstFlow

namespace Sample

/-- Two branches back to the start of a loop that nothing leaves. -/
def rounds : Method :=
  .of "rounds" []
    [⟨1, .branch .lt ⟨"rounds", "x"⟩ ⟨"rounds", "y"⟩ "top"⟩,
      ⟨2, .branch .lt ⟨"rounds", "y"⟩ ⟨"rounds", "x"⟩ "top"⟩,
      ⟨3, .jump "top"⟩,
      ⟨4, .ret none⟩]
    (.set .empty "top" 0)

end Sample

/-- The loop is searched from inside: neither its entry nor what comes after it is found. -/
theorem ControlFlow.reachableFrom_exact_sample :
    let m := Sample.rounds
    ∃ g, build m = .ok g ∧ m.nodeAt 1 ∈ g.nodes ∧
      (∀ n, n ∈ g.reachableFrom (m.nodeAt 1) ↔ g.Path (m.nodeAt 1) n) ∧
      g.reachableFrom (m.nodeAt 1) = [m.nodeAt 2, m.nodeAt 0, m.nodeAt 1] ∧
      ¬ g.Path (m.nodeAt 1) m.exit ∧
      ∀ k x, g.Turns k (.start (m.nodeAt 1)) x → k ≤ 7 + 1 := by
  intro m
  have hg : build m = .ok (drawn m m.flowEdges) := rfl
  have hnodes : m.nodeAt 1 ∈ (drawn m m.flowEdges).nodes := m.nodeAt_mem_nodes 1
  obtain ⟨hreached, -, -, -, hturns⟩ := reachableFrom_exact hg hnodes
  refine ⟨_, hg, hnodes, hreached, by decide +kernel, ?_, fun k x h => (hturns k x h).1⟩
  rw [← hreached]
  decide +kernel

end ConstFlow
