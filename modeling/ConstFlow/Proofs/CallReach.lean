import Mathlib.Data.List.Nodup
import ConstFlow.Graph.CallGraph

/-!
# The methods of a call graph

Exploring from the entry methods gives a list of methods of the program that holds the entries,
names no method twice, and is closed under calls: a defined method that is called from a method of
the list is in the list. It holds nothing more than that asks for (`CallGraph.reachable_forall`), so
it has just the methods to which chains of calls lead (`CallGraph.mem_reachable_iff`).

The search is followed in two views. One is its `Frontier`, the methods that were reached and those
that are queued. Everything that was reached is either still queued or has had its callees reached
(`Frontier.Explores`); when the queue is empty, that is closure. Methods are told apart by their
names. This is the same as telling them apart as they are, since a program does not define a name
twice (`Program.eq_of_name_eq`).

The other view is what the search has entered. After some calls were looked at, the two lists and
the two maps of the graph hold these calls and no others (`CallGraph.Holds`), each call that is
looked at adds itself, and the methods that were looked at are those reached but not queued. So in
the end all four hold the calls of the reachable methods (`CallGraph.Built`).
-/

namespace ConstFlow

theorem except_bind_eq_ok {ε α β : Type} {x : Except ε α} {f : α → Except ε β} {b : β}
    (h : x >>= f = .ok b) : ∃ a, x = .ok a ∧ f a = .ok b := by
  cases x with
  | error e => cases h
  | ok a => exact ⟨a, rfl, h⟩

theorem exists_first_of_not_forall {α : Type} {P : α → Prop} [DecidablePred P] {as : List α}
    (h : ¬ ∀ a ∈ as, P a) :
    ∃ before a after, as = before ++ a :: after ∧ ¬ P a ∧ ∀ b ∈ before, P b := by
  cases hfind : as.find? fun a => decide (¬ P a) with
  | none =>
      have hall := List.find?_eq_none.mp hfind
      simp only [decide_eq_true_eq, not_not] at hall
      exact absurd hall h
  | some a =>
      obtain ⟨ha, before, after, has, hbefore⟩ := List.find?_eq_some_iff_append.mp hfind
      refine ⟨before, a, after, has, of_decide_eq_true ha, fun b hb => ?_⟩
      simpa using hbefore b hb

/-! ## Methods by name -/

namespace Program

theorem eq_of_name_eq {p : Program} {m c : Method} (hm : m ∈ p.methods) (hc : c ∈ p.methods)
    (h : m.name = c.name) : m = c := List.inj_on_of_nodup_map p.distinct hm hc h

theorem find?_name {p : Program} {m : Method} (h : m ∈ p.methods) : p.find? m.name = some m := by
  cases hfind : p.find? m.name with
  | none => exact absurd (decide_eq_true rfl) (List.find?_eq_none.mp hfind m h)
  | some c =>
      have hname : c.name = m.name := by simpa using List.find?_some hfind
      rw [eq_of_name_eq (List.mem_of_find?_eq_some hfind) h hname]

theorem mem_of_find? {p : Program} {name : Text} {m : Method} (h : p.find? name = some m) :
    m ∈ p.methods := List.mem_of_find?_eq_some h

/-- The defined methods that a method calls, in the order of the calls. -/
def callees (p : Program) (m : Method) : List Method := m.callSites.filterMap p.resolve?

theorem mem_of_mem_callees {p : Program} {m c : Method} (h : c ∈ p.callees m) :
    c ∈ p.methods := by
  obtain ⟨n, -, hn⟩ := List.mem_filterMap.mp h
  exact mem_of_resolve? hn

end Program

/-! ## Reaching methods -/

/-- A queue of methods to look at, and all methods that were reached. -/
structure Frontier where
  queue : List Method
  reached : List Method

namespace Frontier

/-- Reach methods one after another; one that is new is looked at later. -/
def reach (f : Frontier) : List Method → Frontier
  | [] => f
  | c :: cs =>
    if c.name ∈ f.reached.map Method.name then f.reach cs
    else reach ⟨f.queue ++ [c], f.reached ++ [c]⟩ cs

theorem reach_cons (f : Frontier) (c : Method) (cs : List Method) :
    f.reach (c :: cs) = (f.reach [c]).reach cs := by
  simp only [reach]
  split <;> rfl

theorem reach_append (cs ds : List Method) :
    ∀ f : Frontier, f.reach (cs ++ ds) = (f.reach cs).reach ds := by
  induction cs with
  | nil => exact fun f => rfl
  | cons c cs ih =>
      intro f
      rw [List.cons_append, reach_cons, ih, ← reach_cons]

/-- What is new is queued and reached alike. -/
theorem exists_new (cs : List Method) : ∀ f : Frontier,
    ∃ new, (f.reach cs).reached = f.reached ++ new ∧ (f.reach cs).queue = f.queue ++ new := by
  induction cs with
  | nil => exact fun f => ⟨[], by simp [reach]⟩
  | cons c cs ih =>
      intro f
      unfold reach
      split
      · exact ih f
      · obtain ⟨new, hreached, hqueue⟩ := ih ⟨f.queue ++ [c], f.reached ++ [c]⟩
        exact ⟨c :: new, by simp [hreached], by simp [hqueue]⟩

theorem mem_reached_of_mem (cs : List Method) :
    ∀ (f : Frontier) {m : Method}, m ∈ f.reached → m ∈ (f.reach cs).reached := by
  induction cs with
  | nil => exact fun f m hm => hm
  | cons c cs ih =>
      intro f m hm
      unfold reach
      split
      · exact ih f hm
      · exact ih _ (List.mem_append_left _ hm)

theorem mem_queue_of_mem (cs : List Method) :
    ∀ (f : Frontier) {m : Method}, m ∈ f.queue → m ∈ (f.reach cs).queue := by
  induction cs with
  | nil => exact fun f m hm => hm
  | cons c cs ih =>
      intro f m hm
      unfold reach
      split
      · exact ih f hm
      · exact ih _ (List.mem_append_left _ hm)

/-- What is reached newly is queued. -/
theorem mem_of_mem_reach (cs : List Method) :
    ∀ (f : Frontier) {m : Method}, m ∈ (f.reach cs).reached →
      m ∈ f.reached ∨ m ∈ cs ∧ m ∈ (f.reach cs).queue := by
  induction cs with
  | nil => exact fun f m hm => Or.inl hm
  | cons c cs ih =>
      intro f m hm
      unfold reach at hm ⊢
      split at hm
      · rename_i hc
        rw [if_pos hc]
        exact (ih f hm).imp_right fun h => ⟨List.mem_cons_of_mem c h.1, h.2⟩
      · rename_i hc
        rw [if_neg hc]
        rcases ih _ hm with h | h
        · rcases List.mem_append.mp h with h | h
          · exact Or.inl h
          · obtain rfl := List.mem_singleton.mp h
            exact Or.inr ⟨List.mem_cons_self, mem_queue_of_mem cs _ (List.mem_append_right _ h)⟩
        · exact Or.inr ⟨List.mem_cons_of_mem c h.1, h.2⟩

/-- Reached and queued methods are methods of the program, no name is reached twice, and whatever
is queued has been reached. -/
structure Sound (p : Program) (f : Frontier) : Prop where
  defined : ∀ m ∈ f.reached, m ∈ p.methods
  distinct : (f.reached.map Method.name).Nodup
  queued : ∀ m ∈ f.queue, m ∈ f.reached

/-- Every reached method is queued, or its callees are reached. -/
def Explores (p : Program) (f : Frontier) : Prop :=
  ∀ m ∈ f.reached, m ∈ f.queue ∨ ∀ c ∈ p.callees m, c ∈ f.reached

theorem sound_nil (p : Program) : (Frontier.mk [] []).Sound p :=
  ⟨fun _ hm => absurd hm List.not_mem_nil, List.nodup_nil, fun _ hm => absurd hm List.not_mem_nil⟩

theorem Sound.add {p : Program} {f : Frontier} (hf : f.Sound p) {c : Method} (hc : c ∈ p.methods)
    (hn : c.name ∉ f.reached.map Method.name) :
    (Frontier.mk (f.queue ++ [c]) (f.reached ++ [c])).Sound p := by
  refine ⟨?_, ?_, ?_⟩
  · simp only [List.mem_append, List.mem_singleton]
    rintro m (hm | rfl)
    · exact hf.defined m hm
    · exact hc
  · simp only [List.map_append, List.map_cons, List.map_nil]
    exact hf.distinct.append (List.nodup_singleton _) (List.disjoint_singleton.mpr hn)
  · simp only [List.mem_append, List.mem_singleton]
    rintro m (hm | rfl)
    · exact Or.inl (hf.queued m hm)
    · exact Or.inr rfl

theorem Sound.reach {p : Program} {cs : List Method} (hcs : ∀ c ∈ cs, c ∈ p.methods) :
    ∀ {f : Frontier}, f.Sound p → (f.reach cs).Sound p := by
  induction cs with
  | nil => exact fun hf => hf
  | cons c cs ih =>
      rw [List.forall_mem_cons] at hcs
      intro f hf
      unfold Frontier.reach
      split
      · exact ih hcs.2 hf
      · rename_i hc
        exact ih hcs.2 (hf.add hcs.1 hc)

/-- A method of the program is reached if its name is. -/
theorem Sound.mem_of_name {p : Program} {f : Frontier} (hf : f.Sound p) {c : Method}
    (hc : c ∈ p.methods) (hn : c.name ∈ f.reached.map Method.name) : c ∈ f.reached := by
  obtain ⟨m, hm, hmn⟩ := List.mem_map.mp hn
  obtain rfl := Program.eq_of_name_eq (hf.defined m hm) hc hmn
  exact hm

/-- All methods that are to be reached are. -/
theorem Sound.mem_reach {p : Program} {cs : List Method} (hcs : ∀ c ∈ cs, c ∈ p.methods) :
    ∀ {f : Frontier}, f.Sound p → ∀ c ∈ cs, c ∈ (f.reach cs).reached := by
  induction cs with
  | nil => intro f _ c hc; cases hc
  | cons d cs ih =>
      rw [List.forall_mem_cons] at hcs
      intro f hf c hc
      unfold Frontier.reach
      split
      · rename_i hname
        rcases List.mem_cons.mp hc with rfl | hc
        · exact mem_reached_of_mem cs f (hf.mem_of_name hcs.1 hname)
        · exact ih hcs.2 hf c hc
      · rename_i hname
        rcases List.mem_cons.mp hc with rfl | hc
        · exact mem_reached_of_mem cs _ (List.mem_append_right _ List.mem_cons_self)
        · exact ih hcs.2 (hf.add hcs.1 hname) c hc

theorem Sound.pop {p : Program} {m : Method} {rest reached : List Method}
    (hs : (Frontier.mk (m :: rest) reached).Sound p) : (Frontier.mk rest reached).Sound p :=
  ⟨hs.defined, hs.distinct, fun c hc => hs.queued c (List.mem_cons_of_mem m hc)⟩

theorem Sound.step {p : Program} {m : Method} {rest reached : List Method}
    (hs : (Frontier.mk (m :: rest) reached).Sound p) :
    (Frontier.reach ⟨rest, reached⟩ (p.callees m)).Sound p :=
  hs.pop.reach fun _ hc => Program.mem_of_mem_callees hc

/-- Looking at a queued method and reaching what it calls keeps the invariant. -/
theorem Explores.step {p : Program} {m : Method} {rest reached : List Method}
    (hs : (Frontier.mk (m :: rest) reached).Sound p)
    (hx : (Frontier.mk (m :: rest) reached).Explores p) :
    (Frontier.reach ⟨rest, reached⟩ (p.callees m)).Explores p := by
  intro c hc
  rcases mem_of_mem_reach _ _ hc with hold | ⟨-, hnew⟩
  · by_cases hcm : c = m
    · refine Or.inr fun d hd => hs.pop.mem_reach (fun e he => ?_) d (hcm ▸ hd)
      exact Program.mem_of_mem_callees he
    · rcases hx c hold with hq | hall
      · exact Or.inl (mem_queue_of_mem _ _ ((List.mem_cons.mp hq).resolve_left hcm))
      · exact Or.inr fun d hd => mem_reached_of_mem _ _ (hall d hd)
  · exact Or.inl hnew

end Frontier

/-- The result of a search: methods of the program, none named twice, closed under calls. -/
structure Program.CallClosed (p : Program) (ms : List Method) : Prop where
  defined : ∀ m ∈ ms, m ∈ p.methods
  distinct : (ms.map Method.name).Nodup
  closed : ∀ m ∈ ms, ∀ c ∈ p.callees m, c ∈ ms

/-! ## Exploring -/

namespace CallGraph

namespace Search

/-- Two searches are of the same program and from the same entries. -/
def Kin (s s' : Search) : Prop :=
  s'.graph.program = s.graph.program ∧ s'.graph.entries = s.graph.entries

theorem kin_reach (s : Search) (m : Method) : s.Kin (s.reach m) := by
  unfold reach
  split <;> exact ⟨rfl, rfl⟩

theorem kin_foldl_reach (ms : List Method) : ∀ s : Search, s.Kin (ms.foldl reach s) := by
  induction ms with
  | nil => exact fun s => ⟨rfl, rfl⟩
  | cons m ms ih =>
      intro s
      exact ⟨(ih _).1.trans (s.kin_reach m).1, (ih _).2.trans (s.kin_reach m).2⟩

theorem kin_lookAt (s : Search) (n : Node) : s.Kin (s.lookAt n) := by
  unfold lookAt
  split
  · exact ⟨rfl, rfl⟩
  · exact kin_reach { s with graph := s.graph.addEdge n _ } _

theorem kin_foldl_lookAt (ns : List Node) : ∀ s : Search, s.Kin (ns.foldl lookAt s) := by
  induction ns with
  | nil => exact fun s => ⟨rfl, rfl⟩
  | cons n ns ih =>
      intro s
      exact ⟨(ih _).1.trans (s.kin_lookAt n).1, (ih _).2.trans (s.kin_lookAt n).2⟩

/-- A search without the calls that it has entered. -/
def frontier (s : Search) : Frontier := ⟨s.queue, s.graph.reachable⟩

theorem frontier_reach (s : Search) (m : Method) : (s.reach m).frontier = s.frontier.reach [m] := by
  unfold reach Frontier.reach
  split
  · rename_i h
    exact (if_pos h).symm
  · rename_i h
    exact (if_neg h).symm

theorem frontier_foldl_reach (ms : List Method) :
    ∀ s : Search, (ms.foldl reach s).frontier = s.frontier.reach ms := by
  induction ms with
  | nil => exact fun s => rfl
  | cons m ms ih =>
      intro s
      rw [List.foldl_cons, ih, frontier_reach, ← Frontier.reach_cons]

theorem frontier_lookAt (s : Search) (n : Node) :
    (s.lookAt n).frontier = s.frontier.reach (s.graph.program.resolve? n).toList := by
  unfold lookAt
  cases s.graph.program.resolve? n with
  | none => rfl
  | some callee => exact frontier_reach _ callee

/-- Looking at calls reaches what they call. -/
theorem frontier_foldl_lookAt (ns : List Node) :
    ∀ s : Search, (ns.foldl lookAt s).frontier =
      s.frontier.reach (ns.filterMap s.graph.program.resolve?) := by
  induction ns with
  | nil => exact fun s => rfl
  | cons n ns ih =>
      intro s
      rw [List.foldl_cons, ih, frontier_lookAt, (s.kin_lookAt n).1, ← Frontier.reach_append]
      congr 1
      cases h : s.graph.program.resolve? n <;> simp [h]

theorem frontier_step {p : Program} {g : CallGraph} (hg : g.program = p) (m : Method)
    (rest : List Method) :
    (m.callSites.foldl lookAt ⟨g, rest⟩).frontier =
      Frontier.reach ⟨rest, g.reachable⟩ (p.callees m) := by
  rw [frontier_foldl_lookAt]
  subst hg
  rfl

end Search

section

variable {p : Program}

theorem kin_explore (s : Search) :
    (explore s).program = s.graph.program ∧ (explore s).entries = s.graph.entries := by
  fun_induction explore s with
  | case1 g => exact ⟨rfl, rfl⟩
  | case2 g m rest ih =>
      have hkin := Search.kin_foldl_lookAt m.callSites ⟨g, rest⟩
      exact ⟨ih.1.trans hkin.1, ih.2.trans hkin.2⟩

theorem mem_explore_of_mem (s : Search) :
    ∀ {m : Method}, m ∈ s.graph.reachable → m ∈ (explore s).reachable := by
  fun_induction explore s with
  | case1 g => exact fun hm => hm
  | case2 g m rest ih =>
      intro c hc
      apply ih
      show c ∈ (Search.frontier _).reached
      rw [Search.frontier_step rfl]
      exact Frontier.mem_reached_of_mem _ _ hc

theorem explore_closed (s : Search) (hp : s.graph.program = p) (hs : s.frontier.Sound p)
    (hx : s.frontier.Explores p) : p.CallClosed (explore s).reachable := by
  fun_induction explore s with
  | case1 g => exact ⟨hs.defined, hs.distinct, fun m hm => (hx m hm).resolve_left List.not_mem_nil⟩
  | case2 g m rest ih =>
      refine ih ((Search.kin_foldl_lookAt _ _).1.trans hp) ?_ ?_
      · rw [Search.frontier_step hp]
        exact Frontier.Sound.step hs
      · rw [Search.frontier_step hp]
        exact Frontier.Explores.step hs hx

/-- The search finds nothing but what is true of where it starts and of callees. -/
theorem explore_forall {P : Method → Prop} (hclosed : ∀ m, P m → ∀ c ∈ p.callees m, P c)
    (s : Search) (hp : s.graph.program = p) (hs : s.frontier.Sound p)
    (hP : ∀ m ∈ s.graph.reachable, P m) : ∀ m ∈ (explore s).reachable, P m := by
  fun_induction explore s with
  | case1 g => exact hP
  | case2 g m rest ih =>
      have hm : P m := hP m (hs.queued m List.mem_cons_self)
      have hstep := Search.frontier_step hp m rest
      refine ih ((Search.kin_foldl_lookAt _ _).1.trans hp) ?_ ?_
      · rw [hstep]
        exact Frontier.Sound.step hs
      · show ∀ c ∈ (Search.frontier _).reached, P c
        rw [hstep]
        intro c hc
        rcases Frontier.mem_of_mem_reach _ _ hc with hold | ⟨hcall, -⟩
        · exact hP c hold
        · exact hclosed m hm c hcall

end

/-! ## What is entered -/

/-- The calls that are entered are some calls, in that order, and the maps agree with the lists. -/
structure Holds (g : CallGraph) (sites : List Node) : Prop where
  edges : g.edges = sites.filterMap fun n => (g.program.resolve? n).map fun m => ⟨n, m⟩
  unresolved : g.unresolved = sites.filter fun n => (g.program.resolve? n).isNone
  callees : ∀ n, g.calleesOf n = (g.edges.filter fun e => e.site = n).map CallEdge.callee
  resolved : ∀ n, g.callees.contains n = true ↔ n ∈ g.edges.map CallEdge.site
  callers : ∀ name, g.callers.listAt name =
    (g.edges.filter fun e => e.callee.name = name).map CallEdge.site

theorem holds_bare (p : Program) (entries : List Method) : (bare p entries).Holds [] where
  edges := rfl
  unresolved := rfl
  callees := fun _ => rfl
  resolved := fun _ => by simp [bare, Assoc.contains, Assoc.keys, Assoc.empty]
  callers := fun _ => rfl

namespace Holds

variable {g : CallGraph} {sites : List Node}

theorem congr {g' : CallGraph} (h : g.Holds sites) (hprogram : g'.program = g.program)
    (hedges : g'.edges = g.edges) (hunresolved : g'.unresolved = g.unresolved)
    (hcallees : g'.callees = g.callees) (hcallers : g'.callers = g.callers) : g'.Holds sites := by
  obtain ⟨edges, unresolved, callees, resolved, callers⟩ := h
  simp only [calleesOf] at callees
  constructor <;> simp only [calleesOf, hprogram, hedges, hunresolved, hcallees, hcallers] <;>
    assumption

theorem reach {s : Search} (h : s.graph.Holds sites) (m : Method) :
    (s.reach m).graph.Holds sites := by
  unfold Search.reach
  split
  · exact h
  · exact h.congr rfl rfl rfl rfl rfl

theorem addUnresolved (h : g.Holds sites) {n : Node} (hn : g.program.resolve? n = none) :
    (g.addUnresolved n).Holds (sites ++ [n]) where
  edges := by simp [CallGraph.addUnresolved, h.edges, hn]
  unresolved := by simp [CallGraph.addUnresolved, h.unresolved, hn]
  callees := h.callees
  resolved := h.resolved
  callers := h.callers

theorem addEdge (h : g.Holds sites) {n : Node} {m : Method} (hn : g.program.resolve? n = some m) :
    (g.addEdge n m).Holds (sites ++ [n]) where
  edges := by simp [CallGraph.addEdge, h.edges, hn]
  unresolved := by simp [CallGraph.addEdge, h.unresolved, hn]
  callees := Assoc.listAt_push_filter h.callees ⟨n, m⟩
  resolved := fun n' => by
    have hold := h.resolved n'
    simp only [Assoc.contains, decide_eq_true_eq] at hold ⊢
    simp only [CallGraph.addEdge, Assoc.push, Assoc.keys_set, List.map_append, List.mem_append,
      List.map_singleton, List.mem_singleton, ← hold]
    split
    · rename_i hmem
      exact ⟨.inl, fun h => h.elim id fun hnn => hnn ▸ hmem⟩
    · rw [List.mem_append, List.mem_singleton]
  callers := Assoc.listAt_push_filter h.callers ⟨n, m⟩

theorem lookAt {s : Search} (h : s.graph.Holds sites) (n : Node) :
    (s.lookAt n).graph.Holds (sites ++ [n]) := by
  unfold Search.lookAt
  split
  · rename_i hn
    exact h.addUnresolved hn
  · rename_i callee hn
    exact reach (h.addEdge hn) callee

theorem foldl_lookAt (ns : List Node) : ∀ {s : Search} {sites : List Node}, s.graph.Holds sites →
    (ns.foldl Search.lookAt s).graph.Holds (sites ++ ns) := by
  induction ns with
  | nil => exact fun h => by simpa using h
  | cons n ns ih => exact fun h => by simpa using ih (h.lookAt n)

theorem foldl_reach (ms : List Method) : ∀ {s : Search}, s.graph.Holds sites →
    (ms.foldl Search.reach s).graph.Holds sites := by
  induction ms with
  | nil => exact fun h => h
  | cons m ms ih => exact fun h => ih (h.reach m)

end Holds

/-- A search whose reached methods are those that it has looked at and those that are queued enters
the calls of all of them. -/
theorem holds_explore (s : Search) (seen : List Method)
    (hsplit : s.graph.reachable = seen ++ s.queue)
    (h : s.graph.Holds (seen.flatMap Method.callSites)) :
    (explore s).Holds ((explore s).reachable.flatMap Method.callSites) := by
  fun_induction explore s generalizing seen with
  | case1 g =>
      rw [List.append_nil] at hsplit
      exact hsplit ▸ h
  | case2 g m rest ih =>
      have hstep := Search.frontier_step rfl m rest (g := g)
      obtain ⟨new, hreached, hqueue⟩ :=
        Frontier.exists_new (g.program.callees m) ⟨rest, g.reachable⟩
      rw [← hstep] at hreached hqueue
      refine ih (seen ++ [m]) ?_ ?_
      · refine hreached.trans ?_
        rw [show Search.queue _ = rest ++ new from hqueue]
        simp only at hsplit ⊢
        rw [hsplit]
        simp
      · rw [List.flatMap_append, List.flatMap_singleton]
        exact Holds.foldl_lookAt (s := ⟨g, rest⟩) m.callSites h

end CallGraph

/-- The methods to which a chain of calls leads from an entry. -/
inductive Program.Reaches (p : Program) (names : List Text) : Method → Prop where
  | entry {name : Text} {m : Method} (named : name ∈ names) (defined : p.find? name = some m) :
      Reaches p names m
  | call {m c : Method} (caller : Reaches p names m) (callee : c ∈ p.callees m) :
      Reaches p names c

/-! ## Call graphs -/

namespace CallGraph

/-- The methods found are those that are named, besides those found before. -/
theorem mem_entryMethods_iff {p : Program} {m : Method} :
    ∀ {names : List Text} {found ms : List Method}, entryMethods p found names = .ok ms →
      (m ∈ ms ↔ m ∈ found ∨ ∃ name ∈ names, p.find? name = some m)
  | [], found, ms, h => by
      obtain rfl := Except.ok.inj h
      simp
  | name :: rest, found, ms, h => by
      simp only [entryMethods] at h
      split at h
      · cases h
      · rename_i c hc
        have hadd : m ∈ (if c ∈ found then found else found ++ [c]) ↔ m ∈ found ∨ c = m := by
          split
          · rename_i hmem
            exact ⟨Or.inl, fun h => h.elim id fun h => h ▸ hmem⟩
          · rw [List.mem_append, List.mem_singleton, eq_comm (a := m)]
        rw [mem_entryMethods_iff h, hadd, or_assoc]
        simp [hc]

/-- The methods of some names are found if and only if all the names are defined. -/
theorem exists_entryMethods_iff {p : Program} :
    ∀ {names : List Text} {found : List Method},
      (∃ ms, entryMethods p found names = .ok ms) ↔ ∀ name ∈ names, ∃ m, p.find? name = some m
  | [], found => by simp [entryMethods]
  | name :: rest, found => by
      rw [List.forall_mem_cons]
      simp only [entryMethods]
      split
      · rename_i hnone
        simp [hnone]
      · rename_i m hm
        rw [exists_entryMethods_iff]
        simp [hm]

theorem frontier_start (p : Program) (entries : List Method) :
    (start p entries).frontier = (Frontier.mk [] []).reach entries :=
  Search.frontier_foldl_reach entries _

theorem exists_build_iff {p : Program} {names : List Text} :
    (∃ g, build p names = .ok g) ↔ ∀ name ∈ names, ∃ m, p.find? name = some m := by
  rw [← @exists_entryMethods_iff p names []]
  constructor
  · rintro ⟨g, h⟩
    obtain ⟨ms, he, -⟩ := except_bind_eq_ok h
    exact ⟨ms, he⟩
  · rintro ⟨ms, he⟩
    exact ⟨explore (start p ms), by rw [build, he]; rfl⟩

theorem program_start (p : Program) (entries : List Method) :
    (start p entries).graph.program = p := (Search.kin_foldl_reach entries _).1

theorem entries_explore_start (p : Program) (entries : List Method) :
    (explore (start p entries)).entries = entries :=
  (kin_explore _).2.trans (Search.kin_foldl_reach entries _).2

theorem of_build {p : Program} {names : List Text} {g : CallGraph} (h : build p names = .ok g) :
    ∃ ms, entryMethods p [] names = .ok ms ∧ explore (start p ms) = g := by
  obtain ⟨ms, he, h⟩ := except_bind_eq_ok h
  exact ⟨ms, he, Except.ok.inj h⟩

section

variable {p : Program} {names : List Text} {g : CallGraph} (h : build p names = .ok g)
include h

theorem mem_entries_iff {m : Method} :
    m ∈ g.entries ↔ ∃ name ∈ names, p.find? name = some m := by
  obtain ⟨ms, he, rfl⟩ := of_build h
  rw [entries_explore_start, mem_entryMethods_iff he, or_iff_right List.not_mem_nil]

theorem mem_methods_of_mem_entries {m : Method} (hm : m ∈ g.entries) : m ∈ p.methods := by
  obtain ⟨name, -, hfind⟩ := (mem_entries_iff h).mp hm
  exact Program.mem_of_find? hfind

theorem eq_explore : g = explore (start p g.entries) := by
  obtain ⟨ms, -, rfl⟩ := of_build h
  rw [entries_explore_start]

theorem sound_start : (start p g.entries).frontier.Sound p := by
  rw [frontier_start]
  exact (Frontier.sound_nil p).reach fun m hm => mem_methods_of_mem_entries h hm

/-- No method is reachable that does not have to be. -/
theorem reachable_forall {P : Method → Prop} (hentries : ∀ m ∈ g.entries, P m)
    (hclosed : ∀ m, P m → ∀ c ∈ p.callees m, P c) : ∀ m ∈ g.reachable, P m := by
  rw [eq_explore h]
  refine explore_forall hclosed _ (program_start p _) (sound_start h) fun m hm => ?_
  have hm' : m ∈ (start p g.entries).frontier.reached := hm
  rw [frontier_start] at hm'
  exact hentries m ((Frontier.mem_of_mem_reach _ _ hm').resolve_left List.not_mem_nil).1

end

/-- The calls in reachable methods, in the order of their discovery. -/
def sites (g : CallGraph) : List Node := g.reachable.flatMap Method.callSites

/-- A call graph that was built is that of its program, holds its entries, is closed, and holds the
calls of its methods. -/
structure Built (p : Program) (g : CallGraph) : Prop where
  program : g.program = p
  entries : ∀ m ∈ g.entries, m ∈ g.reachable
  reachable : p.CallClosed g.reachable
  holds : g.Holds g.sites

theorem built_of_build {p : Program} {names : List Text} {g : CallGraph}
    (h : build p names = .ok g) : Built p g := by
  have hentries : ∀ m ∈ g.entries, m ∈ p.methods := fun m hm => mem_methods_of_mem_entries h hm
  have hsound := Frontier.sound_nil p
  have hstart : (start p g.entries).frontier.Explores p := by
    rw [frontier_start]
    exact fun m hm => Or.inl ((Frontier.mem_of_mem_reach _ _ hm).resolve_left List.not_mem_nil).2
  have hprogram := program_start p g.entries
  refine ⟨?_, fun m hm => ?_, ?_, ?_⟩
  · rw [eq_explore h, (kin_explore _).1, hprogram]
  · rw [eq_explore h]
    apply mem_explore_of_mem
    show m ∈ (start p g.entries).frontier.reached
    rw [frontier_start]
    exact hsound.mem_reach hentries m hm
  · rw [eq_explore h]
    exact explore_closed _ hprogram (sound_start h) hstart
  · rw [sites, eq_explore h]
    obtain ⟨new, hreached, hqueue⟩ := Frontier.exists_new g.entries ⟨[], []⟩
    rw [← frontier_start p] at hreached hqueue
    exact holds_explore _ [] (hreached.trans hqueue.symm)
      ((holds_bare p g.entries).foldl_reach g.entries)

theorem Built.mem_edges_iff {p : Program} {g : CallGraph} (hg : g.Built p) {n : Node} {m : Method} :
    CallEdge.mk n m ∈ g.edges ↔ n ∈ g.sites ∧ p.resolve? n = some m := by
  rw [hg.holds.edges, hg.program]
  simp

/-- The reachable methods are those to which a chain of calls leads from an entry. -/
theorem mem_reachable_iff {p : Program} {names : List Text} {g : CallGraph}
    (h : build p names = .ok g) {m : Method} : m ∈ g.reachable ↔ p.Reaches names m := by
  constructor
  · refine reachable_forall h (fun m hm => ?_) (fun m hm c hc => hm.call hc) m
    obtain ⟨name, hname, hfind⟩ := (mem_entries_iff h).mp hm
    exact .entry hname hfind
  · intro hm
    have hb := built_of_build h
    induction hm with
    | entry hname hfind => exact hb.entries _ ((mem_entries_iff h).mpr ⟨_, hname, hfind⟩)
    | call _ hc ih => exact hb.reachable.closed _ ih _ hc

end CallGraph

end ConstFlow
