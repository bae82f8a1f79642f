import ConstFlow.Proofs.StraightLine

/-!
# The one run of a straight program

A program that runs straight through has one run, and it stands before every node once.

The machine has no choice (`step_unique`) and goes on until the exit of the first method
(`exists_step`). It never comes to a node twice: the nodes before the two visits would have been the
same already, and so on back to the start, to which nothing leads (`nodup_trace`). There are
finitely many nodes, so the run ends.

That no node is left out is seen from the other end. The exit of the first method is visited; if a
node is visited, so is the one before it in its method; and if all nodes of a method are visited,
then the node after a call was come to from the exit of the callee (`visits_all`).
-/

namespace ConstFlow

namespace Program.StraightLine

variable {p : Program} {names : List Text} {main : Method} (h : p.StraightLine names main)
  {g : Supergraph} (hb : Supergraph.build p names = .ok g)
include h hb

/-! ## Steps -/

/-- The machine has no choice. -/
theorem step_unique {stack s₁ s₂ : List Frame} (hplaced : Stack.Placed p g stack)
    (h₁ : Machine.Step p (· = none) stack s₁) (h₂ : Machine.Step p (· = none) stack s₂) :
    s₁ = s₂ := by
  have hg := Supergraph.built_of_build hb
  have hstay : ∀ {n n' : Node} {m : Method}, n ∈ g.nodes → m ∈ p.methods → n = m.exit →
      n' ∉ p.next n := by
    rintro _ n' m hmem hm rfl
    obtain ⟨k, hk, hnode⟩ := hg.mem_nodes_iff.mp hmem
    obtain rfl := eq_of_mem_nodes (hg.calls.reachable.defined k hk) hm hnode m.exit_mem_nodes
    exact h.not_mem_next_exit hb hk
  have htop := hplaced.nodes
  cases h₁ with
  | run hplain hnext =>
      have hmem := htop _ List.mem_cons_self
      cases h₂ with
      | run _ hnext' => rw [h.next_unique hb hmem hnext hnext']
      | call hsite => rw [hsite] at hplain; cases hplain
      | ret hm hexit => exact absurd hnext (hstay hmem hm hexit)
      | foreignCall hsite => rw [hsite] at hplain; cases hplain
  | call hsite hdefined =>
      cases h₂ with
      | run hplain => rw [hsite] at hplain; cases hplain
      | call hsite' hdefined' =>
          obtain ⟨rfl, rfl, -⟩ := Action.call.inj (hsite.symm.trans hsite')
          rw [Option.some.inj (hdefined.symm.trans hdefined')]
      | ret _ hexit => rw [hexit] at hsite; cases hsite
      | foreignCall hsite' hundefined =>
          obtain ⟨rfl, -⟩ := Action.call.inj (hsite.symm.trans hsite')
          rw [hdefined] at hundefined
          cases hundefined
  | @ret f caller rest _ _ hm hexit hnext =>
      have hmem := htop f List.mem_cons_self
      have hcaller := htop caller (List.mem_cons_of_mem f List.mem_cons_self)
      cases h₂ with
      | run _ hnext' => exact absurd hnext' (hstay hmem hm hexit)
      | call hsite => rw [hexit] at hsite; cases hsite
      | ret _ _ hnext' => rw [h.next_unique hb hcaller hnext hnext']
      | foreignCall hsite => rw [hexit] at hsite; cases hsite
  | foreignCall hsite hundefined hnext hv =>
      have hmem := htop _ List.mem_cons_self
      cases h₂ with
      | run hplain => rw [hsite] at hplain; cases hplain
      | call hsite' hdefined =>
          obtain ⟨rfl, -⟩ := Action.call.inj (hsite.symm.trans hsite')
          rw [hdefined] at hundefined
          cases hundefined
      | ret _ hexit => rw [hexit] at hsite; cases hsite
      | foreignCall hsite' _ hnext' hv' =>
          obtain ⟨-, -, rfl⟩ := Action.call.inj (hsite.symm.trans hsite')
          rw [h.next_unique hb hmem hnext hnext', hv, hv']

/-- At the bottom of a stack, the first method is at work. -/
theorem bottom {stack : List Frame} (hs : Machine.Reachable p names (· = none) stack) :
    ∃ f ∈ stack.getLast?, f.node ∈ main.nodes := by
  have hdef := (Supergraph.built_of_build hb).calls.reachable.defined main (h.main_mem hb)
  -- A frame that goes on inside its method takes the place of one that was there.
  have hgoOn : ∀ {f f' : Frame} {rest : List Frame}, f'.node ∈ p.next f.node →
      (∃ k ∈ (f :: rest).getLast?, k.node ∈ main.nodes) →
      ∃ k ∈ (f' :: rest).getLast?, k.node ∈ main.nodes := by
    rintro f f' (_ | ⟨c, rest⟩) hnext ⟨k, hk, hnode⟩
    · obtain rfl := Option.some.inj hk
      exact ⟨f', rfl, mem_nodes_of_next hdef hnode hnext⟩
    · exact ⟨k, by simpa using hk, hnode⟩
  induction hs with
  | @start name m env hentry hdefined _ =>
      obtain rfl := Option.some.inj ((h.entry name hentry).symm.trans hdefined)
      exact ⟨_, rfl, main.entry_mem_nodes⟩
  | step _ hstep ih =>
      cases hstep with
      | run _ hnext => exact hgoOn hnext ih
      | call =>
          obtain ⟨k, hk, hnode⟩ := ih
          exact ⟨k, by simpa using hk, hnode⟩
      | ret _ _ hnext =>
          refine hgoOn hnext ?_
          obtain ⟨k, hk, hnode⟩ := ih
          exact ⟨k, by simpa using hk, hnode⟩
      | foreignCall _ _ hnext => exact hgoOn hnext ih

/-- The machine goes on until it comes to the exit of the first method. -/
theorem exists_step {stack : List Frame} (hs : Machine.Reachable p names (· = none) stack)
    (hne : Stack.node? stack ≠ some main.exit) :
    ∃ stack', Machine.Step p (· = none) stack stack' := by
  have hg := Supergraph.built_of_build hb
  have hdef := hg.calls.reachable.defined
  have hplaced := hs.placed hb
  obtain ⟨k, hk, hbottom⟩ := h.bottom hb hs
  cases stack with
  | nil => cases hk
  | cons f rest =>
      obtain ⟨m, hm, hnode⟩ := hg.mem_nodes_iff.mp (hplaced.nodes f List.mem_cons_self)
      by_cases hexit : f.node = m.exit
      · cases rest with
        | nil =>
            obtain rfl := Option.some.inj hk
            have hmain := eq_of_mem_nodes (hdef m hm) (hdef main (h.main_mem hb)) hnode hbottom
            exact absurd (congrArg some (hmain ▸ hexit)) hne
        | cons caller rest =>
            -- The caller stands before a call, so it is not at an exit itself.
            obtain ⟨⟨c, hres, -⟩, -⟩ := List.isChain_cons_cons.mp hplaced.linked
            obtain ⟨k, hk, hcaller⟩ := hg.mem_nodes_iff.mp
              (hplaced.nodes caller (List.mem_cons_of_mem f List.mem_cons_self))
            obtain ⟨n, hnext⟩ := h.exists_next hb hk hcaller (by
              rintro heq
              have hcall := isCall_of_resolve? hres
              rw [heq] at hcall
              cases hcall)
            exact ⟨_, .ret (hdef m hm) hexit hnext⟩
      · obtain ⟨n, hnext⟩ := h.exists_next hb hm hnode hexit
        cases ha : f.node.action with
        | call name args receiver =>
            cases hfind : p.find? name with
            | some callee => exact ⟨_, .call ha hfind⟩
            | none => exact ⟨_, .foreignCall ha hfind hnext rfl⟩
        | _ => exact ⟨_, .run (by rw [ha]; rfl) hnext⟩

end Program.StraightLine

/-! ## Traces -/

/-- The states of a run from a first one on, the last state first. -/
inductive Machine.Trace (p : Program) (foreign : Option Word → Prop) (first : List Frame) :
    List (List Frame) → Prop where
  | first : Trace p foreign first [first]
  | step {s s' : List Frame} {before : List (List Frame)}
      (run : Trace p foreign first (s :: before)) (step : Machine.Step p foreign s s') :
      Trace p foreign first (s' :: s :: before)

namespace Machine.Trace

variable {p : Program} {foreign : Option Word → Prop} {first s : List Frame}
  {states : List (List Frame)}

theorem first_mem (h : Trace p foreign first states) : first ∈ states := by
  induction h with
  | first => exact List.mem_singleton_self _
  | step _ _ ih => exact List.mem_cons_of_mem _ ih

theorem isChain (h : Trace p foreign first states) :
    states.reverse.IsChain (Machine.Step p foreign) := by
  rw [List.isChain_reverse]
  induction h with
  | first => exact .singleton _
  | step _ hstep ih => exact List.isChain_cons_cons.mpr ⟨hstep, ih⟩

theorem getLast?_eq (h : Trace p foreign first states) : states.getLast? = some first := by
  induction h with
  | first => rfl
  | step _ _ ih => rw [List.getLast?_cons_cons, ih]

theorem reachable {names : List Text} (h : Trace p foreign first states)
    (hfirst : Machine.Reachable p names foreign first) :
    ∀ t ∈ states, Machine.Reachable p names foreign t := by
  induction h with
  | first => exact List.forall_mem_singleton.mpr hfirst
  | step _ hstep ih =>
      exact List.forall_mem_cons.mpr ⟨(ih _ List.mem_cons_self).step hstep, ih⟩

/-- A state is the first one, or comes after an earlier one. -/
theorem exists_before (h : Trace p foreign first (s :: states)) {t : List Frame}
    (ht : t ∈ s :: states) : t = first ∨ ∃ t₀ ∈ states, Machine.Step p foreign t₀ t := by
  generalize hall : s :: states = all at h ht
  induction h generalizing s states with
  | first => exact .inl (List.mem_singleton.mp ht)
  | step hrun hstep ih =>
      obtain ⟨rfl, rfl⟩ := List.cons.inj hall
      rcases List.mem_cons.mp ht with rfl | ht
      · exact .inr ⟨_, List.mem_cons_self, hstep⟩
      · exact (ih rfl ht).imp_right fun ⟨t₀, ht₀, h₀⟩ => ⟨t₀, List.mem_cons_of_mem _ ht₀, h₀⟩

/-- A state is the last one, or one comes after it. -/
theorem exists_after (h : Trace p foreign first (s :: states)) {t : List Frame}
    (ht : t ∈ states) : ∃ t₁ ∈ s :: states, Machine.Step p foreign t t₁ := by
  generalize hall : s :: states = all at h
  induction h generalizing s states with
  | first =>
      obtain ⟨-, rfl⟩ := List.cons.inj hall
      cases ht
  | step hrun hstep ih =>
      obtain ⟨rfl, rfl⟩ := List.cons.inj hall
      rcases List.mem_cons.mp ht with rfl | ht
      · exact ⟨_, List.mem_cons_self, hstep⟩
      · obtain ⟨t₁, ht₁, h₁⟩ := ih ht rfl
        exact ⟨t₁, List.mem_cons_of_mem _ ht₁, h₁⟩

end Machine.Trace

namespace Program.StraightLine

variable {p : Program} {names : List Text} {main : Method} (h : p.StraightLine names main)
include h

theorem reachable_first :
    Machine.Reachable p names (· = none) [⟨main.entry, fun _ => none, none⟩] := by
  obtain ⟨name, hname⟩ := List.exists_mem_of_ne_nil names h.named
  exact .start hname (h.entry name hname) fun _ _ => rfl

variable {g : Supergraph} (hb : Supergraph.build p names = .ok g)
include hb

/-- A run does not come to a node twice. -/
theorem nodup_trace {states : List (List Frame)}
    (ht : Machine.Trace p (· = none) [⟨main.entry, fun _ => none, none⟩] states) :
    (states.map Stack.node?).Nodup := by
  induction ht with
  | first => exact List.nodup_singleton _
  | @step s s' before hrun hstep ih =>
      rw [List.map_cons, List.nodup_cons]
      refine ⟨fun hmem => ?_, ih⟩
      obtain ⟨t, ht, hnode⟩ := List.mem_map.mp hmem
      have hreach := hrun.reachable h.reachable_first
      obtain ⟨n, n', hn, hn', hleads⟩ := hstep.leads ((hreach s List.mem_cons_self).placed hb)
      rcases hrun.exists_before ht with rfl | ⟨t₀, ht₀, hstep₀⟩
      · -- The first node would be come to again.
        obtain rfl := Option.some.inj (hnode.trans hn')
        exact h.not_leads_start hb hleads
      · -- The node before would have been come to twice already.
        obtain ⟨k, k', hk, hk', hleads₀⟩ :=
          hstep₀.leads ((hreach t₀ (List.mem_cons_of_mem s ht₀)).placed hb)
        obtain rfl := Option.some.inj (hk'.symm.trans (hnode.trans hn'))
        obtain rfl := h.leads_injective hb hleads hleads₀
        rw [List.map_cons, List.nodup_cons] at ih
        exact ih.1 (List.mem_map.mpr ⟨t₀, ht₀, hk.trans hn.symm⟩)

theorem exists_node {stack : List Frame} (hs : Machine.Reachable p names (· = none) stack) :
    ∃ n ∈ g.nodes, Stack.node? stack = some n := by
  have hplaced := hs.placed hb
  obtain ⟨k, hk, -⟩ := h.bottom hb hs
  cases stack with
  | nil => cases hk
  | cons f rest => exact ⟨f.node, hplaced.nodes f List.mem_cons_self, rfl⟩

/-- There are as many nodes as there are states in a run, so runs end. -/
theorem exists_trace : ∃ s states,
    Machine.Trace p (· = none) [⟨main.entry, fun _ => none, none⟩] (s :: states) ∧
      ∀ s', ¬ Machine.Step p (· = none) s s' := by
  by_contra hnone
  push Not at hnone
  have hlong : ∀ k, ∃ s states,
      Machine.Trace p (· = none) [⟨main.entry, fun _ => none, none⟩] (s :: states) ∧
        states.length = k := by
    intro k
    induction k with
    | zero => exact ⟨_, [], .first, rfl⟩
    | succ k ih =>
        obtain ⟨s, states, hrun, hlen⟩ := ih
        obtain ⟨s', hstep⟩ := hnone s states hrun
        exact ⟨s', s :: states, hrun.step hstep, by rw [List.length_cons, hlen]⟩
  obtain ⟨s, states, hrun, hlen⟩ := hlong g.nodes.length
  have hsub : (s :: states).map Stack.node? ⊆ g.nodes.map some := by
    intro n? hn
    obtain ⟨t, ht, rfl⟩ := List.mem_map.mp hn
    obtain ⟨n, hn, hnode⟩ := h.exists_node hb (hrun.reachable h.reachable_first t ht)
    rw [hnode]
    exact List.mem_map_of_mem hn
  have hle := ((h.nodup_trace hb hrun).subperm hsub).length_le
  simp only [List.length_map, List.length_cons] at hle
  omega

end Program.StraightLine

/-! ## No node is left out -/

/-- The machine comes to a node. -/
def Machine.Visits (p : Program) (names : List Text) (n : Node) : Prop :=
  ∃ stack, Machine.Reachable p names (· = none) stack ∧ Stack.node? stack = some n

/-- Frames that wait have been running. -/
theorem Machine.Reachable.visits {p : Program} {names : List Text} {stack : List Frame}
    (hs : Machine.Reachable p names (· = none) stack) :
    ∀ f ∈ stack, Machine.Visits p names f.node := by
  induction hs with
  | start hentry hdefined hparams =>
      exact List.forall_mem_singleton.mpr ⟨_, .start hentry hdefined hparams, rfl⟩
  | step hbefore hstep ih =>
      have hnew := hbefore.step hstep
      cases hstep with
      | run =>
          rw [List.forall_mem_cons] at ih ⊢
          exact ⟨⟨_, hnew, rfl⟩, ih.2⟩
      | call =>
          rw [List.forall_mem_cons]
          exact ⟨⟨_, hnew, rfl⟩, ih⟩
      | ret =>
          rw [List.forall_mem_cons, List.forall_mem_cons] at ih
          rw [List.forall_mem_cons]
          exact ⟨⟨_, hnew, rfl⟩, ih.2.2⟩
      | foreignCall =>
          rw [List.forall_mem_cons] at ih ⊢
          exact ⟨⟨_, hnew, rfl⟩, ih.2⟩

namespace Program.StraightLine

variable {p : Program} {names : List Text} {main : Method} (h : p.StraightLine names main)
  {g : Supergraph} (hb : Supergraph.build p names = .ok g)
include h hb

/-- To come to a node inside a method, the machine comes to the one before it, and if that is a
call, to the exit of the callee. -/
theorem visits_before {n n' : Node} (hn : n ∈ g.nodes) (hnext : n' ∈ p.next n)
    (hv : Machine.Visits p names n') :
    Machine.Visits p names n ∧ ∀ c, p.resolve? n = some c → Machine.Visits p names c.exit := by
  obtain ⟨stack, hs, hnode⟩ := hv
  cases hs with
  | @start _ m =>
      obtain rfl := Option.some.inj hnode
      exact absurd hnext (h.entry_not_mem_next hb hn m)
  | step hbefore hstep =>
      have hplaced := hbefore.placed hb
      cases hstep with
      | run hplain hnext' =>
          obtain rfl := Option.some.inj hnode
          have hmem := hplaced.nodes _ List.mem_cons_self
          obtain rfl := h.next_injective hb hn hmem hnext hnext'
          refine ⟨⟨_, hbefore, rfl⟩, fun c hres => ?_⟩
          rw [resolve?_eq_none hplain] at hres
          cases hres
      | @call _ _ _ _ _ callee =>
          obtain rfl := Option.some.inj hnode
          exact absurd hnext (h.entry_not_mem_next hb hn callee)
      | @ret f caller rest m _ hm hexit hnext' =>
          obtain rfl := Option.some.inj hnode
          have hcaller : caller ∈ f :: caller :: rest := List.mem_cons_of_mem f List.mem_cons_self
          obtain rfl := h.next_injective hb hn (hplaced.nodes caller hcaller) hnext hnext'
          refine ⟨hbefore.visits caller hcaller, fun c hres => ⟨_, hbefore, ?_⟩⟩
          obtain ⟨⟨c', hres', hnode'⟩, -⟩ := List.isChain_cons_cons.mp hplaced.linked
          obtain rfl := Option.some.inj (hres.symm.trans hres')
          obtain rfl := eq_of_mem_nodes hm (mem_methods_of_resolve? hres)
            (hexit ▸ m.exit_mem_nodes) hnode'
          exact congrArg some hexit
      | foreignCall hsite hundefined hnext' =>
          obtain rfl := Option.some.inj hnode
          have hmem := hplaced.nodes _ List.mem_cons_self
          obtain rfl := h.next_injective hb hn hmem hnext hnext'
          refine ⟨⟨_, hbefore, rfl⟩, fun c hres => ?_⟩
          rw [resolve?, hsite] at hres
          cases hundefined.symm.trans hres

theorem visits_nodes {m : Method} (hm : m ∈ g.methods) (hv : Machine.Visits p names m.exit) :
    ∀ n ∈ m.nodes, Machine.Visits p names n := by
  have hg := Supergraph.built_of_build hb
  -- From the exit back to the entry, by how many positions are left.
  suffices hback : ∀ k, ∀ n ∈ m.nodes, m.body.length + 1 = n.pos + k → Machine.Visits p names n by
    intro n hn
    have hlt := Method.exists_node_at.mp ⟨n, hn, rfl⟩
    exact hback (m.body.length + 1 - n.pos) n hn (by omega)
  intro k
  induction k with
  | zero =>
      intro n hn hpos
      have hmem : ∀ n ∈ m.nodes, n ∈ g.nodes := fun n hn => hg.mem_nodes_iff.mpr ⟨m, hm, hn⟩
      rw [hg.node_eq (hmem n hn) (hmem _ m.exit_mem_nodes) (Method.method_of_mem_nodes hn)
        (by rw [Method.pos_exit]; omega)]
      exact hv
  | succ k ih =>
      intro n hn hpos
      have hne : n ≠ m.exit := by
        rintro rfl
        rw [Method.pos_exit] at hpos
        omega
      obtain ⟨n', hnext⟩ := h.exists_next hb hm hn hne
      have hmem := hg.mem_nodes_iff.mpr ⟨m, hm, hn⟩
      have hn' := mem_nodes_of_next (hg.calls.reachable.defined m hm) hn hnext
      have hpos' := ((h.next_iff hb hmem).mp hnext).2.2
      exact (h.visits_before hb hmem hnext (ih n' hn' (by omega))).1

/-- The machine comes to every node. -/
theorem visits_all {n : Node} (hn : n ∈ g.nodes) : Machine.Visits p names n := by
  have hg := Supergraph.built_of_build hb
  suffices hall : ∀ m, p.Reaches names m → ∀ n ∈ m.nodes, Machine.Visits p names n by
    obtain ⟨m, hm, hnm⟩ := hg.mem_nodes_iff.mp hn
    exact hall m ((Supergraph.mem_methods_iff hb).mp hm) n hnm
  intro m hm
  induction hm with
  | @entry name m hname hfind =>
      obtain rfl := Option.some.inj ((h.entry name hname).symm.trans hfind)
      refine h.visits_nodes hb (h.main_mem hb) ?_
      obtain ⟨s, states, hrun, hlast⟩ := h.exists_trace hb
      have hs := hrun.reachable h.reachable_first s List.mem_cons_self
      refine ⟨s, hs, not_not.mp fun hne => ?_⟩
      obtain ⟨s', hstep⟩ := h.exists_step hb hs hne
      exact hlast s' hstep
  | @call m c hm hc ih =>
      refine h.visits_nodes hb ((Supergraph.mem_methods_iff hb).mpr (hm.call hc)) ?_
      obtain ⟨site, hsite, hres⟩ := List.mem_filterMap.mp hc
      have hm' := (Supergraph.mem_methods_iff hb).mpr hm
      have hnode := Method.mem_nodes_of_mem_callSites hsite
      have hne : site ≠ m.exit := by
        rintro rfl
        cases (List.mem_filter.mp hsite).2
      obtain ⟨n', hnext⟩ := h.exists_next hb hm' hnode hne
      have hn' := mem_nodes_of_next (hg.calls.reachable.defined m hm') hnode hnext
      exact (h.visits_before hb (hg.mem_nodes_iff.mpr ⟨m, hm', hnode⟩) hnext (ih n' hn')).2 c hres

/-- The one run of the program: it has all states that can be reached, and stands before each node
once. -/
theorem exists_run : ∃ run : List (List Frame),
    run.head? = some [⟨main.entry, fun _ => none, none⟩] ∧
      run.IsChain (Machine.Step p (· = none)) ∧
      (∀ stack, stack ∈ run ↔ Machine.Reachable p names (· = none) stack) ∧
      (run.map Stack.node?).Perm (g.nodes.map some) := by
  obtain ⟨s, states, hrun, hlast⟩ := h.exists_trace hb
  have hreach := hrun.reachable h.reachable_first
  have hiff : ∀ stack, stack ∈ s :: states ↔ Machine.Reachable p names (· = none) stack := by
    refine fun stack => ⟨hreach stack, fun hs => ?_⟩
    induction hs with
    | @start name m env hentry hdefined hparams =>
        obtain rfl := Option.some.inj ((h.entry name hentry).symm.trans hdefined)
        obtain rfl : env = fun _ => none := funext fun x =>
          hparams x (by rw [h.params]; exact List.not_mem_nil)
        exact hrun.first_mem
    | @step t t' hbefore hstep ih =>
        rcases List.mem_cons.mp ih with rfl | ht
        · exact absurd hstep (hlast t')
        · obtain ⟨t₁, ht₁, hstep₁⟩ := hrun.exists_after ht
          rw [h.step_unique hb (hbefore.placed hb) hstep hstep₁]
          exact ht₁
  refine ⟨(s :: states).reverse, ?_, hrun.isChain, fun stack => ?_, ?_⟩
  · rw [List.head?_reverse, hrun.getLast?_eq]
  · rw [List.mem_reverse, hiff]
  · rw [List.map_reverse]
    refine (List.reverse_perm _).trans ?_
    have hnodup : (g.nodes.map some).Nodup :=
      (Supergraph.built_of_build hb).nodes_nodup.map (Option.some_injective _)
    refine (List.perm_ext_iff_of_nodup (h.nodup_trace hb hrun) hnodup).mpr fun n? => ?_
    constructor
    · intro hn
      obtain ⟨t, ht, rfl⟩ := List.mem_map.mp hn
      obtain ⟨n, hn, hnode⟩ := h.exists_node hb (hreach t ht)
      rw [hnode]
      exact List.mem_map_of_mem hn
    · intro hn
      obtain ⟨n, hmem, rfl⟩ := List.mem_map.mp hn
      obtain ⟨t, ht, hnode⟩ := h.visits_all hb hmem
      exact List.mem_map.mpr ⟨t, (hiff t).mpr ht, hnode⟩

end Program.StraightLine

end ConstFlow
