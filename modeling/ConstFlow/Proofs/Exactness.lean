import ConstFlow.Proofs.OneRun

/-!
# Exactness

On a program that runs straight through, the solved facts are not just sound but say exactly what
the values are: a variable is constant if it has a value, unset if it has none, and never `nac`.

That a fact allows the value is soundness. The other half is that it allows nothing else, and this
is the invariant `Frame.Exact` of the run. The facts solve the equations, so the fact before a node
is no more than its incoming edges carry, and there are few of these: one from the node before, and
if that is a call, one from the exit of its callee instead of it for the receiver
(`Program.StraightLine.edge_of_next`, `edge_of_entry`). All of them come from nodes that the run has
just left or waits at, whose facts are exact.
-/

namespace ConstFlow

/-! ## Values and facts -/

/-- What is known of a variable with that value, or with none. -/
def Value.ofWord : Option Word → Value
  | none => .unset
  | some v => .const v.val

@[simp] theorem Value.ofWord_ne_nac (v : Option Word) : Value.ofWord v ≠ .nac := by
  cases v <;> simp [ofWord]

/-- A fact gives every variable the value that it has, and none to the others. -/
def Env.Exactly (env : Env) (f : Fact) : Prop := ∀ x, f.get x = .ofWord (env x)

namespace Env.Exactly

variable {env : Env} {f f' : Fact}

theorem of_le (hwithin : env.Within f) (hle : ∀ x, f.get x ≤ .ofWord (env x)) :
    env.Exactly f := by
  intro x
  refine le_antisymm (hle x) ?_
  cases hv : env x with
  | none => exact Value.unset_le _
  | some v => exact hwithin x v hv

theorem congr (h : env.Exactly f) (hget : f'.get = f.get) : env.Exactly f' :=
  fun x => by rw [hget, h x]

theorem update (h : env.Exactly f) (x : Var) (w : Option Word) :
    Env.Exactly (Function.update env x w) (f.update x (.ofWord w)) := by
  intro y
  rw [Fact.get_update]
  by_cases hy : y = x
  · rw [if_pos hy, hy, Function.update_self]
  · rw [if_neg hy, Function.update_of_ne hy, h y]

/-- An exact fact carried into a callee is exact there. -/
theorem bind (h : env.Exactly f) (params args : List Var) :
    (Env.bind params args env).Exactly (.bind params args f) := by
  unfold Env.bind Fact.bind
  suffices hs : ∀ (bs : List (Var × Var)) (e : Env) (k : Fact), e.Exactly k →
      Env.Exactly (bs.foldl (fun callee b => Function.update callee b.1 (env b.2)) e)
        (bs.foldl (fun k b => k.update b.1 (f.get b.2)) k) from hs _ _ _ fun _ => rfl
  intro bs
  induction bs with
  | nil => exact fun e k hk => hk
  | cons b bs ih =>
      intro e k hk
      rw [List.foldl_cons, List.foldl_cons, h b.2]
      exact ih _ _ (hk.update b.1 _)

end Env.Exactly

/-- Folding known values is what the operator does with them. -/
theorem Operator.applyAbstract_ofWord (op : Operator) (v w : Option Word) :
    op.applyAbstract (.ofWord v) (.ofWord w) = some (.ofWord (op.onWords v w)) := by
  cases v with
  | none => exact applyAbstract_unset_left op (Value.ofWord_ne_nac w)
  | some a =>
      cases w with
      | none => rfl
      | some b =>
          simp only [Value.ofWord, onWords, applyAbstract_const, apply,
            Int32.wrap_eq_self b.inRange]
          split
          · rfl
          · simp [Word.wrap, Int32.wrap_eq_self (Int32.wrap_inRange _)]

/-- The effect of a statement on an exact fact is exact. -/
theorem Action.run_exactly {a : Action} {env : Env} {f f' : Fact} (h : env.Exactly f)
    (he : a.localEffect f = some f') : (a.run env).Exactly f' := by
  cases a with
  | literal x v =>
      obtain rfl := Option.some.inj he
      exact h.update x (some (.wrap v))
  | copy x y =>
      obtain rfl := Option.some.inj he
      rw [h y]
      exact h.update x (env y)
  | binary x op y z =>
      obtain ⟨u, hu, rfl⟩ := Option.map_eq_some_iff.mp he
      rw [evaluate, h y, h z, op.applyAbstract_ofWord] at hu
      obtain rfl := Option.some.inj hu
      exact h.update x _
  | _ =>
      obtain rfl := Option.some.inj he
      exact h

namespace Facts.Solves

variable {g : Supergraph} {a : Facts} (ha : a.Solves g) {n : Node} (hn : n ∈ g.nodes)
include ha hn

theorem exactly_after {env : Env} (h : env.Exactly (a.before n)) :
    (n.action.run env).Exactly (a.after n) := by
  obtain ⟨f, hf, hagrees⟩ := ha.after n hn
  obtain ⟨effect, he, hget⟩ := Node.localEffect_of_transfer? hf
  refine (Action.run_exactly h he).congr ?_
  rw [Fact.agrees_iff.mp hagrees, hget]

/-- Where the boundary is empty, a fact is no more than the incoming edges ask for. -/
theorem before_le (hg : g.WellFormed) {env : Env} (hbound : g.boundary n = .empty)
    (hedges : ∀ e ∈ g.edges, e.target = n →
      ∀ x, (e.carry (some (a.after e.source))).get x ≤ .ofWord (env x)) (x : Var) :
    (a.before n).get x ≤ .ofWord (env x) := by
  rw [Fact.agrees_iff.mp (ha.before n hn)]
  refine Facts.inflow_le_iff.mpr ⟨hbound ▸ Fact.empty_le fun x => .ofWord (env x), fun e he => ?_⟩ x
  obtain ⟨hmem, htarget⟩ := hg.mem_inEdges_iff.mp he
  exact hedges e hmem htarget

end Facts.Solves

/-! ## Few edges -/

theorem Supergraph.Built.mem_next_of_flow {p : Program} {g : Supergraph}
    (hg : Supergraph.Built p g) {c : ControlFlow} (hc : c ∈ g.flows) {e : FlowEdge}
    (he : e ∈ c.edges) : e.target ∈ p.next e.source := by
  obtain ⟨m, hm, hbuild⟩ := hg.exists_method hc
  exact Program.mem_next_iff.mpr
    ⟨m, hg.calls.reachable.defined m hm, c, hbuild, e, he, rfl, rfl⟩

namespace Program.StraightLine

variable {p : Program} {names : List Text} {main : Method} (h : p.StraightLine names main)
  {g : Supergraph} (hb : Supergraph.build p names = .ok g) {n : Node} (hn : n ∈ g.nodes)
include h hb

/-- Nothing is known to come from outside: the entry method has no parameters. -/
theorem boundary_eq (n : Node) : g.boundary n = .empty := by
  rcases g.boundary_cases n with ⟨m, hm, -, hbound⟩ | hbound
  · obtain ⟨name, hname, hfind⟩ :=
      (CallGraph.mem_entries_iff (Supergraph.calls_of_build hb)).mp hm
    obtain rfl := Option.some.inj ((h.entry name hname).symm.trans hfind)
    rw [hbound, Fact.boundary, h.params]
    rfl
  · exact hbound

theorem flow_target_ne {c : ControlFlow} (hc : c ∈ g.flows) {e : FlowEdge} (he : e ∈ c.edges)
    (m : Method) : e.target ≠ m.entry := by
  have hg := Supergraph.built_of_build hb
  intro heq
  exact h.entry_not_mem_next hb (hg.mem_nodes_of_flow hc he).1 m (heq ▸ hg.mem_next_of_flow hc he)

/-- No edge comes to where the program starts. -/
theorem target_ne_start {e : Edge} (he : e ∈ g.edges) : e.target ≠ main.entry := by
  have hg := Supergraph.built_of_build hb
  rcases hg.mem_edges_iff.mp he with ⟨c, hc, f, hf, rfl⟩ | ⟨site, hsite, callee, hres, hcases⟩
  · exact h.flow_target_ne hb hc hf main
  · rcases hcases with rfl | ⟨c, hc, f, hf, -, rfl⟩
    · intro htarget
      refine h.callee_ne_main hb (hg.mem_sites_iff.mp hsite).1 hres ?_
      exact eq_of_name_eq (mem_methods_of_resolve? hres)
        (hg.calls.reachable.defined main (h.main_mem hb)) (congrArg Node.method htarget)
    · exact h.flow_target_ne hb hc hf main

include hn

/-- The edges into a node come from the node before it, or from the exit of the method that is
called there. -/
theorem edge_of_next {n' : Node} (hnext : n' ∈ p.next n) {e : Edge} (he : e ∈ g.edges)
    (htarget : e.target = n') :
    e = ⟨n, n', if n.action.isCall then .callToReturn else .normal⟩ ∨
      ∃ c, p.resolve? n = some c ∧ e = ⟨c.exit, n', .ret n c⟩ := by
  have hg := Supergraph.built_of_build hb
  have hsource : ∀ {c : ControlFlow} {f : FlowEdge}, c ∈ g.flows → f ∈ c.edges → f.target = n' →
      f.source = n := fun hc hf htarget =>
    h.next_injective hb (hg.mem_nodes_of_flow hc hf).1 hn (htarget ▸ hg.mem_next_of_flow hc hf)
      hnext
  rcases hg.mem_edges_iff.mp he with ⟨c, hc, f, hf, rfl⟩ | ⟨site, hsite, callee, hres, hcases⟩
  · obtain rfl := hsource hc hf htarget
    obtain rfl := htarget
    exact .inl rfl
  · rcases hcases with rfl | ⟨c, hc, f, hf, rfl, rfl⟩
    · obtain rfl := htarget
      exact absurd hnext (h.entry_not_mem_next hb hn callee)
    · obtain rfl := hsource hc hf htarget
      obtain rfl := htarget
      exact .inr ⟨callee, hres, rfl⟩

/-- There is one edge into a method that is called. -/
theorem edge_of_entry {c : Method} (hres : p.resolve? n = some c) {e : Edge} (he : e ∈ g.edges)
    (htarget : e.target = c.entry) : e = ⟨n, c.entry, .call c⟩ := by
  have hg := Supergraph.built_of_build hb
  rcases hg.mem_edges_iff.mp he with ⟨k, hk, f, hf, rfl⟩ | ⟨site, hsite, callee, hres', hcases⟩
  · exact absurd htarget (h.flow_target_ne hb hk hf c)
  · rcases hcases with rfl | ⟨k, hk, f, hf, -, rfl⟩
    · obtain rfl := eq_of_name_eq (mem_methods_of_resolve? hres') (mem_methods_of_resolve? hres)
        (congrArg Node.method htarget)
      rw [h.site_unique hb (hg.mem_sites_iff.mp hsite).1 hn hres' hres]
    · exact absurd htarget (h.flow_target_ne hb hk hf c)

/-- A method that returns a variable does so right before its exit. -/
theorem returns_before_exit {m : Method} (hm : m ∈ p.methods) (hnext : m.exit ∈ p.next n) {x : Var}
    (hx : x ∈ m.returnVars) : n.action = .ret (some x) := by
  have hg := Supergraph.built_of_build hb
  obtain ⟨hexit, hmethod, hpos⟩ := (h.next_iff hb hn).mp hnext
  obtain ⟨k, hk, hnode⟩ := hg.mem_nodes_iff.mp hexit
  obtain rfl := eq_of_mem_nodes (hg.calls.reachable.defined k hk) hm hnode m.exit_mem_nodes
  obtain ⟨s, hs, hret⟩ := Method.mem_returnVars_iff.mp hx
  obtain ⟨i, hi⟩ := List.mem_iff_getElem?.mp hs
  have hlast := (h.straight_of_mem hb hk).succ_eq_length hi hret
  have hstmt : s.node ∈ k.nodes :=
    Method.mem_nodes_iff.mpr (.inr (.inl (Method.mem_stmtNodes_iff.mpr ⟨i, s, hi, rfl⟩)))
  have hn_eq : n = s.node := by
    refine hg.node_eq hn (hg.mem_nodes_iff.mpr ⟨k, hk, hstmt⟩) ?_ ?_
    · rw [Method.method_node hi]
      exact hmethod.symm
    · rw [Method.pos_exit] at hpos
      rw [Method.pos_node hi]
      omega
  rw [hn_eq]
  exact hret

end Program.StraightLine

/-! ## The run -/

namespace Env

theorem receive_self (env : Env) (x : Var) (w : Option Word) : env.receive (some x) w x = w := by
  simp [receive]

theorem receive_of_ne {env : Env} {receiver : Option Var} {x : Var} (h : receiver ≠ some x)
    (w : Option Word) : env.receive receiver w x = env x := by
  cases receiver with
  | none => rfl
  | some y =>
      have hxy : x ≠ y := fun hxy => h (congrArg some hxy.symm)
      simp [receive, hxy]

end Env

/-- A frame whose values are those of the fact before its node. At an exit, what it is about to
return is the value of any variable that its method returns; there is at most one. -/
structure Frame.Exact (p : Program) (a : Facts) (f : Frame) : Prop where
  env : f.env.Exactly (a.before f.node)
  result : ∀ m ∈ p.methods, f.node = m.exit → ∀ x ∈ m.returnVars, f.result = f.env x

namespace Program.StraightLine

variable {p : Program} {names : List Text} {main : Method} (h : p.StraightLine names main)
  {g : Supergraph} (hb : Supergraph.build p names = .ok g) {a : Facts} (ha : a.Solves g)

section Going

variable {f : Frame} (hf : f.Exact p a) (hn : f.node ∈ g.nodes)
include h hb ha hf hn

omit h hb in
theorem exactly_after_call (hc : f.node.action.isCall = true) :
    f.env.Exactly (a.after f.node) := by
  have hafter := ha.exactly_after hn hf.env
  cases haction : f.node.action with
  | call =>
      rw [haction] at hafter
      exact hafter
  | _ => rw [haction] at hc; cases hc

theorem before_le_run {n : Node} (hplain : f.node.action.isCall = false)
    (hnext : n ∈ p.next f.node) (x : Var) :
    (a.before n).get x ≤ .ofWord (f.node.action.run f.env x) := by
  have hmem := ((h.next_iff hb hn).mp hnext).1
  refine ha.before_le hmem (Supergraph.built_of_build hb).wellFormed (h.boundary_eq hb n)
    (fun e he htarget y => ?_) x
  rcases h.edge_of_next hb hn hnext he htarget with rfl | ⟨c, hres, -⟩
  · rw [hplain]
    exact (ha.exactly_after hn hf.env y).le
  · rw [resolve?_eq_none hplain] at hres
    cases hres

theorem before_le_bind {name : Text} {args : List Var} {receiver : Option Var} {c : Method}
    (hsite : f.node.action = .call name args receiver) (hres : p.resolve? f.node = some c)
    (x : Var) : (a.before c.entry).get x ≤ .ofWord (Env.bind c.params args f.env x) := by
  have hg := Supergraph.built_of_build hb
  have hmem : c.entry ∈ g.nodes := hg.wellFormed.target_mem _ (hg.mem_edges_of_call hn hres)
  refine ha.before_le hmem hg.wellFormed (h.boundary_eq hb _) (fun e he htarget y => ?_) x
  obtain rfl := h.edge_of_entry hb hn hres he htarget
  have hafter := exactly_after_call ha hf hn (isCall_of_resolve? hres)
  rw [Edge.carry_call, hsite]
  exact (hafter.bind c.params args y).le

/-- Past a call: other variables than the receiver keep their values, and the receiver gets what the
edge back brings. -/
theorem before_le_receive {n : Node} (hcall : f.node.action.isCall = true)
    (hnext : n ∈ p.next f.node) {w : Option Word}
    (hw : ∀ c, p.resolve? f.node = some c → (a.after c.exit).meetOf c.returnVars ≤ .ofWord w)
    (x : Var) :
    (a.before n).get x ≤ .ofWord (f.env.receive f.node.action.target? w x) := by
  have hmem := ((h.next_iff hb hn).mp hnext).1
  refine ha.before_le hmem (Supergraph.built_of_build hb).wellFormed (h.boundary_eq hb n)
    (fun e he htarget y => ?_) x
  rcases h.edge_of_next hb hn hnext he htarget with rfl | ⟨c, hres, rfl⟩
  · rw [hcall, if_pos rfl]
    by_cases hy : f.node.action.target? = some y
    · rw [Edge.carry_callToReturn, hy]
      exact ((Fact.get_remove _ _ _).trans (if_pos rfl)).le.trans (Value.unset_le _)
    · rw [Edge.get_carry_callToReturn hy, Env.receive_of_ne hy]
      exact (exactly_after_call ha hf hn hcall y).le
  · by_cases hy : f.node.action.target? = some y
    · rw [Edge.get_carry_ret hy, hy, Env.receive_self]
      exact hw c hres
    · rw [Edge.carry_ret]
      split
      · exact Value.unset_le _
      · rename_i z hz
        have hyz : y ≠ z := fun hyz => hy (hyz ▸ hz)
        rw [Fact.get_update, if_neg hyz]
        exact Value.unset_le _

end Going

include h hb ha

/-- Every step keeps all frames exact. -/
theorem exact_step {stack stack' : List Frame}
    (hs : Machine.Reachable p names (· = none) stack) (hexact : ∀ f ∈ stack, f.Exact p a)
    (hstep : Machine.Step p (· = none) stack stack') : ∀ f ∈ stack', f.Exact p a := by
  have hg := Supergraph.built_of_build hb
  have hplaced := hs.placed hb
  have hcovers := ha.covers hg.wellFormed
  have hsound := ((hs.step hstep).sound hb hcovers fun v hv => hv).frames
  have hmem := hplaced.nodes
  cases hstep with
  | @run f rest n hplain hnext =>
      have hn := hmem f List.mem_cons_self
      rw [List.forall_mem_cons] at hexact
      have hle := h.before_le_run hb ha hexact.1 hn hplain hnext
      refine List.forall_mem_cons.mpr ⟨⟨.of_le (hsound _ List.mem_cons_self).env hle, ?_⟩, hexact.2⟩
      rintro m hm rfl x hx
      show f.node.action.returned f.env = f.node.action.run f.env x
      rw [h.returns_before_exit hb hn hm hnext hx]
      rfl
  | @call f rest name args receiver callee hsite hdefined =>
      have hn := hmem f List.mem_cons_self
      have hres : p.resolve? f.node = some callee := by
        rw [resolve?, hsite]
        exact hdefined
      have hle := h.before_le_bind hb ha (hexact f List.mem_cons_self) hn hsite hres
      refine List.forall_mem_cons.mpr ⟨⟨.of_le (hsound _ List.mem_cons_self).env hle, ?_⟩, hexact⟩
      intro m _ hexit
      cases congrArg Node.pos hexit
  | @ret f caller rest m n hm hexit hnext =>
      rw [List.forall_mem_cons, List.forall_mem_cons] at hexact
      obtain ⟨hf, hcaller, hrest⟩ := hexact
      obtain ⟨⟨c, hres, hnode⟩, -⟩ := List.isChain_cons_cons.mp hplaced.linked
      obtain rfl := eq_of_mem_nodes hm (mem_methods_of_resolve? hres)
        (hexit ▸ m.exit_mem_nodes) hnode
      have hn := hmem caller (List.mem_cons_of_mem f List.mem_cons_self)
      have hcall := isCall_of_resolve? hres
      have hw : ∀ c, p.resolve? caller.node = some c →
          (a.after c.exit).meetOf c.returnVars ≤ .ofWord f.result := by
        intro c hc
        obtain rfl := Option.some.inj (hres.symm.trans hc)
        refine Fact.meetOf_le_iff.mpr fun x hx => ?_
        have hafter := ha.exactly_after (hmem f List.mem_cons_self) hf.env x
        rw [hexit] at hafter
        rw [hafter, hf.result m hm hexit x hx]
        exact le_rfl
      have hle := h.before_le_receive hb ha hcaller hn hcall hnext hw
      refine List.forall_mem_cons.mpr ⟨⟨.of_le (hsound _ List.mem_cons_self).env hle, ?_⟩, hrest⟩
      rintro k hk rfl x hx
      rw [h.returns_before_exit hb hn hk hnext hx] at hcall
      cases hcall
  | @foreignCall f rest name args receiver n v hsite hundefined hnext hv =>
      have hn := hmem f List.mem_cons_self
      rw [List.forall_mem_cons] at hexact
      have hcall : f.node.action.isCall = true := by rw [hsite]; rfl
      have htarget : f.node.action.target? = receiver := by rw [hsite]; rfl
      have hle := h.before_le_receive (w := v) hb ha hexact.1 hn hcall hnext fun c hc => by
        rw [resolve?, hsite] at hc
        cases hundefined.symm.trans hc
      rw [htarget] at hle
      refine List.forall_mem_cons.mpr ⟨⟨.of_le (hsound _ List.mem_cons_self).env hle, ?_⟩, hexact.2⟩
      rintro m hm rfl x hx
      rw [h.returns_before_exit hb hn hm hnext hx] at hcall
      cases hcall

theorem exact_run {stack : List Frame} (hs : Machine.Reachable p names (· = none) stack) :
    ∀ f ∈ stack, f.Exact p a := by
  induction hs with
  | @start name m env hentry hdefined hparams =>
      obtain rfl := Option.some.inj ((h.entry name hentry).symm.trans hdefined)
      have hg := Supergraph.built_of_build hb
      have hmem : main.entry ∈ g.nodes :=
        hg.mem_nodes_iff.mpr ⟨main, h.main_mem hb, main.entry_mem_nodes⟩
      have hsound := (Machine.Reachable.start hentry hdefined hparams).sound hb
        (ha.covers hg.wellFormed) fun v hv => hv
      refine List.forall_mem_singleton.mpr ⟨.of_le (hsound.frames _ List.mem_cons_self).env ?_, ?_⟩
      · exact ha.before_le hmem hg.wellFormed (h.boundary_eq hb _) fun e he htarget =>
          absurd htarget (h.target_ne_start hb he)
      · intro m _ hexit
        cases congrArg Node.pos hexit
  | step hbefore hstep ih => exact h.exact_step hb ha hbefore ih hstep

end Program.StraightLine

theorem Value.ofWord_eq_const_iff {v : Option Word} {c : Int} :
    Value.ofWord v = .const c ↔ ∃ w, v = some w ∧ w.val = c := by
  cases v <;> simp [ofWord]

theorem Value.ofWord_eq_unset_iff {v : Option Word} : Value.ofWord v = .unset ↔ v = none := by
  cases v <;> simp [ofWord]

/-- A program that runs straight through has one run, which stands before every node once. The fact
that is solved for the node gives a variable the constant that it has there, and is unset for a
variable exactly if it has no value. Nowhere does it give `nac`, neither before nor after a node. -/
theorem solve_exact_of_straightLine {p : Program} {names : List Text} {main : Method}
    (h : p.StraightLine names main) :
    ∃ g, Supergraph.build p names = .ok g ∧
      ∃ run : List (List Frame),
        run.head? = some [⟨main.entry, fun _ => none, none⟩] ∧
        run.IsChain (Machine.Step p (· = none)) ∧
        (∀ stack, stack ∈ run ↔ Machine.Reachable p names (· = none) stack) ∧
        (run.map Stack.node?).Perm (g.nodes.map some) ∧
        ∀ (strategy : Strategy) (noted : List Mismatch),
          (solve g ⟨strategy, none⟩ noted).ending = .fixpoint ∧
          ∀ stack ∈ run, ∀ frame ∈ stack.head?, ∃ before after,
            (solve g ⟨strategy, none⟩ noted).run.table.inFact? frame.node = some before ∧
            (solve g ⟨strategy, none⟩ noted).run.table.outFact? frame.node = some after ∧
            ∀ x, (∀ c, before.get x = .const c ↔ ∃ v, frame.env x = some v ∧ v.val = c) ∧
              (before.get x = .unset ↔ frame.env x = none) ∧
              before.get x ≠ .nac ∧ after.get x ≠ .nac := by
  obtain ⟨g, hb⟩ := h.exists_build
  have hg := Supergraph.wellFormed_of_build hb
  obtain ⟨run, hfirst, hchain, hrun, hnodes⟩ := h.exists_run hb
  refine ⟨g, hb, run, hfirst, hchain, hrun, hnodes, fun strategy noted => ?_⟩
  obtain ⟨hended, happrox, hcovers⟩ := solve_least hg strategy noted
  refine ⟨hended, ?_⟩
  generalize (solve g ⟨strategy, none⟩ noted).run.table = t at happrox hcovers ⊢
  have hsolves := happrox.solves hg hcovers
  intro stack hstack frame hframe
  have hs := (hrun stack).mp hstack
  have hmem := List.mem_of_mem_head? hframe
  have hn := (hs.placed hb).nodes frame hmem
  have hbefore : frame.env.Exactly (t.inFact frame.node) :=
    (h.exact_run hb hsolves hs frame hmem).env
  have hafter : Env.Exactly _ (t.outFact frame.node) := hsolves.exactly_after hn hbefore
  refine ⟨_, _, happrox.ready.inFact?_eq hn, happrox.ready.outFact?_eq hn, fun x => ?_⟩
  rw [hbefore x, hafter x]
  exact ⟨fun c => Value.ofWord_eq_const_iff, Value.ofWord_eq_unset_iff, Value.ofWord_ne_nac _,
    Value.ofWord_ne_nac _⟩

namespace Sample

/-- Divides by zero, passes an argument too many, and calls a method that is not defined. -/
def outer : Method :=
  .of "outer" []
    [⟨1, .literal ⟨"outer", "x"⟩ 6⟩,
      ⟨2, .literal ⟨"outer", "y"⟩ 0⟩,
      ⟨3, .binary ⟨"outer", "z"⟩ .div ⟨"outer", "x"⟩ ⟨"outer", "y"⟩⟩,
      ⟨4, .call "twice" [⟨"outer", "x"⟩, ⟨"outer", "y"⟩] (some ⟨"outer", "r"⟩)⟩,
      ⟨5, .call "missing" [] (some ⟨"outer", "y"⟩)⟩,
      ⟨6, .ret (some ⟨"outer", "r"⟩)⟩]
    .empty

def twice : Method :=
  .of "twice" [⟨"twice", "a"⟩]
    [⟨8, .call "plus" [⟨"twice", "a"⟩, ⟨"twice", "a"⟩] (some ⟨"twice", "b"⟩)⟩,
      ⟨9, .call "note" [⟨"twice", "b"⟩] (some ⟨"twice", "a"⟩)⟩,
      ⟨10, .ret (some ⟨"twice", "b"⟩)⟩]
    .empty

def plus : Method :=
  .of "plus" [⟨"plus", "a"⟩, ⟨"plus", "b"⟩, ⟨"plus", "c"⟩]
    [⟨12, .binary ⟨"plus", "d"⟩ .add ⟨"plus", "a"⟩ ⟨"plus", "b"⟩⟩, ⟨13, .ret (some ⟨"plus", "d"⟩)⟩]
    .empty

/-- Returns nothing. -/
def note : Method := .of "note" [⟨"note", "a"⟩] [⟨15, .pass⟩] .empty

/-- Calls to any depth, each method from one place. -/
def nested : Program := ⟨[outer, twice, plus, note], by decide⟩

theorem nested_straightLine : nested.StraightLine ["outer"] outer := by
  have hbuild : Supergraph.build nested ["outer"] = .ok (graphOf nested ["outer"]) :=
    build_graphOf (by decide +kernel)
  have hreach : ∀ {P : Method → Prop}, (∀ m ∈ nested.methods, P m) →
      ∀ m, nested.Reaches ["outer"] m → P m := by
    intro P hP m hm
    have hb := Supergraph.built_of_build hbuild
    exact hP m (hb.calls.reachable.defined m ((Supergraph.mem_methods_iff hbuild).mpr hm))
  have hsites : ∀ m ∈ nested.methods, ∀ m' ∈ nested.methods, ∀ n ∈ m.callSites,
      ∀ n' ∈ m'.callSites, nested.resolve? n = nested.resolve? n' →
        (nested.resolve? n).isSome = true → n = n' := by decide +kernel
  refine ⟨by simp, by decide +kernel, rfl, hreach ?_, hreach (by decide +kernel), ?_⟩
  · simp only [nested, List.forall_mem_cons]
    refine ⟨?_, ?_, ?_, ?_, by simp⟩ <;> constructor <;>
      simp [outer, twice, plus, note, Method.of, Stmt.emit, Action.jumpLabel?, Action.pass]
  · refine hreach fun m hm => hreach fun m' hm' n hn n' hn' c hc hc' => ?_
    exact hsites m hm m' hm' n hn n' hn' (hc.trans hc'.symm) (by rw [hc]; rfl)

end Sample

/-- In the sample, the machine ends with the result of the nested calls, and without a quotient. -/
theorem solve_exact_of_straightLine_sample :
    Sample.nested.StraightLine ["outer"] Sample.outer ∧
      ∃ stack frame, Machine.Reachable Sample.nested ["outer"] (· = none) stack ∧
        stack.head? = some frame ∧ frame.node = Sample.outer.exit ∧
        frame.env ⟨"outer", "r"⟩ = some (.wrap 12) ∧ frame.env ⟨"outer", "z"⟩ = none := by
  refine ⟨Sample.nested_straightLine, ?_⟩
  obtain ⟨g, hb, run, -, -, hrun, hnodes, hexact⟩ :=
    solve_exact_of_straightLine Sample.nested_straightLine
  have hbuild : Supergraph.build Sample.nested ["outer"] =
      .ok (Sample.graphOf Sample.nested ["outer"]) := Sample.build_graphOf (by decide +kernel)
  obtain rfl := Except.ok.inj (hb.symm.trans hbuild)
  have hexit : some Sample.outer.exit ∈
      (Sample.graphOf Sample.nested ["outer"]).nodes.map some :=
    List.mem_map_of_mem (by decide +kernel)
  obtain ⟨stack, hstack, hnode⟩ := List.mem_map.mp (hnodes.mem_iff.mpr hexit)
  obtain ⟨frame, hframe, hat⟩ := Option.map_eq_some_iff.mp hnode
  obtain ⟨before, _, hbefore, -, hvalues⟩ := (hexact .fifo []).2 stack hstack frame hframe
  have hsolved :
      (((solve (Sample.graphOf Sample.nested ["outer"]) ⟨.fifo, none⟩ []).run.table.inFact?
        Sample.outer.exit).map fun f => (f.get ⟨"outer", "r"⟩, f.get ⟨"outer", "z"⟩)) =
      some (.const 12, .unset) := by decide +kernel
  rw [← hat, hbefore] at hsolved
  obtain ⟨hr, hz⟩ := Prod.mk.inj (Option.some.inj hsolved)
  obtain ⟨v, hv, hval⟩ := ((hvalues _).1 12).mp hr
  refine ⟨stack, frame, (hrun stack).mp hstack, hframe, hat, ?_, (hvalues _).2.1.mp hz⟩
  rw [hv]
  exact congrArg some (Word.ext (hval.trans (by decide)))

end ConstFlow
