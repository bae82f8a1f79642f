import Mathlib.Data.List.Chain
import ConstFlow.Proofs.LeastSolution
import ConstFlow.Proofs.Machine

/-!
# Soundness

Whatever value a variable has when the machine stands before a node, the solved fact before that
node gives it that value or `nac`.

All that is used of the solved facts is that they cover the equations. Each kind of step of the
machine goes along edges of the supergraph, and what the edge carries covers the new values:

- a statement along the edge to the next node, after its effect (`Action.run_within`);
- a call along the edge into the callee (`Env.bind_within`);
- a return along two edges at once. The edge past the call has the values that the caller kept, and
  the edge from the exit of the callee has the one that is returned (`Stack.Sound.ret`);
- a call of an undefined method along the edge past the call, if it gives no value.

The invariant is about the whole stack (`Stack.Sound`). Callers that wait are covered before their
calls, for when they go on, and each frame runs the method that the frame below it calls, so that
returning from it goes along an edge that is there.
-/

namespace ConstFlow

/-! ## Values and facts -/

/-- Every value that a variable has is allowed by a fact. -/
def Env.Within (env : Env) (f : Fact) : Prop := ∀ x v, env x = some v → .const v.val ≤ f.get x

namespace Env.Within

variable {env : Env} {f g : Fact}

theorem mono (h : env.Within f) (hle : f.get ≤ g.get) : env.Within g :=
  fun x v hv => (h x v hv).trans (hle x)

theorem update (h : env.Within f) {w : Option Word} {u : Value}
    (hw : ∀ v, w = some v → .const v.val ≤ u) (x : Var) :
    Env.Within (Function.update env x w) (f.update x u) := by
  intro y v hv
  rw [Fact.get_update]
  by_cases hy : y = x
  · rw [if_pos hy]
    rw [hy, Function.update_self] at hv
    exact hw v hv
  · rw [if_neg hy]
    rw [Function.update_of_ne hy] at hv
    exact h y v hv

end Env.Within

theorem Env.within_empty : Env.Within (fun _ => none) .empty := fun _ _ h => by cases h

/-- Folding on facts allows what folding on values gives. -/
theorem Operator.applyAbstract_sound {op : Operator} {a b c : Int} {v w u : Value}
    (ha : .const a ≤ v) (hb : .const b ≤ w) (hc : op.apply a b = some c)
    (hu : op.applyAbstract v w = some u) : .const c ≤ u := by
  rcases Value.const_le_iff.mp ha with rfl | rfl
  · rcases Value.const_le_iff.mp hb with rfl | rfl
    · rw [applyAbstract_const] at hu
      split at hu
      · -- A zero divisor has no result.
        rename_i hd
        rw [Bool.and_eq_true, decide_eq_true_eq] at hd
        rw [apply, hd.1, hd.2] at hc
        cases hc
      · rw [hc] at hu
        exact (Option.some.inj hu).le
    · rw [applyAbstract_nac_right] at hu
      obtain rfl := Option.some.inj hu
      exact Value.le_nac _
  · rw [applyAbstract_nac_left] at hu
    obtain rfl := Option.some.inj hu
    exact Value.le_nac _

/-- The effect of a statement allows the values that the statement leaves. -/
theorem Action.run_within {a : Action} {env : Env} {f f' : Fact} (h : env.Within f)
    (he : a.localEffect f = some f') : (a.run env).Within f' := by
  cases a with
  | literal x v =>
      obtain rfl := Option.some.inj he
      refine h.update (fun w hw => ?_) x
      obtain rfl := Option.some.inj hw
      exact le_rfl
  | copy x y =>
      obtain rfl := Option.some.inj he
      exact h.update (h y) x
  | binary x op y z =>
      obtain ⟨u, hu, rfl⟩ := Option.map_eq_some_iff.mp he
      refine h.update (fun w hw => ?_) x
      obtain ⟨a, b, ha, hb, hc⟩ := Operator.apply_of_onWords hw
      exact Operator.applyAbstract_sound (h y a ha) (h z b hb) hc hu
  | _ =>
      obtain rfl := Option.some.inj he
      exact h

/-- The fact that a call carries into its callee allows the values of the parameters. -/
theorem Env.bind_within {env : Env} {f : Fact} (h : env.Within f) (params args : List Var) :
    (Env.bind params args env).Within (.bind params args f) := by
  unfold Env.bind Fact.bind
  suffices hs : ∀ (bs : List (Var × Var)) (e : Env) (k : Fact), e.Within k →
      Env.Within (bs.foldl (fun callee b => Function.update callee b.1 (env b.2)) e)
        (bs.foldl (fun k b => k.update b.1 (f.get b.2)) k) from hs _ _ _ Env.within_empty
  intro bs
  induction bs with
  | nil => exact fun e k hk => hk
  | cons b bs ih => exact fun e k hk => ih _ _ (hk.update (h b.2) b.1)

/-- A caller that goes on: the fact must allow what is received, and what was there for all other
variables. -/
theorem Env.receive_within {env : Env} {f : Fact} {receiver : Option Var} {w : Option Word}
    (hkept : ∀ x v, receiver ≠ some x → env x = some v → .const v.val ≤ f.get x)
    (hgot : ∀ x v, receiver = some x → w = some v → .const v.val ≤ f.get x) :
    (env.receive receiver w).Within f := by
  intro y v hv
  cases receiver with
  | none => exact hkept y v (by simp) hv
  | some x =>
      rw [show env.receive (some x) w = Function.update env x w from rfl] at hv
      by_cases hy : y = x
      · rw [hy, Function.update_self] at hv
        exact hgot y v (hy ▸ rfl) hv
      · rw [Function.update_of_ne hy] at hv
        exact hkept y v (fun h => hy (Option.some.inj h).symm) hv

/-! ## Edges that steps go along -/

section Edges

variable {p : Program} {g : Supergraph} (hg : Supergraph.Built p g) {n n' : Node}
  (hn : n ∈ g.nodes)
include hg hn

theorem Supergraph.Built.exists_flow (h : n' ∈ p.next n) :
    ∃ c ∈ g.flows, ∃ e ∈ c.edges, e.source = n ∧ e.target = n' := by
  obtain ⟨m, hm, c, hc, e, he, rfl, rfl⟩ := Program.mem_next_iff.mp h
  obtain ⟨k, hk, hnk⟩ := hg.mem_nodes_iff.mp hn
  obtain rfl : m = k := Program.eq_of_mem_nodes hm (hg.calls.reachable.defined k hk)
    (ControlFlow.mem_nodes_of_build hc he).1 hnk
  obtain ⟨c', hc', hb⟩ := hg.exists_build hk
  obtain rfl := Except.ok.inj (hc.symm.trans hb)
  exact ⟨c, hc', e, he, rfl, rfl⟩

theorem Supergraph.Built.mem_edges_of_next (h : n' ∈ p.next n) :
    ⟨n, n', if n.action.isCall then .callToReturn else .normal⟩ ∈ g.edges := by
  obtain ⟨c, hc, e, he, rfl, rfl⟩ := hg.exists_flow hn h
  exact hg.mem_edges_iff.mpr (Or.inl ⟨c, hc, e, he, rfl⟩)

variable {callee : Method} (hres : p.resolve? n = some callee)
include hres

theorem Supergraph.Built.mem_edges_of_call : ⟨n, callee.entry, .call callee⟩ ∈ g.edges :=
  hg.mem_edges_iff.mpr (Or.inr
    ⟨n, hg.mem_sites_iff.mpr ⟨hn, Program.isCall_of_resolve? hres⟩, callee, hres, Or.inl rfl⟩)

theorem Supergraph.Built.mem_edges_of_ret (h : n' ∈ p.next n) :
    ⟨callee.exit, n', .ret n callee⟩ ∈ g.edges := by
  obtain ⟨c, hc, e, he, hs, rfl⟩ := hg.exists_flow hn h
  exact hg.mem_edges_iff.mpr (Or.inr ⟨n, hg.mem_sites_iff.mpr
    ⟨hn, Program.isCall_of_resolve? hres⟩, callee, hres, Or.inr ⟨c, hc, e, he, hs, rfl⟩⟩)

end Edges

theorem Edge.get_carry_callToReturn {a b : Node} {f : Fact} {x : Var}
    (h : a.action.target? ≠ some x) :
    ((Edge.mk a b .callToReturn).carry (some f)).get x = f.get x := by
  rw [carry_callToReturn]
  split
  · rfl
  · rename_i y hy
    rw [Fact.get_remove, if_neg]
    exact fun hxy => h (hxy ▸ hy)

theorem Edge.get_carry_ret {a b site : Node} {callee : Method} {f : Fact} {x : Var}
    (h : site.action.target? = some x) :
    ((Edge.mk a b (.ret site callee)).carry (some f)).get x = f.meetOf callee.returnVars := by
  rw [carry_ret, h]
  exact (Fact.get_update _ _ _ _).trans (if_pos rfl)

theorem Method.mem_returnVars_of_node {m : Method} {n : Node} (hn : n ∈ m.nodes) {x : Var}
    (h : n.action = .ret (some x)) : x ∈ m.returnVars := by
  rcases mem_nodes_iff.mp hn with rfl | hn | rfl
  · cases h
  · obtain ⟨i, s, hs, rfl⟩ := mem_stmtNodes_iff.mp hn
    exact mem_returnVars_iff.mpr ⟨s, List.mem_of_getElem? hs, h⟩
  · cases h

/-! ## Stacks -/

/-- A frame whose values are allowed by the fact before its node. What it is about to return is the
value of a variable that its method returns. -/
structure Frame.Sound (p : Program) (g : Supergraph) (a : Facts) (f : Frame) : Prop where
  node_mem : f.node ∈ g.nodes
  env : f.env.Within (a.before f.node)
  result : ∀ v, f.result = some v →
    ∃ m ∈ p.methods, f.node ∈ m.nodes ∧ ∃ x ∈ m.returnVars, f.env x = some v

/-- One frame runs the method that another one calls. -/
def Frame.RunsFor (p : Program) (f caller : Frame) : Prop :=
  ∃ callee, p.resolve? caller.node = some callee ∧ f.node ∈ callee.nodes

/-- All frames are sound, and each one runs the method that the one below it calls. -/
structure Stack.Sound (p : Program) (g : Supergraph) (a : Facts) (stack : List Frame) : Prop where
  frames : ∀ f ∈ stack, f.Sound p g a
  linked : stack.IsChain (Frame.RunsFor p)

section Steps

variable {p : Program} {g : Supergraph} {a : Facts} {f caller : Frame} {rest : List Frame}

/-- What a statement that is not a call leaves is allowed by the fact after it; so is what a call
finds. -/
theorem Frame.Sound.after (ha : a.Covers g) (hf : f.Sound p g a) :
    (f.node.action.run f.env).Within (a.after f.node) := by
  obtain ⟨effect, he, hle⟩ := ha.effect f.node hf.node_mem
  exact (Action.run_within hf.env he).mono hle

theorem Frame.Sound.after_of_isCall (ha : a.Covers g) (hf : f.Sound p g a)
    (hc : f.node.action.isCall = true) : f.env.Within (a.after f.node) := by
  have hrun : f.node.action.run f.env = f.env := by
    cases h : f.node.action with
    | call => rfl
    | _ => rw [h] at hc; cases hc
  exact hrun ▸ hf.after ha

namespace Stack.Sound

theorem top (h : Stack.Sound p g a (f :: rest)) : f.Sound p g a := h.frames f List.mem_cons_self

theorem tail (h : Stack.Sound p g a (f :: rest)) : Stack.Sound p g a rest :=
  ⟨fun k hk => h.frames k (List.mem_cons_of_mem f hk), h.linked.tail⟩

/-- The running frame goes on inside its method. -/
theorem goOn (h : Stack.Sound p g a (f :: rest)) {f' : Frame} (hf' : f'.Sound p g a)
    (hnext : f'.node ∈ p.next f.node) : Stack.Sound p g a (f' :: rest) := by
  refine ⟨List.forall_mem_cons.mpr ⟨hf', h.tail.frames⟩, ?_⟩
  cases rest with
  | nil => exact .singleton _
  | cons c rest =>
      obtain ⟨⟨callee, hres, hmem⟩, hrest⟩ := List.isChain_cons_cons.mp h.linked
      have hcallee := Program.mem_methods_of_resolve? hres
      exact List.isChain_cons_cons.mpr
        ⟨⟨callee, hres, Program.mem_nodes_of_next hcallee hmem hnext⟩, hrest⟩

variable (hg : Supergraph.Built p g) (ha : a.Covers g)
include hg ha

theorem run (h : Stack.Sound p g a (f :: rest)) {n : Node} (hplain : f.node.action.isCall = false)
    (hnext : n ∈ p.next f.node) :
    Stack.Sound p g a (⟨n, f.node.action.run f.env, f.node.action.returned f.env⟩ :: rest) := by
  have hedge := hg.mem_edges_of_next h.top.node_mem hnext
  rw [hplain] at hedge
  refine h.goOn ⟨hg.wellFormed.target_mem _ hedge, ?_, fun v hv => ?_⟩ hnext
  · exact (h.top.after ha).mono (ha.flow _ hedge)
  · obtain ⟨x, hx, hval, hrun⟩ := Action.of_returned hv
    obtain ⟨m, hm, hmem⟩ := hg.mem_nodes_iff.mp h.top.node_mem
    have hdef := hg.calls.reachable.defined m hm
    refine ⟨m, hdef, Program.mem_nodes_of_next hdef hmem hnext, x,
      Method.mem_returnVars_of_node hmem hx, ?_⟩
    rw [hrun]
    exact hval

theorem call (h : Stack.Sound p g a (f :: rest)) {name : Text} {args : List Var}
    {receiver : Option Var} {callee : Method} (hsite : f.node.action = .call name args receiver)
    (hdefined : p.find? name = some callee) :
    Stack.Sound p g a
      (⟨callee.entry, .bind callee.params args f.env, none⟩ :: f :: rest) := by
  have hres : p.resolve? f.node = some callee := by
    rw [Program.resolve?, hsite]
    exact hdefined
  have hedge := hg.mem_edges_of_call h.top.node_mem hres
  refine ⟨List.forall_mem_cons.mpr ⟨⟨hg.wellFormed.target_mem _ hedge, ?_, ?_⟩, h.frames⟩,
    List.isChain_cons_cons.mpr ⟨⟨callee, hres, callee.entry_mem_nodes⟩, h.linked⟩⟩
  · have hflow := ha.flow _ hedge
    rw [Edge.carry_call, hsite] at hflow
    have hafter := h.top.after_of_isCall ha (by rw [hsite]; rfl)
    exact (Env.bind_within hafter callee.params args).mono hflow
  · intro v hv
    cases hv

/-- What a waiting caller keeps is allowed where it goes on. -/
theorem kept (h : Stack.Sound p g a (f :: rest)) (hc : f.node.action.isCall = true) {n : Node}
    (hnext : n ∈ p.next f.node) {x : Var} {v : Word} (hne : f.node.action.target? ≠ some x)
    (hv : f.env x = some v) : .const v.val ≤ (a.before n).get x := by
  have hedge := hg.mem_edges_of_next h.top.node_mem hnext
  rw [hc] at hedge
  refine le_trans ?_ (ha.flow _ hedge x)
  show _ ≤ ((Edge.mk f.node n .callToReturn).carry (some (a.after f.node))).get x
  rw [Edge.get_carry_callToReturn hne]
  exact h.top.after_of_isCall ha hc x v hv

theorem ret (h : Stack.Sound p g a (f :: caller :: rest)) {m : Method} {n : Node}
    (hm : m ∈ p.methods) (hexit : f.node = m.exit) (hnext : n ∈ p.next caller.node) :
    Stack.Sound p g a
      (⟨n, caller.env.receive caller.node.action.target? f.result, none⟩ :: rest) := by
  obtain ⟨⟨callee, hres, hmem⟩, -⟩ := List.isChain_cons_cons.mp h.linked
  have hcaller := h.tail.top
  have hcall := Program.isCall_of_resolve? hres
  obtain rfl : m = callee := Program.eq_of_mem_nodes hm (Program.mem_methods_of_resolve? hres)
    (hexit ▸ m.exit_mem_nodes) hmem
  have hback := hg.mem_edges_of_ret hcaller.node_mem hres hnext
  refine h.tail.goOn ⟨hg.wellFormed.target_mem _ hback, ?_, fun v hv => by cases hv⟩ hnext
  refine Env.receive_within (fun x v hne hv => h.tail.kept hg ha hcall hnext hne hv) ?_
  intro x v hx hv
  -- The value is that of a variable that the method returns, and the edge back has all of them.
  obtain ⟨k, hk, hknode, y, hy, hval⟩ := h.top.result v hv
  obtain rfl : k = m := Program.eq_of_mem_nodes hk hm hknode (hexit ▸ m.exit_mem_nodes)
  have hafter : f.env.Within (a.after k.exit) := by
    have hrun := h.top.after ha
    rw [hexit] at hrun
    exact hrun
  calc Value.const v.val
      ≤ (a.after k.exit).meetOf k.returnVars :=
        (hafter y v hval).trans (Fact.meetOf_le_iff.mp le_rfl y hy)
    _ = ((Edge.mk k.exit n (.ret caller.node k)).carry (some (a.after k.exit))).get x :=
        (Edge.get_carry_ret hx).symm
    _ ≤ (a.before n).get x := ha.flow _ hback x

theorem foreignCall (h : Stack.Sound p g a (f :: rest)) {name : Text} {args : List Var}
    {receiver : Option Var} {n : Node} (hsite : f.node.action = .call name args receiver)
    (hnext : n ∈ p.next f.node) :
    Stack.Sound p g a (⟨n, f.env.receive receiver none, none⟩ :: rest) := by
  have hcall : f.node.action.isCall = true := by rw [hsite]; rfl
  have htarget : f.node.action.target? = receiver := by rw [hsite]; rfl
  have hedge := hg.mem_edges_of_next h.top.node_mem hnext
  refine h.goOn ⟨hg.wellFormed.target_mem _ hedge, ?_, fun v hv => by cases hv⟩ hnext
  refine Env.receive_within (fun x v hne hv => ?_) fun x v _ hv => by cases hv
  exact h.kept hg ha hcall hnext (htarget ▸ hne) hv

/-- Every step keeps a stack sound, if calls of undefined methods give no values. -/
theorem step {foreign : Option Word → Prop} (hforeign : ∀ v, foreign v → v = none)
    {stack stack' : List Frame} (h : Stack.Sound p g a stack)
    (hstep : Machine.Step p foreign stack stack') : Stack.Sound p g a stack' := by
  cases hstep with
  | run hplain hnext => exact h.run hg ha hplain hnext
  | call hsite hdefined => exact h.call hg ha hsite hdefined
  | ret hm hexit hnext => exact h.ret hg ha hm hexit hnext
  | foreignCall hsite hundefined hnext hv =>
      obtain rfl := hforeign _ hv
      exact h.foreignCall hg ha hsite hnext

end Stack.Sound

end Steps

/-! ## Runs -/

/-- Facts that cover the equations allow every value that a run comes to. -/
theorem Machine.Reachable.sound {p : Program} {names : List Text} {g : Supergraph} {a : Facts}
    (hb : Supergraph.build p names = .ok g) (ha : a.Covers g) {foreign : Option Word → Prop}
    (hforeign : ∀ v, foreign v → v = none) {stack : List Frame}
    (h : Machine.Reachable p names foreign stack) : Stack.Sound p g a stack := by
  have hg := Supergraph.built_of_build hb
  induction h with
  | @start name m env hentry hdefined hparams =>
      have hm := Supergraph.mem_entryMethods_of_build hb hentry hdefined
      have hnode : m.entry ∈ g.nodes :=
        hg.mem_nodes_iff.mpr ⟨m, hg.wellFormed.entry_mem m hm, m.entry_mem_nodes⟩
      refine ⟨List.forall_mem_singleton.mpr ⟨hnode, fun x v hv => ?_, fun v hv => by cases hv⟩,
        .singleton _⟩
      have hx : x ∈ m.params := not_not.mp fun hx => by cases (hparams x hx).symm.trans hv
      have hbound := ha.boundary m.entry hnode x
      rw [Supergraph.boundary_entry hg.wellFormed hm, Fact.boundary_eq, Fact.get_nacOn, if_pos hx]
        at hbound
      exact (Value.le_nac _).trans hbound
  | step _ hstep ih => exact ih.step hg ha hforeign hstep

/-- In every state of every run, whatever value a variable of a frame has, the solved fact before
the node of that frame gives it that value or `nac`. Calls of undefined methods give no values
here. -/
theorem solve_sound {p : Program} {names : List Text} {g : Supergraph}
    (h : Supergraph.build p names = .ok g) (strategy : Strategy) (noted : List Mismatch)
    {stack : List Frame} (hs : Machine.Reachable p names (· = none) stack) {frame : Frame}
    (hf : frame ∈ stack) :
    frame.node ∈ g.nodes ∧
      ∃ fact, (solve g ⟨strategy, none⟩ noted).run.table.inFact? frame.node = some fact ∧
        ∀ x v, frame.env x = some v → fact.get x = .const v.val ∨ fact.get x = .nac := by
  have hg := Supergraph.wellFormed_of_build h
  have hstart := Table.start_approximates hg
  have hready : (solve g ⟨strategy, none⟩ noted).run.table.Ready g :=
    (resume_outcome hg hstart ⟨strategy, none⟩ noted).1.ready
  have hcovers : (solve g ⟨strategy, none⟩ noted).run.table.facts.Covers g :=
    (resume_unbounded hg hstart strategy noted).2.2
  generalize (solve g ⟨strategy, none⟩ noted).run.table = t at hready hcovers ⊢
  have hsound := (hs.sound h hcovers fun v hv => hv).frames frame hf
  exact ⟨hsound.node_mem, _, hready.inFact?_eq hsound.node_mem,
    fun x v hv => Value.const_le_iff.mp (hsound.env x v hv)⟩

/-- In the sample, `main` has called `pick` for the first time, and both parameters are `3`. -/
theorem solve_sound_sample :
    ∃ stack frame, Machine.Reachable Sample.program ["main"] (· = none) stack ∧ frame ∈ stack ∧
      frame.node = Sample.pick.entry ∧ frame.env ⟨"pick", "b"⟩ = some (.wrap 3) ∧
      ∃ fact, (solve Sample.graph ⟨.fifo, none⟩ []).run.table.inFact? frame.node = some fact ∧
        (fact.get ⟨"pick", "b"⟩ = .const (Word.wrap 3).val ∨ fact.get ⟨"pick", "b"⟩ = .nac) := by
  have hentry : Machine.Reachable Sample.program ["main"] (· = none)
      [⟨Sample.main.entry, fun _ => none, none⟩] :=
    .start (List.mem_singleton_self _) (by decide +kernel) fun _ _ => rfl
  have hfirst := hentry.step (.run rfl
    (show Sample.main.nodeAt 0 ∈ Sample.program.next Sample.main.entry by decide +kernel))
  have hsecond := hfirst.step (.run rfl
    (show Sample.main.nodeAt 1 ∈ Sample.program.next (Sample.main.nodeAt 0) by decide +kernel))
  have hcall := hsecond.step (.call rfl
    (show Sample.program.find? "pick" = some Sample.pick by decide +kernel))
  obtain ⟨-, fact, hfact, hsound⟩ :=
    solve_sound Sample.build_eq .fifo [] hcall List.mem_cons_self
  exact ⟨_, _, hcall, List.mem_cons_self, rfl, rfl, fact, hfact, hsound _ _ rfl⟩

end ConstFlow
