import ConstFlow.Proofs.MoreEntries
import ConstFlow.Proofs.Scoping
import ConstFlow.Proofs.Soundness

/-!
# Results of undefined methods

No edge supplies the result of a call whose method is not defined, so nothing is known of its
receiver after the call. A machine in which such a call may give any value then has a value where
the fact says `unset`. If another path has a constant for the variable, the two are combined to that
constant, and the machine may have any other value there: results of undefined methods can be taken
for constants (`foreign_result_taken_for_constant`).

What facts do cover are the values that no such result went into. To say which ones these are, a
frame keeps marks (`TrackedFrame`). The result of an undefined method is marked; a statement marks
its target if it reads a marked variable; arguments and results of defined methods hand their marks
on. Tracking does not get in the way of runs (`reachable_iff_tracked`).

The proof forgets all marked values. What is left of a run is a run as well, of the machine in which
undefined methods give no value (`TrackedStep.native`): where a statement reads a value that was
forgotten it has no result, and the result that it has in the full run is marked. For that machine,
facts are known to be sound.
-/

namespace ConstFlow

/-! ## Marks -/

/-- Which variables have values that a result of an undefined method went into. -/
abbrev Marks := Var → Bool

namespace Marks

/-- Parameters have the marks of their arguments. -/
def bind (params args : List Var) (marks : Marks) : Marks :=
  (params.zip args).foldl (fun callee b => Function.update callee b.1 (marks b.2)) fun _ => false

def receive (marks : Marks) (receiver : Option Var) (marked : Bool) : Marks :=
  match receiver with
  | none => marks
  | some x => Function.update marks x marked

end Marks

namespace Action

/-- A statement that is not a call marks its target if it reads a marked variable. -/
def mark (a : Action) (marks : Marks) : Marks :=
  match a with
  | literal x _ => Function.update marks x false
  | copy x y => Function.update marks x (marks y)
  | binary x _ y z => Function.update marks x (marks y || marks z)
  | _ => marks

def returnsMarked (a : Action) (marks : Marks) : Bool :=
  match a with
  | ret (some x) => marks x
  | _ => false

end Action

/-- A frame that remembers which of its values come from undefined methods. -/
structure TrackedFrame extends Frame where
  foreign : Marks
  foreignResult : Bool

/-- The steps of the machine in which undefined methods may give any value, with marks. -/
inductive Machine.TrackedStep (p : Program) : List TrackedFrame → List TrackedFrame → Prop where
  | run {f : TrackedFrame} {rest : List TrackedFrame} {n : Node}
      (plain : f.node.action.isCall = false) (next : n ∈ p.next f.node) :
      TrackedStep p (f :: rest)
        (⟨⟨n, f.node.action.run f.env, f.node.action.returned f.env⟩,
          f.node.action.mark f.foreign, f.node.action.returnsMarked f.foreign⟩ :: rest)
  | call {f : TrackedFrame} {rest : List TrackedFrame} {name : Text} {args : List Var}
      {receiver : Option Var} {callee : Method} (site : f.node.action = .call name args receiver)
      (defined : p.find? name = some callee) :
      TrackedStep p (f :: rest)
        (⟨⟨callee.entry, .bind callee.params args f.env, none⟩,
          .bind callee.params args f.foreign, false⟩ :: f :: rest)
  | ret {f caller : TrackedFrame} {rest : List TrackedFrame} {m : Method} {n : Node}
      (method : m ∈ p.methods) (exit : f.node = m.exit) (next : n ∈ p.next caller.node) :
      TrackedStep p (f :: caller :: rest)
        (⟨⟨n, caller.env.receive caller.node.action.target? f.result, none⟩,
          caller.foreign.receive caller.node.action.target? f.foreignResult, false⟩ :: rest)
  | foreignCall {f : TrackedFrame} {rest : List TrackedFrame} {name : Text} {args : List Var}
      {receiver : Option Var} {n : Node} {v : Option Word}
      (site : f.node.action = .call name args receiver) (undefined : p.find? name = none)
      (next : n ∈ p.next f.node) :
      TrackedStep p (f :: rest)
        (⟨⟨n, f.env.receive receiver v, none⟩, f.foreign.receive receiver true, false⟩ :: rest)

/-- The states of tracked runs. Nothing is marked at the start. -/
inductive Machine.TrackedReachable (p : Program) (entries : List Text) :
    List TrackedFrame → Prop where
  | start {name : Text} {m : Method} {env : Env} (entry : name ∈ entries)
      (defined : p.find? name = some m) (params : ∀ x, x ∉ m.params → env x = none) :
      TrackedReachable p entries [⟨⟨m.entry, env, none⟩, fun _ => false, false⟩]
  | step {stack stack' : List TrackedFrame} (before : TrackedReachable p entries stack)
      (step : TrackedStep p stack stack') : TrackedReachable p entries stack'

/-! ## Tracking does not get in the way -/

namespace Machine

variable {p : Program} {names : List Text}

theorem TrackedStep.untracked {s s' : List TrackedFrame} (h : TrackedStep p s s') :
    Step p (fun _ => True) (s.map TrackedFrame.toFrame) (s'.map TrackedFrame.toFrame) := by
  cases h with
  | run plain next => exact .run plain next
  | call site defined => exact .call site defined
  | ret method exit next => exact .ret method exit next
  | foreignCall site undefined next => exact .foreignCall site undefined next trivial

theorem Step.exists_tracked {s : List TrackedFrame} {stack' : List Frame}
    (h : Step p (fun _ => True) (s.map TrackedFrame.toFrame) stack') :
    ∃ s', TrackedStep p s s' ∧ s'.map TrackedFrame.toFrame = stack' := by
  generalize hs : s.map TrackedFrame.toFrame = stack at h
  cases h with
  | run plain next =>
      obtain ⟨f, rest, rfl, rfl, rfl⟩ := List.map_eq_cons_iff.mp hs
      exact ⟨_, .run plain next, rfl⟩
  | call site defined =>
      obtain ⟨f, rest, rfl, rfl, rfl⟩ := List.map_eq_cons_iff.mp hs
      exact ⟨_, .call site defined, rfl⟩
  | ret method exit next =>
      obtain ⟨f, below, rfl, rfl, hbelow⟩ := List.map_eq_cons_iff.mp hs
      obtain ⟨caller, rest, rfl, rfl, rfl⟩ := List.map_eq_cons_iff.mp hbelow
      exact ⟨_, .ret method exit next, rfl⟩
  | foreignCall site undefined next =>
      obtain ⟨f, rest, rfl, rfl, rfl⟩ := List.map_eq_cons_iff.mp hs
      exact ⟨_, .foreignCall site undefined next, rfl⟩

/-- The tracked runs are the runs in which undefined methods may give any value. -/
theorem reachable_iff_tracked {stack : List Frame} :
    Reachable p names (fun _ => True) stack ↔
      ∃ s, TrackedReachable p names s ∧ s.map TrackedFrame.toFrame = stack := by
  constructor
  · intro h
    induction h with
    | start entry defined params => exact ⟨_, .start entry defined params, rfl⟩
    | step _ hstep ih =>
        obtain ⟨s, hs, rfl⟩ := ih
        obtain ⟨s', hstep', rfl⟩ := hstep.exists_tracked
        exact ⟨s', hs.step hstep', rfl⟩
  · rintro ⟨s, hs, rfl⟩
    induction hs with
    | start entry defined params => exact .start entry defined params
    | step _ hstep ih => exact ih.step hstep.untracked

end Machine

/-! ## Runs without the marked values -/

def Env.without (env : Env) (marks : Marks) : Env := fun x => if marks x then none else env x

/-- A frame without the values that come from undefined methods. -/
def TrackedFrame.native (f : TrackedFrame) : Frame :=
  ⟨f.node, f.env.without f.foreign, if f.foreignResult then none else f.result⟩

namespace Env

variable (env : Env) (marks : Marks)

theorem without_update (x : Var) (v : Option Word) (marked : Bool) :
    Env.without (Function.update env x v) (Function.update marks x marked) =
      Function.update (env.without marks) x (if marked then none else v) := by
  funext y
  by_cases hy : y = x
  · subst hy
    simp [without]
  · simp [without, Function.update_of_ne hy]

theorem without_receive (receiver : Option Var) (v : Option Word) (marked : Bool) :
    (env.receive receiver v).without (marks.receive receiver marked) =
      (env.without marks).receive receiver (if marked then none else v) := by
  cases receiver with
  | none => rfl
  | some x => exact without_update env marks x v marked

theorem without_bind (params args : List Var) :
    (Env.bind params args env).without (.bind params args marks) =
      .bind params args (env.without marks) := by
  unfold Env.bind Marks.bind
  suffices hs : ∀ (bs : List (Var × Var)) (e : Env) (k : Marks),
      Env.without (bs.foldl (fun callee b => Function.update callee b.1 (env b.2)) e)
          (bs.foldl (fun callee b => Function.update callee b.1 (marks b.2)) k) =
        bs.foldl (fun callee b => Function.update callee b.1 (env.without marks b.2))
          (e.without k) from hs _ _ _
  intro bs
  induction bs with
  | nil => exact fun _ _ => rfl
  | cons b bs ih =>
      intro e k
      rw [List.foldl_cons, List.foldl_cons, List.foldl_cons, ih, without_update]
      rfl

/-- A statement that reads a marked value has no result without it, and marks the result that it has
with it. -/
theorem without_run (a : Action) :
    (a.run env).without (a.mark marks) = a.run (env.without marks) := by
  cases a with
  | literal x v => exact without_update env marks x _ false
  | copy x y => exact without_update env marks x _ _
  | binary x op y z =>
      refine (without_update env marks x _ _).trans (congrArg (Function.update _ x) ?_)
      -- An operand that is missing leaves no result, just as a marked one does.
      unfold without
      cases marks y <;> cases marks z <;> cases env y <;> rfl
  | _ => rfl

theorem returned_without (a : Action) :
    a.returned (env.without marks) = if a.returnsMarked marks then none else a.returned env := by
  cases a with
  | ret value => cases value <;> rfl
  | _ => rfl

end Env

namespace Machine

variable {p : Program} {names : List Text}

theorem TrackedStep.native {s s' : List TrackedFrame} (h : TrackedStep p s s') :
    Step p (· = none) (s.map TrackedFrame.native) (s'.map TrackedFrame.native) := by
  -- Control does not look at values, so the same steps are there without the marked ones.
  cases h with
  | @run f rest n plain next =>
      simp only [List.map_cons, TrackedFrame.native, Env.without_run, ← Env.returned_without]
      exact .run (f := f.native) plain next
  | @call f rest name args receiver callee site defined =>
      simp only [List.map_cons, TrackedFrame.native, Env.without_bind]
      exact .call (f := f.native) site defined
  | @ret f caller rest m n method exit next =>
      simp only [List.map_cons, TrackedFrame.native, Env.without_receive]
      exact .ret (f := f.native) method exit next
  | @foreignCall f rest name args receiver n v site undefined next =>
      simp only [List.map_cons, TrackedFrame.native, Env.without_receive]
      exact .foreignCall (f := f.native) site undefined next rfl

theorem TrackedReachable.native {s : List TrackedFrame} (h : TrackedReachable p names s) :
    Reachable p names (· = none) (s.map TrackedFrame.native) := by
  induction h with
  | start entry defined params => exact .start entry defined params
  | step _ hstep ih => exact ih.step hstep.native

end Machine

/-! ## Constants -/

/-- In every state of every run in which undefined methods may give any value: if the solved fact
before the node of a frame gives a constant for a variable that has a value there, the value is that
constant, unless a result of an undefined method went into it. -/
theorem solve_constant_unless_foreign {p : Program} {names : List Text} {g : Supergraph}
    (h : Supergraph.build p names = .ok g) (strategy : Strategy) (noted : List Mismatch) :
    (∀ stack, Machine.Reachable p names (fun _ => True) stack ↔
      ∃ s, Machine.TrackedReachable p names s ∧ s.map TrackedFrame.toFrame = stack) ∧
    ∀ s, Machine.TrackedReachable p names s → ∀ f ∈ s,
      ∃ fact, (solve g ⟨strategy, none⟩ noted).run.table.inFact? f.node = some fact ∧
        ∀ x v c, f.env x = some v → fact.get x = .const c → f.foreign x = true ∨ v.val = c := by
  refine ⟨fun stack => Machine.reachable_iff_tracked, fun s hs f hf => ?_⟩
  have hleast := solve_least (Supergraph.wellFormed_of_build h) strategy noted
  have hready := hleast.approximates.ready
  have hcovers := hleast.covers
  generalize (solve g ⟨strategy, none⟩ noted).run.table = t at hready hcovers ⊢
  have hsound : f.native.Sound p g t.facts :=
    (hs.native.sound h hcovers fun v hv => hv).frames _ (List.mem_map_of_mem hf)
  refine ⟨_, hready.inFact?_eq hsound.node_mem, fun x v c hv hc => ?_⟩
  cases hmark : f.foreign x with
  | true => exact Or.inl rfl
  | false =>
      have hkept : f.native.env x = some v := by
        show (if f.foreign x then none else f.env x) = some v
        rw [hmark, hv]
        rfl
      have hle : Value.const v.val ≤ .const c := hc ▸ hsound.env x v hkept
      rcases Value.const_le_iff.mp hle with heq | hnac
      · exact Or.inr (Value.const.inj heq).symm
      · cases hnac

namespace Sample

/-- If the branch is not taken, `x` is the result of a method that is not defined, and goes into
`z`. -/
def guess : Method :=
  .of "guess" [⟨"guess", "p"⟩]
    [⟨2, .literal ⟨"guess", "x"⟩ 1⟩,
      ⟨3, .binary ⟨"guess", "y"⟩ .add ⟨"guess", "x"⟩ ⟨"guess", "x"⟩⟩,
      ⟨4, .branch .gt ⟨"guess", "p"⟩ ⟨"guess", "x"⟩ "done"⟩,
      ⟨5, .call "external" [⟨"guess", "y"⟩] (some ⟨"guess", "x"⟩)⟩,
      ⟨7, .binary ⟨"guess", "z"⟩ .mul ⟨"guess", "x"⟩ ⟨"guess", "y"⟩⟩,
      ⟨8, .ret (some ⟨"guess", "z"⟩)⟩]
    (Assoc.empty.set "done" 4)

def guesses : Program := ⟨[guess], by decide⟩

def guessGraph : Supergraph := graphOf guesses ["guess"]

theorem build_guesses : Supergraph.build guesses ["guess"] = .ok guessGraph :=
  build_graphOf (by decide +kernel)

/-- With `0` for `p` the branch is not taken, and the undefined method gives `7`. -/
theorem reachable_guess :
    ∃ f, Machine.TrackedReachable guesses ["guess"] [f] ∧ f.node = guess.nodeAt 5 ∧
      f.env ⟨"guess", "y"⟩ = some (.wrap 2) ∧ f.foreign ⟨"guess", "y"⟩ = false ∧
      f.env ⟨"guess", "z"⟩ = some (.wrap 14) ∧ f.foreign ⟨"guess", "z"⟩ = true := by
  let env : Env := Function.update (fun _ => none) ⟨"guess", "p"⟩ (some (.wrap 0))
  have hentry : Machine.TrackedReachable guesses ["guess"]
      [⟨⟨guess.entry, env, none⟩, fun _ => false, false⟩] := by
    refine .start (List.mem_singleton_self _) (by decide +kernel) fun x hx => ?_
    exact Function.update_of_ne (List.ne_of_not_mem_cons hx) _ _
  have hnext : ∀ i < 5, guess.nodeAt (i + 1) ∈ guesses.next (guess.nodeAt i) := by decide +kernel
  have hfirst := hentry.step (.run rfl
    (show guess.nodeAt 0 ∈ guesses.next guess.entry by decide +kernel))
  have hsum := hfirst.step (.run rfl (hnext 0 (by decide)))
  have hbranch := hsum.step (.run rfl (hnext 1 (by decide)))
  have hcall := hbranch.step (.run rfl (hnext 2 (by decide)))
  have hresult := hcall.step (.foreignCall (v := some (.wrap 7)) rfl
    (show guesses.find? "external" = none by decide +kernel) (hnext 3 (by decide)))
  have hproduct := hresult.step (.run rfl (hnext 4 (by decide)))
  exact ⟨_, hproduct, rfl, rfl, rfl, rfl, rfl⟩

end Sample

/-- In the sample, `y` comes from literals alone, and it is `2` as the fact says, although an
undefined method was called on the way. -/
theorem solve_constant_unless_foreign_sample :
    ∃ s f, Machine.TrackedReachable Sample.guesses ["guess"] s ∧ f ∈ s ∧
      f.foreign ⟨"guess", "y"⟩ = false ∧ f.env ⟨"guess", "y"⟩ = some (.wrap 2) ∧
      ∃ fact, (solve Sample.guessGraph ⟨.lifo, none⟩ []).run.table.inFact? f.node = some fact ∧
        fact.get ⟨"guess", "y"⟩ = .const 2 ∧ (Word.wrap 2).val = 2 := by
  obtain ⟨f, hs, hnode, hy, hnative, -, -⟩ := Sample.reachable_guess
  obtain ⟨-, hconst⟩ := solve_constant_unless_foreign Sample.build_guesses .lifo []
  obtain ⟨fact, hfact, hvalue⟩ := hconst [f] hs f List.mem_cons_self
  have hsolved : ((solve Sample.guessGraph ⟨.lifo, none⟩ []).run.table.inFact?
      (Sample.guess.nodeAt 5)).map (fun k => k.get ⟨"guess", "y"⟩) = some (.const 2) := by
    decide +kernel
  rw [← hnode, hfact] at hsolved
  have hget : fact.get ⟨"guess", "y"⟩ = .const 2 := Option.some.inj hsolved
  refine ⟨[f], f, hs, List.mem_cons_self, hnative, hy, fact, hfact, hget, ?_⟩
  exact (hvalue _ _ 2 hy hget).resolve_left (by rw [hnative]; exact Bool.false_ne_true)

/-- Not every constant is the value that the variable has, if undefined methods may give any value.
In the sample, parameters are distinct and all variables are of the method. With either strategy the
solved fact says `2` for `z`, where `z` is `14` in a run. -/
theorem foreign_result_taken_for_constant :
    (∀ m ∈ Sample.guesses.methods, m.params.Nodup ∧ m.IsLocal) ∧
      Supergraph.build Sample.guesses ["guess"] = .ok Sample.guessGraph ∧
      ∃ stack frame, Machine.Reachable Sample.guesses ["guess"] (fun _ => True) stack ∧
        frame ∈ stack ∧ frame.node = Sample.guess.nodeAt 5 ∧
        frame.env ⟨"guess", "z"⟩ = some (.wrap 14) ∧
        ∀ strategy, ∃ fact,
          (solve Sample.guessGraph ⟨strategy, none⟩ []).run.table.inFact? frame.node = some fact ∧
          fact.get ⟨"guess", "z"⟩ = .const 2 ∧ (Word.wrap 14).val ≠ 2 := by
  obtain ⟨f, hs, hnode, -, -, hz, -⟩ := Sample.reachable_guess
  refine ⟨by decide +kernel, Sample.build_guesses, [f.toFrame], f.toFrame,
    Machine.reachable_iff_tracked.mpr ⟨[f], hs, rfl⟩, List.mem_cons_self, hnode, hz,
    fun strategy => ?_⟩
  have hsolved : ((solve Sample.guessGraph ⟨strategy, none⟩ []).run.table.inFact?
      (Sample.guess.nodeAt 5)).map (fun k => k.get ⟨"guess", "z"⟩) = some (.const 2) := by
    cases strategy <;> decide +kernel
  obtain ⟨fact, hfact, hget⟩ := Option.map_eq_some_iff.mp hsolved
  exact ⟨fact, hnode ▸ hfact, hget, by decide⟩

end ConstFlow
