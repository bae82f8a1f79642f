import ConstFlow.Analysis.Transfer
import ConstFlow.Proofs.FactOrder

/-!
# What transfer functions keep

Three things are true of every statement and of every edge, and the solver rests on them alone:

- they are **monotone** (`localEffect_mono`, `carry_mono`): from a higher fact comes a higher one;
- they are defined on **32-bit constants** and stay there (`exists_localEffect`, `carry_inRange`);
- they **bind no new variables** but the target of a statement, the parameters of a callee and the
  receiver of a call (`mem_of_localEffect`, `mem_of_carry`).

Monotonicity of folding is not plain. A zero divisor takes two constants to `unset`, so an operator
on constants is no lattice homomorphism. What saves it is that the order is flat: between two
constants there is no order to respect, and once an operand is `nac` the result is.

Both sides of `localEffect_mono` are assumed to be defined. A fact below a defined one may well be
undefined when it is out of range: `nac` hides a bad divisor.
-/

namespace ConstFlow

theorem Int32.wrap_eq_self {v : Int} (h : InRange v) : wrap v = v := by
  simp only [InRange, least, greatest] at h
  rw [wrap_eq_bmod]
  exact Int.bmod_eq_of_le (by omega) (by omega)

/-! ## Operators -/

namespace Operator

theorem inRange_of_apply {op : Operator} {a b c : Int} (h : op.apply a b = some c) :
    Int32.InRange c := by
  unfold apply at h
  split at h
  · cases h
  · obtain rfl := Option.some.inj h
    exact Int32.wrap_inRange _

/-- On 32-bit integers, only a zero divisor has no result. -/
theorem exists_apply {op : Operator} {b : Int} (hb : Int32.InRange b)
    (hd : ¬(op.isDivision && b = 0) = true) (a : Int) : ∃ c, op.apply a b = some c := by
  unfold apply
  rw [Int32.wrap_eq_self hb, if_neg hd]
  exact ⟨_, rfl⟩

variable (op : Operator)

theorem applyAbstract_nac_left (w : Value) : op.applyAbstract .nac w = some .nac := by
  cases w <;> rfl

theorem applyAbstract_nac_right (v : Value) : op.applyAbstract v .nac = some .nac := by
  cases v <;> rfl

theorem applyAbstract_unset_left {w : Value} (h : w ≠ .nac) :
    op.applyAbstract .unset w = some .unset := by
  cases w with
  | unset => rfl
  | const b => simp [applyAbstract]
  | nac => exact absurd rfl h

theorem applyAbstract_unset_right {v : Value} (h : v ≠ .nac) :
    op.applyAbstract v .unset = some .unset := by
  cases v with
  | unset => rfl
  | const a => rfl
  | nac => exact absurd rfl h

theorem applyAbstract_const (a b : Int) :
    op.applyAbstract (.const a) (.const b) =
      if op.isDivision && b = 0 then some .unset else (op.apply a b).map .const := rfl

/-- Folding is monotone in both operands at once, wherever it is defined. -/
theorem applyAbstract_mono {v v' w w' a b : Value} (hv : v ≤ v') (hw : w ≤ w')
    (ha : op.applyAbstract v w = some a) (hb : op.applyAbstract v' w' = some b) : a ≤ b := by
  by_cases hv' : v' = .nac
  · rw [hv', applyAbstract_nac_left] at hb
    obtain rfl := Option.some.inj hb
    exact Value.le_nac a
  by_cases hw' : w' = .nac
  · rw [hw', applyAbstract_nac_right] at hb
    obtain rfl := Option.some.inj hb
    exact Value.le_nac a
  -- Neither upper operand is `nac`, so each lower one is `unset` or the same.
  have hvn : v ≠ .nac := fun h => hv' (Value.eq_nac_of_le (h ▸ hv))
  have hwn : w ≠ .nac := fun h => hw' (Value.eq_nac_of_le (h ▸ hw))
  rcases Value.le_iff.mp hv with rfl | h | rfl
  · rw [applyAbstract_unset_left op hwn] at ha
    obtain rfl := Option.some.inj ha
    exact Value.unset_le b
  · exact absurd h hv'
  · rcases Value.le_iff.mp hw with rfl | h | rfl
    · rw [applyAbstract_unset_right op hvn] at ha
      obtain rfl := Option.some.inj ha
      exact Value.unset_le b
    · exact absurd h hw'
    · exact (Option.some.inj (ha.symm.trans hb)).le

/-- On 32-bit constants, folding has a result, and it is again in range. -/
theorem exists_applyAbstract {v w : Value} (hv : v.InRange) (hw : w.InRange) :
    ∃ u, op.applyAbstract v w = some u ∧ u.InRange := by
  by_cases hvn : v = .nac
  · exact ⟨.nac, hvn ▸ op.applyAbstract_nac_left w, trivial⟩
  by_cases hwn : w = .nac
  · exact ⟨.nac, hwn ▸ op.applyAbstract_nac_right v, trivial⟩
  cases v with
  | unset => exact ⟨.unset, op.applyAbstract_unset_left hwn, trivial⟩
  | nac => exact absurd rfl hvn
  | const a =>
      cases w with
      | unset => exact ⟨.unset, op.applyAbstract_unset_right hvn, trivial⟩
      | nac => exact absurd rfl hwn
      | const b =>
          rw [applyAbstract_const]
          by_cases hd : (op.isDivision && b = 0) = true
          · exact ⟨.unset, if_pos hd, trivial⟩
          · obtain ⟨c, hc⟩ := exists_apply hw hd a
            exact ⟨.const c, by rw [if_neg hd, hc]; rfl, inRange_of_apply hc⟩

end Operator

/-! ## Statements -/

namespace Action

theorem evaluate_congr {f g : Fact} (h : f.get = g.get) (a : Action) :
    a.evaluate f = a.evaluate g := by
  cases a <;> simp only [evaluate, h]

theorem evaluate_mono {a : Action} {f g : Fact} (h : f.get ≤ g.get) {v w : Value}
    (hv : a.evaluate f = some v) (hw : a.evaluate g = some w) : v ≤ w := by
  cases a with
  | copy x y =>
      obtain rfl := Option.some.inj hv
      obtain rfl := Option.some.inj hw
      exact h y
  | binary x op y z => exact op.applyAbstract_mono (h y) (h z) hv hw
  | _ => exact (Option.some.inj (hv.symm.trans hw)).le

theorem exists_evaluate (a : Action) {f : Fact} (h : f.InRange) :
    ∃ v, a.evaluate f = some v ∧ v.InRange := by
  cases a with
  | literal x v => exact ⟨_, rfl, Int32.wrap_inRange v⟩
  | copy x y => exact ⟨_, rfl, h y⟩
  | binary x op y z => exact op.exists_applyAbstract (h y) (h z)
  | _ => exact ⟨_, rfl, trivial⟩

/-- A statement either passes its fact on, or rebinds its target. -/
theorem localEffect_cases (a : Action) :
    (∀ f, a.localEffect f = some f) ∨
      ∃ x, a.target? = some x ∧ a.isCall = false ∧
        ∀ f, a.localEffect f = (a.evaluate f).map (f.update x) := by
  unfold localEffect effect
  cases hc : a.isCall with
  | true => exact Or.inl fun f => by simp
  | false =>
      cases ht : a.target? with
      | none => exact Or.inl fun f => by simp
      | some x => exact Or.inr ⟨x, rfl, rfl, fun f => by simp⟩

theorem localEffect_mono {a : Action} {f g : Fact} (h : f.get ≤ g.get) {f' g' : Fact}
    (hf : a.localEffect f = some f') (hg : a.localEffect g = some g') : f'.get ≤ g'.get := by
  rcases a.localEffect_cases with hid | ⟨x, -, -, hup⟩
  · obtain rfl := Option.some.inj ((hid f).symm.trans hf)
    obtain rfl := Option.some.inj ((hid g).symm.trans hg)
    exact h
  · rw [hup, Option.map_eq_some_iff] at hf hg
    obtain ⟨v, hv, rfl⟩ := hf
    obtain ⟨w, hw, rfl⟩ := hg
    exact Fact.update_mono h (evaluate_mono h hv hw) x

/-- On 32-bit constants every statement has an effect, and it is again in range. -/
theorem exists_localEffect (a : Action) {f : Fact} (h : f.InRange) :
    ∃ f', a.localEffect f = some f' ∧ f'.InRange := by
  rcases a.localEffect_cases with hid | ⟨x, -, -, hup⟩
  · exact ⟨f, hid f, h⟩
  · obtain ⟨v, hv, hr⟩ := a.exists_evaluate h
    exact ⟨f.update x v, by rw [hup, hv]; rfl, h.update hr x⟩

/-- The effect depends on what the fact says only. -/
theorem localEffect_congr {a : Action} {f g f' : Fact} (h : f.get = g.get)
    (hf : a.localEffect f = some f') : ∃ g', a.localEffect g = some g' ∧ g'.get = f'.get := by
  rcases a.localEffect_cases with hid | ⟨x, -, -, hup⟩
  · obtain rfl := Option.some.inj ((hid f).symm.trans hf)
    exact ⟨g, hid g, h.symm⟩
  · rw [hup, Option.map_eq_some_iff] at hf
    obtain ⟨v, hv, rfl⟩ := hf
    refine ⟨g.update x v, by rw [hup, ← evaluate_congr h, hv]; rfl, ?_⟩
    funext y
    rw [Fact.get_update, Fact.get_update, h]

/-- A statement binds no variable but its target. -/
theorem mem_of_localEffect {a : Action} {f f' : Fact} (hf : a.localEffect f = some f') {y : Var}
    (hy : f'.get y ≠ .unset) : f.get y ≠ .unset ∨ a.target? = some y := by
  rcases a.localEffect_cases with hid | ⟨x, ht, -, hup⟩
  · obtain rfl := Option.some.inj ((hid f).symm.trans hf)
    exact Or.inl hy
  · rw [hup, Option.map_eq_some_iff] at hf
    obtain ⟨v, -, rfl⟩ := hf
    rw [Fact.get_update] at hy
    split at hy
    · rename_i hyx
      exact Or.inr (hyx ▸ ht)
    · exact Or.inl hy

end Action

/-! ## Arguments and results -/

namespace Fact

/-- Some variables may be anything, and nothing is said of others. -/
def nacOn (xs : List Var) : Fact := xs.foldl (fun f x => f.update x .nac) empty

theorem boundary_eq (m : Method) : boundary m = nacOn m.params := rfl

theorem get_nacOn (xs : List Var) (x : Var) :
    (nacOn xs).get x = if x ∈ xs then .nac else .unset := by
  unfold nacOn
  suffices h : ∀ (ys : List Var) (f : Fact),
      (ys.foldl (fun f x => f.update x .nac) f).get x = if x ∈ ys then .nac else f.get x from h _ _
  intro ys
  induction ys with
  | nil => exact fun f => by simp
  | cons y ys ih =>
      intro f
      rw [List.foldl_cons, ih, get_update]
      by_cases hy : x = y <;> by_cases hys : x ∈ ys <;> simp [hy, hys]

theorem nacOn_inRange (xs : List Var) : (nacOn xs).InRange := by
  intro x
  rw [get_nacOn]
  split <;> trivial

/-- To be below such a fact is to bind none but its variables. -/
theorem le_nacOn_iff {f : Fact} {xs : List Var} :
    f.get ≤ (nacOn xs).get ↔ ∀ x, f.get x ≠ .unset → x ∈ xs := by
  refine forall_congr' fun x => ?_
  rw [get_nacOn]
  split
  · rename_i hx
    exact ⟨fun _ _ => hx, fun _ => Value.le_nac _⟩
  · rename_i hx
    exact ⟨fun h hf => absurd (Value.eq_unset_of_le h) hf,
      fun h => (not_not.mp fun hf => hx (h hf) : f.get x = .unset).le⟩

theorem meetOf_le_iff {f : Fact} {xs : List Var} {v : Value} :
    f.meetOf xs ≤ v ↔ ∀ x ∈ xs, f.get x ≤ v := by
  unfold meetOf
  suffices h : ∀ u : Value, xs.foldl (fun v x => v.meet (f.get x)) u ≤ v ↔
      u ≤ v ∧ ∀ x ∈ xs, f.get x ≤ v by
    rw [h]
    exact and_iff_right (Value.unset_le v)
  induction xs with
  | nil => simp
  | cons x xs ih =>
      intro u
      rw [List.foldl_cons, ih, ← Value.sup_eq_meet, sup_le_iff, List.forall_mem_cons, and_assoc]

theorem meetOf_mono {f g : Fact} (h : f.get ≤ g.get) (xs : List Var) :
    f.meetOf xs ≤ g.meetOf xs :=
  meetOf_le_iff.mpr fun x hx => (h x).trans (meetOf_le_iff.mp le_rfl x hx)

theorem meetOf_inRange {f : Fact} (h : f.InRange) (xs : List Var) : (f.meetOf xs).InRange := by
  unfold meetOf
  suffices hs : ∀ v : Value, v.InRange → (xs.foldl (fun v x => v.meet (f.get x)) v).InRange from
    hs _ trivial
  induction xs with
  | nil => exact fun v hv => hv
  | cons x xs ih => exact fun v hv => ih _ (hv.sup (h x))

/-- Bindings made one after another, from two facts in order. -/
theorem foldl_bind_mono {f g : Fact} (h : f.get ≤ g.get) (bs : List (Var × Var)) :
    ∀ {a b : Fact}, a.get ≤ b.get →
      (bs.foldl (fun k b => k.update b.1 (f.get b.2)) a).get ≤
        (bs.foldl (fun k b => k.update b.1 (g.get b.2)) b).get := by
  induction bs with
  | nil => exact fun hab => hab
  | cons p bs ih => exact fun hab => ih (update_mono hab (h p.2) p.1)

theorem bind_mono {f g : Fact} (h : f.get ≤ g.get) (params args : List Var) :
    (bind params args f).get ≤ (bind params args g).get := foldl_bind_mono h _ le_rfl

theorem bind_inRange {f : Fact} (h : f.InRange) (params args : List Var) :
    (bind params args f).InRange := by
  unfold bind
  suffices hs : ∀ (bs : List (Var × Var)) (a : Fact), a.InRange →
      (bs.foldl (fun k b => k.update b.1 (f.get b.2)) a).InRange from hs _ _ inRange_empty
  intro bs
  induction bs with
  | nil => exact fun a ha => ha
  | cons p bs ih => exact fun a ha => ih _ (ha.update (h p.2) p.1)

/-- Only parameters are bound. -/
theorem mem_of_bind {f : Fact} {params args : List Var} {x : Var}
    (hx : (bind params args f).get x ≠ .unset) : x ∈ params := by
  by_contra hp
  apply hx
  have hn : x ∉ (params.zip args).map Prod.fst := by
    rw [List.mem_map]
    rintro ⟨⟨y, z⟩, hm, rfl⟩
    exact hp (List.of_mem_zip hm).1
  unfold bind
  generalize params.zip args = bs at hn
  have hkeep : ∀ a : Fact,
      (bs.foldl (fun k b => k.update b.1 (f.get b.2)) a).get x = a.get x := by
    induction bs with
    | nil => exact fun a => rfl
    | cons p bs ih =>
        simp only [List.map_cons, List.mem_cons, not_or] at hn
        intro a
        rw [List.foldl_cons, ih hn.2, get_update, if_neg hn.1]
  rw [hkeep, get_empty]

end Fact

/-! ## Edges -/

namespace Edge

section Kinds

variable (a b site : Node) (callee : Method) (f : Fact)

@[simp] theorem carry_normal : (Edge.mk a b .normal).carry (some f) = f := rfl

theorem carry_callToReturn :
    (Edge.mk a b .callToReturn).carry (some f) =
      match a.action.target? with
      | none => f
      | some x => f.remove x := rfl

theorem carry_call :
    (Edge.mk a b (.call callee)).carry (some f) =
      match a.action with
      | .call _ args _ => .bind callee.params args f
      | _ => .empty := rfl

theorem carry_ret :
    (Edge.mk a b (.ret site callee)).carry (some f) =
      match site.action.target? with
      | none => .empty
      | some x => Fact.empty.update x (f.meetOf callee.returnVars) := rfl

end Kinds

theorem carry_mono (e : Edge) {f g : Fact} (h : f.get ≤ g.get) :
    (e.carry (some f)).get ≤ (e.carry (some g)).get := by
  obtain ⟨a, b, kind⟩ := e
  cases kind with
  | normal => exact h
  | callToReturn =>
      rw [carry_callToReturn, carry_callToReturn]
      split
      · exact h
      · exact Fact.remove_mono h _
  | call callee =>
      rw [carry_call, carry_call]
      split
      · exact Fact.bind_mono h _ _
      · exact le_rfl
  | ret site callee =>
      rw [carry_ret, carry_ret]
      split
      · exact le_rfl
      · exact Fact.update_mono le_rfl (Fact.meetOf_mono h _) _

theorem carry_congr (e : Edge) {f g : Fact} (h : f.get = g.get) :
    (e.carry (some f)).get = (e.carry (some g)).get :=
  le_antisymm (e.carry_mono h.le) (e.carry_mono h.ge)

theorem carry_inRange (e : Edge) {f : Fact} (h : f.InRange) : (e.carry (some f)).InRange := by
  obtain ⟨a, b, kind⟩ := e
  cases kind with
  | normal => exact h
  | callToReturn =>
      rw [carry_callToReturn]
      split
      · exact h
      · exact h.remove _
  | call callee =>
      rw [carry_call]
      split
      · exact Fact.bind_inRange h _ _
      · exact Fact.inRange_empty
  | ret site callee =>
      rw [carry_ret]
      split
      · exact Fact.inRange_empty
      · exact Fact.inRange_empty.update (Fact.meetOf_inRange h _) _

/-- The variables that an edge may bind at its target, whatever fact it carries there. -/
def Introduces (e : Edge) (x : Var) : Prop :=
  (∃ callee, e.kind = .call callee ∧ x ∈ callee.params) ∨
    ∃ site callee, e.kind = .ret site callee ∧ site.action.target? = some x

/-- An edge that goes neither into a callee nor back from it. -/
def Inside (e : Edge) : Prop := e.kind = .normal ∨ e.kind = .callToReturn

theorem mem_of_carry {e : Edge} {f : Fact} {x : Var} (hx : (e.carry (some f)).get x ≠ .unset) :
    e.Inside ∧ f.get x ≠ .unset ∨ e.Introduces x := by
  obtain ⟨a, b, kind⟩ := e
  cases kind with
  | normal => exact Or.inl ⟨Or.inl rfl, hx⟩
  | callToReturn =>
      refine Or.inl ⟨Or.inr rfl, ?_⟩
      rw [carry_callToReturn] at hx
      split at hx
      · exact hx
      · rw [Fact.get_remove] at hx
        split at hx
        · exact absurd rfl hx
        · exact hx
  | call callee =>
      rw [carry_call] at hx
      split at hx
      · exact Or.inr (Or.inl ⟨callee, rfl, Fact.mem_of_bind hx⟩)
      · exact absurd rfl hx
  | ret site callee =>
      rw [carry_ret] at hx
      split at hx
      · exact absurd rfl hx
      · rename_i y hy
        rw [Fact.get_update] at hx
        split at hx
        · rename_i hxy
          exact Or.inr (Or.inr ⟨site, callee, rfl, hxy ▸ hy⟩)
        · exact absurd rfl hx

end Edge

end ConstFlow
