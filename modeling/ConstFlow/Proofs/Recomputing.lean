import ConstFlow.Proofs.FactJoin
import ConstFlow.Proofs.SolverRuns

/-!
# Recomputing facts

What statements and edges make of facts, as the solver has it done: a statement by `recompute`,
which copies its effect into the fact that was there, and an edge by `Edge.carry`.

Both are **monotone** (`transfers_monotone`). Neither is so for the plain reason that it copies
values about. A division takes two constants to `unset`, and binding a parameter a second time, to
an argument of which nothing is known, takes away what the first one had bound. Folding is monotone
because the order is flat, and binding because the same arguments come in the same order on both
sides.

A statement reports **change exactly** (`recompute_reports_change`). Its effect may well bind less
than the fact after it, which keeps what it had there: a fact after a statement whose target has
become `unset` still has the old value of the target. The flag speaks of the fact that results.
-/

namespace ConstFlow

/-! ## Edges -/

theorem Fact.bind_empty (params args : List Var) : bind params args empty = empty := by
  unfold bind
  induction params.zip args with
  | nil => rfl
  | cons b bs ih => exact ih

theorem Fact.meetOf_empty (xs : List Var) : empty.meetOf xs = .unset :=
  Value.eq_unset_of_le (meetOf_le_iff.mpr fun _ _ => le_rfl)

/-- A fact that is missing is carried like the empty one. -/
theorem Edge.carry_none (e : Edge) : e.carry none = e.carry (some .empty) := by
  obtain ⟨a, b, kind⟩ := e
  show Fact.empty = _
  cases kind with
  | normal => rfl
  | callToReturn =>
      rw [carry_callToReturn]
      split <;> rfl
  | call callee =>
      rw [carry_call]
      split
      · exact (Fact.bind_empty _ _).symm
      · rfl
  | ret site callee =>
      rw [carry_ret]
      split
      · rfl
      · rw [Fact.meetOf_empty]
        rfl

theorem Edge.carry_getD (e : Edge) (out : Option Fact) :
    e.carry out = e.carry (some (out.getD .empty)) := by
  cases out with
  | none => exact e.carry_none
  | some f => rfl

/-- Every statement is monotone on facts of 32-bit constants: recomputed from a higher fact, with
nothing there before, the fact after it is higher. So is every edge on all facts, and a missing fact
is no different from an empty one. -/
theorem transfers_monotone :
    (∀ (n : Node) (a b : Fact), a.InRange → b.InRange → a.leq b = true →
      ∃ a' b' changed changed', recompute n a (some .empty) = .ok (some a', changed) ∧
        recompute n b (some .empty) = .ok (some b', changed') ∧ a'.leq b' = true) ∧
    ∀ (e : Edge) (a b : Option Fact),
      e.carry a = e.carry (some (a.getD .empty)) ∧
      ((a.getD .empty).leq (b.getD .empty) = true → (e.carry a).leq (e.carry b) = true) := by
  refine ⟨fun n a b ha hb h => ?_, fun e a b => ⟨e.carry_getD a, fun h => ?_⟩⟩
  · obtain ⟨ea, hea, -⟩ := n.action.exists_localEffect ha
    obtain ⟨eb, heb, -⟩ := n.action.exists_localEffect hb
    refine ⟨_, _, _, _, recompute_of_localEffect hea .empty, recompute_of_localEffect heb .empty,
      ?_⟩
    rw [Fact.leq_iff, Fact.get_copyFrom_of_le (Fact.empty_le _),
      Fact.get_copyFrom_of_le (Fact.empty_le _)]
    exact Action.localEffect_mono (Fact.leq_iff.mp h) hea heb
  · rw [e.carry_getD a, e.carry_getD b]
    exact Fact.leq_iff.mpr (e.carry_mono (Fact.leq_iff.mp h))

namespace Sample

def quotient : Node := ⟨"m", 1, 1, .binary ⟨"m", "x"⟩ .div ⟨"m", "y"⟩ ⟨"m", "z"⟩⟩

def dividend : Fact := .ofList [(⟨"m", "y"⟩, .const 6)]

def zeroDivisor : Fact := .ofList [(⟨"m", "y"⟩, .const 6), (⟨"m", "z"⟩, .const 0)]

theorem dividend_inRange : dividend.InRange :=
  Fact.inRange_empty.update (v := .const 6) (show Int32.InRange 6 by decide) _

theorem zeroDivisor_inRange : zeroDivisor.InRange :=
  dividend_inRange.update (v := .const 0) (show Int32.InRange 0 by decide) _

/-- An edge into a method that has the same parameter twice. -/
def twofold : Edge :=
  let callee := Method.of "twice" [⟨"twice", "p"⟩, ⟨"twice", "p"⟩] [] .empty
  ⟨⟨"m", 2, 2, .call "twice" [⟨"m", "y"⟩, ⟨"m", "z"⟩] none⟩, callee.entry, .call callee⟩

end Sample

/-- The quotient is undefined with no divisor as with the divisor zero. The parameter is bound to
the second argument, and with no second argument it is not bound at all. -/
theorem transfers_monotone_sample :
    Sample.dividend.InRange ∧ Sample.zeroDivisor.InRange ∧
      Sample.dividend.leq Sample.zeroDivisor = true ∧
      (∃ a' b' changed changed',
        recompute Sample.quotient Sample.dividend (some .empty) = .ok (some a', changed) ∧
        recompute Sample.quotient Sample.zeroDivisor (some .empty) = .ok (some b', changed') ∧
        a'.leq b' = true) ∧
      Sample.twofold.carry (some Sample.dividend) = .empty ∧
      (Sample.twofold.carry (some Sample.zeroDivisor)).get ⟨"twice", "p"⟩ = .const 0 ∧
      (Sample.twofold.carry (some Sample.dividend)).leq
        (Sample.twofold.carry (some Sample.zeroDivisor)) = true := by
  obtain ⟨hstatement, hedge⟩ := transfers_monotone
  have hle : Sample.dividend.leq Sample.zeroDivisor = true := by decide
  refine ⟨Sample.dividend_inRange, Sample.zeroDivisor_inRange, hle,
    hstatement _ _ _ Sample.dividend_inRange Sample.zeroDivisor_inRange hle, by decide, by decide,
    ?_⟩
  exact (hedge Sample.twofold (some Sample.dividend) (some Sample.zeroDivisor)).2 hle

/-! ## Statements -/

namespace Action

/-- What is known after a statement that assigns `v`, from the fact before it. The receiver of a
call is left to the edges. -/
def outcome (a : Action) (f : Fact) (v : Value) (x : Var) : Value :=
  if a.isCall = false ∧ a.target? = some x then v else f.get x

theorem get_localEffect {a : Action} {f effect : Fact} {v : Value}
    (he : a.localEffect f = some effect) (hv : a.evaluate f = some v) :
    effect.get = a.outcome f v := by
  funext x
  unfold localEffect Action.effect at he
  unfold outcome
  cases hc : a.isCall with
  | true =>
      rw [hc, if_pos rfl] at he
      obtain rfl := Option.some.inj he
      exact (if_neg (by simp)).symm
  | false =>
      rw [hc, if_neg Bool.false_ne_true] at he
      cases ht : a.target? with
      | none =>
          rw [ht] at he
          obtain rfl := Option.some.inj he
          exact (if_neg (by simp)).symm
      | some y =>
          rw [ht, hv] at he
          obtain rfl := Option.some.inj he
          rw [Fact.get_update]
          simp [eq_comm]

end Action

/-- Recomputing the fact after a node succeeds on 32-bit constants. The new fact says what is known
after the statement, and keeps the old fact where nothing is known. The change that is reported is
whether the new fact differs from the old one, and a second time nothing changes at all. A visit
that gathers `f` leaves `f` before the node. -/
theorem recompute_reports_change (n : Node) {f : Fact} (hf : f.InRange) (out : Fact) :
    ∃ v out' changed,
      n.action.evaluate f = some v ∧
      recompute n f (some out) = .ok (some out', changed) ∧
      (∀ x, out'.get x =
        if n.action.outcome f v x = .unset then out.get x else n.action.outcome f v x) ∧
      (changed = true ↔ out'.agrees out = false) ∧
      recompute n f (some out') = .ok (some out', false) ∧
      ∀ (g : Supergraph) (t : Table) (old : Fact), t.inFact? n = some old →
        gather g t n old = f → t.outFact? n = some out →
        (t.visit g n).visit = .ok ⟨n, changed, f, some out'⟩ ∧
          (t.visit g n).table.inFact? n = some f ∧
          (t.visit g n).table.outFact? n = some out' := by
  obtain ⟨v, hv, -⟩ := n.action.exists_evaluate hf
  obtain ⟨effect, he, -⟩ := n.action.exists_localEffect hf
  have hrec := recompute_of_localEffect he
  refine ⟨v, out.copyFrom effect, out.copyChanges effect, hv, hrec out, fun x => ?_,
    Fact.copyChanges_iff_differs, ?_, fun g t old hin hgather hout => ?_⟩
  · rw [Fact.get_copyFrom, Action.get_localEffect he hv]
  · have hstable := Fact.copyChanges_copyFrom out effect
    rw [hrec, hstable, Fact.copyFrom_of_unchanged hstable]
  · subst hgather
    rw [Table.visit_of_recompute hin (hout ▸ hrec out)]
    refine ⟨rfl, ?_, ?_⟩
    · rw [Table.inFact?_write, if_pos rfl]
    · rw [Table.outFact?_write, if_pos rfl]

/-- The quotient is undefined, and the fact after the division keeps the one from before. -/
theorem recompute_reports_change_sample :
    let out := Fact.ofList [(⟨"m", "x"⟩, .const 7)]
    Sample.zeroDivisor.InRange ∧
      ∃ out', recompute Sample.quotient Sample.zeroDivisor (some out) = .ok (some out', true) ∧
        out'.get ⟨"m", "x"⟩ = .const 7 ∧ out'.get ⟨"m", "z"⟩ = .const 0 ∧
        recompute Sample.quotient Sample.zeroDivisor (some out') = .ok (some out', false) := by
  intro out
  obtain ⟨v, out', changed, hv, hrec, hget, hchanged, hstable, -⟩ :=
    recompute_reports_change Sample.quotient Sample.zeroDivisor_inRange out
  obtain rfl : Value.unset = v := Option.some.inj hv
  have hz : out'.get ⟨"m", "z"⟩ = .const 0 := (hget _).trans (by decide)
  have hdiffers : out'.agrees out = false := by
    rw [← Bool.not_eq_true, Fact.agrees_iff]
    intro heq
    rw [heq] at hz
    exact absurd hz (by decide)
  rw [hchanged.mpr hdiffers] at hrec
  exact ⟨Sample.zeroDivisor_inRange, out', hrec, (hget _).trans (by decide), hz, hstable⟩

end ConstFlow
