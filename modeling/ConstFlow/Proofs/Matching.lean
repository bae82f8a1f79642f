import Mathlib.Data.List.Forall2
import ConstFlow.Source.Matcher

/-!
# What matchers take

Two judgements about a matcher, and how they go through the combinators. `Takes p t rest P`: where
the text goes on with `t` and then `rest`, the matcher takes just `t`, and its value satisfies `P`.
`Fails p t`: where the text goes on with `t`, it does not match.

Both say nothing of offsets and failures. Values may hold the offset at which they were found, so
they are described by a predicate and not given. What comes after the match is part of the
judgement, since a choice is made for good: that an earlier alternative fails, or that a repetition
stops, depends on what follows.
-/

namespace ConstFlow.Source.Matcher

variable {α β : Type}

/-- A matcher takes one text in front of another, and gives a value of some kind. -/
def Takes (p : Matcher α) (t rest : Text) (P : α → Prop) : Prop :=
  ∀ off, ∃ a, (p ⟨off, t ++ rest⟩).found? = some (a, ⟨off + t.length, rest⟩) ∧ P a

/-- A matcher does not match. -/
def Fails (p : Matcher α) (t : Text) : Prop := ∀ off, (p ⟨off, t⟩).found? = none

section

variable {p q : Matcher α} {f : α → Matcher β} {t u rest : Text} {P P' : α → Prop} {Q : β → Prop}

theorem Takes.imp (h : Takes p t rest P) (hP : ∀ a, P a → P' a) : Takes p t rest P' := by
  intro off
  obtain ⟨a, ha, hPa⟩ := h off
  exact ⟨a, ha, hP a hPa⟩

/-! ## Sequences -/

theorem takes_pure {a : α} (h : P a) : Takes (pure a) [] rest P := fun _ => ⟨a, rfl, h⟩

theorem found?_bind (c : Cursor) :
    ((p >>= f) c).found? = (p c).found?.bind fun a => (f a.1 a.2).found? := by
  show (andThen p f c).found? = _
  rcases h : p c with ⟨_ | ⟨a, c'⟩, fs⟩ <;> simp [andThen, h]

theorem Takes.bind (hp : Takes p t (u ++ rest) P) (hf : ∀ a, P a → Takes (f a) u rest Q) :
    Takes (p >>= f) (t ++ u) rest Q := by
  intro off
  obtain ⟨a, ha, hPa⟩ := hp off
  obtain ⟨b, hb, hQb⟩ := hf a hPa (off + t.length)
  refine ⟨b, ?_, hQb⟩
  rw [List.append_assoc, found?_bind, ha, List.length_append, ← Nat.add_assoc]
  exact hb

/-- A first step that takes nothing. -/
theorem Takes.bind_nil (hp : Takes p [] (u ++ rest) P) (hf : ∀ a, P a → Takes (f a) u rest Q) :
    Takes (p >>= f) u rest Q := hp.bind hf

/-- A last step that only makes a value. -/
theorem Takes.map {g : α → β} (hp : Takes p t rest P) (hg : ∀ a, P a → Q (g a)) :
    Takes (p >>= fun a => pure (g a)) t rest Q := by
  have h : Takes (p >>= fun a => pure (g a)) (t ++ []) rest Q :=
    Takes.bind hp fun a ha => takes_pure (hg a ha)
  rwa [List.append_nil] at h

theorem Fails.bind (hp : Fails p t) : Fails (p >>= f) t := by
  intro off
  rw [found?_bind, hp off]
  rfl

theorem Takes.bind_fails (hp : Takes p t rest P) (hf : ∀ a, P a → Fails (f a) rest) :
    Fails (p >>= f) (t ++ rest) := by
  intro off
  obtain ⟨a, ha, hPa⟩ := hp off
  rw [found?_bind, ha]
  exact hf a hPa _

/-! ## Rules and steps -/

theorem found?_rule (c : Cursor) : (rule p c).found? = (p c).found? := by
  rcases h : p c with ⟨_ | _, fs⟩ <;> simp [rule, h]

theorem found?_step (c : Cursor) : (step p c).found? = (p c).found? := by
  rcases h : p c with ⟨_ | _, fs⟩ <;> simp [step, h]

theorem Takes.rule (h : Takes p t rest P) : Takes (Matcher.rule p) t rest P := fun off => by
  rw [found?_rule]
  exact h off

theorem Fails.rule (h : Fails p t) : Fails (Matcher.rule p) t := fun off => by
  rw [found?_rule]
  exact h off

theorem Takes.step (h : Takes p t rest P) : Takes (Matcher.step p) t rest P := fun off => by
  rw [found?_step]
  exact h off

theorem Fails.step (h : Fails p t) : Fails (Matcher.step p) t := fun off => by
  rw [found?_step]
  exact h off

/-! ## Choices -/

theorem found?_orElse (c : Cursor) : (orElse p q c).found? = (p c).found?.or (q c).found? := by
  rcases h : p c with ⟨_ | _, fs⟩ <;> simp [orElse, h]

theorem Takes.orElse (h : Takes p t rest P) : Takes (Matcher.orElse p q) t rest P := by
  intro off
  obtain ⟨a, ha, hPa⟩ := h off
  exact ⟨a, by rw [found?_orElse, ha]; rfl, hPa⟩

theorem Fails.orElse_takes (hp : Fails p (t ++ rest)) (hq : Takes q t rest P) :
    Takes (Matcher.orElse p q) t rest P := by
  intro off
  rw [found?_orElse, hp off]
  exact hq off

/-- The first alternative that does not fail takes the text. -/
theorem takes_oneOf (ps : List (Matcher α)) {qs : List (Matcher α)}
    (hps : ∀ p ∈ ps, Fails p (t ++ rest)) (hq : Takes q t rest P) :
    Takes (oneOf (ps ++ q :: qs)) t rest P := by
  induction ps with
  | nil => exact hq.orElse
  | cons p ps ih =>
      rw [List.forall_mem_cons] at hps
      exact hps.1.orElse_takes (ih hps.2)

/-! ## Options -/

theorem found?_optional (c : Cursor) : (optional p c).found? =
    if c.rest = [] then some (none, c)
    else some ((p c).found?.elim (none, c) fun m => (some m.1, m.2)) := by
  unfold optional
  simp only [List.isEmpty_iff]
  split
  · rfl
  · rcases p c with ⟨_ | _, fs⟩ <;> rfl

theorem Takes.optional (h : Takes p t rest P) (hne : t ++ rest ≠ []) :
    Takes (Matcher.optional p) t rest fun o => ∃ a, o = some a ∧ P a := by
  intro off
  obtain ⟨a, ha, hPa⟩ := h off
  refine ⟨some a, ?_, a, rfl, hPa⟩
  rw [found?_optional, if_neg hne, ha]
  rfl

theorem Fails.optional (h : Fails p rest) : Takes (Matcher.optional p) [] rest (· = none) := by
  intro off
  refine ⟨none, ?_, rfl⟩
  rw [List.nil_append, found?_optional, h off]
  split <;> rfl

end

/-! ## Repetitions -/

theorem found?_manyUpTo (p : Matcher α) (n : Nat) (c : Cursor) : (manyUpTo p (n + 1) c).found? =
    if c.rest = [] then some ([], c)
    else (p c).found?.elim (some ([], c)) fun m =>
      if c.offset < m.2.offset then
        (manyUpTo p n m.2).found?.map fun more => (m.1 :: more.1, more.2)
      else some ([m.1], m.2) := by
  rw [manyUpTo]
  simp only [List.isEmpty_iff]
  split
  · rfl
  · rcases p c with ⟨_ | ⟨a, c'⟩, fs⟩
    · rfl
    · simp only [Option.elim]
      split <;> rfl

theorem found?_manyUpTo_nil (p : Matcher α) (n : Nat) {c : Cursor} (hc : c.rest = []) :
    (manyUpTo p n c).found? = some ([], c) := by
  cases n with
  | zero => rfl
  | succ n => rw [found?_manyUpTo, if_pos hc]

section

/-- A text that a repetition can take on its way: `Good` is what has to follow it, and what it has
itself for the one before it. -/
structure OneMore (Good : Text → Prop) (p : Matcher α) (R : β → α → Prop) (x : β) (t : Text) :
    Prop where
  ne_nil : t ≠ []
  good : ∀ more, Good (t ++ more)
  takes : ∀ more, Good more → Takes p t more (R x)

variable {Good : Text → Prop} {p : Matcher α} {R : β → α → Prop} {xs : List β} {ts : List Text}
  {rest : Text} (hxs : List.Forall₂ (OneMore Good p R) xs ts)
include hxs

theorem good_flatten (hrest : Good rest) : Good (ts.flatten ++ rest) := by
  cases hxs with
  | nil => exact hrest
  | cons hx _ =>
      rw [List.flatten_cons, List.append_assoc]
      exact hx.good _

theorem length_le_length_flatten : ts.length ≤ ts.flatten.length := by
  induction hxs with
  | nil => exact Nat.le_refl _
  | cons hx _ ih =>
      have := List.length_pos_of_ne_nil hx.ne_nil
      simp only [List.length_cons, List.flatten_cons, List.length_append]
      omega

variable (hrest : Good rest) (hend : rest = [] ∨ Fails p rest)
include hrest hend

theorem takes_manyUpTo {n : Nat} (hn : ts.length ≤ n) :
    Takes (manyUpTo p n) ts.flatten rest (List.Forall₂ R xs) := by
  induction hxs generalizing n with
  | nil =>
      refine fun off => ⟨[], ?_, .nil⟩
      rw [List.flatten_nil, List.nil_append]
      rcases hend with rfl | hfails
      · exact found?_manyUpTo_nil p n rfl
      · cases n with
        | zero => rfl
        | succ n =>
            rw [found?_manyUpTo, hfails off]
            split <;> rfl
  | @cons x t xs ts hx hxs ih =>
      cases n with
      | zero => simp at hn
      | succ n =>
          intro off
          obtain ⟨a, ha, hRa⟩ := hx.takes _ (good_flatten hxs hrest) off
          obtain ⟨as, has, hRas⟩ := ih (Nat.le_of_succ_le_succ hn) (off + t.length)
          have hlen : 0 < t.length := List.length_pos_of_ne_nil hx.ne_nil
          refine ⟨a :: as, ?_, .cons hRa hRas⟩
          rw [List.flatten_cons, List.append_assoc, found?_manyUpTo, if_neg (by simp [hx.ne_nil]),
            ha]
          simp [hlen, has, Nat.add_assoc]

/-- Texts one after another are taken one after another. -/
theorem takes_many : Takes (many p) ts.flatten rest (List.Forall₂ R xs) := by
  intro off
  refine takes_manyUpTo hxs hrest hend (n := (ts.flatten ++ rest).length) ?_ off
  have := length_le_length_flatten hxs
  rw [List.length_append]
  omega

end

/-! ## Looking ahead -/

section

variable {p : Matcher α} {t rest : Text} {P : α → Prop}

theorem found?_notAhead (p : Matcher α) (c : Cursor) :
    (notAhead p c).found? = (p c).found?.elim (some ((), c)) fun _ => none := by
  unfold notAhead
  rcases p c with ⟨_ | _, fs⟩ <;> rfl

theorem Fails.notAhead (h : Fails p rest) : Takes (Matcher.notAhead p) [] rest fun _ => True := by
  intro off
  refine ⟨(), ?_, trivial⟩
  rw [List.nil_append, found?_notAhead, h off]
  rfl

theorem Takes.notAhead (h : Takes p t rest P) : Fails (Matcher.notAhead p) (t ++ rest) := by
  intro off
  obtain ⟨a, ha, -⟩ := h off
  rw [found?_notAhead, ha]
  rfl

theorem takes_here : Takes here [] rest fun _ => True := fun off => ⟨off, rfl, trivial⟩

/-! ## Tokens and characters -/

theorem takes_token (t : Text) : Takes (token t) t rest fun _ => True := by
  intro off
  refine ⟨(), ?_, trivial⟩
  simp [token, Cursor.skip]

theorem fails_token {t u : Text} (h : ¬ t <+: u) : Fails (token t) u := by
  intro off
  simp [token, h]

theorem takes_charOf {class? : Char → Bool} {c : Char} (h : class? c = true) :
    Takes (charOf class?) [.scalar c] rest (· = c) := by
  refine fun off => ⟨c, ?_, rfl⟩
  simp [charOf, h, Cursor.skip]

theorem fails_charOf {class? : Char → Bool} {t : Text} (h : Text.leading class? t = []) :
    Fails (charOf class?) t := by
  intro off
  rcases t with _ | ⟨_ | _, t⟩
  · rfl
  · rename_i c
    cases hc : class? c <;> simp_all [charOf, Text.leading]
  · rfl

theorem leading_append {class? : Char → Bool} {cs : List Char} (h : ∀ c ∈ cs, class? c = true)
    (hrest : Text.leading class? rest = []) :
    Text.leading class? (Text.ofChars cs ++ rest) = cs := by
  induction cs with
  | nil => exact hrest
  | cons c cs ih =>
      rw [List.forall_mem_cons] at h
      show Text.leading class? (.scalar c :: (Text.ofChars cs ++ rest)) = _
      rw [Text.leading, if_pos h.1, ih h.2]

theorem takes_runOf {class? : Char → Bool} {cs : List Char} (h : ∀ c ∈ cs, class? c = true)
    (hrest : Text.leading class? rest = []) :
    Takes (runOf class?) (Text.ofChars cs) rest (· = cs) := by
  refine fun off => ⟨cs, ?_, rfl⟩
  have hlen : (Text.ofChars cs).length = cs.length := by simp [Text.ofChars]
  simp [runOf, leading_append h hrest, Cursor.skip, ← hlen]

end

end ConstFlow.Source.Matcher
