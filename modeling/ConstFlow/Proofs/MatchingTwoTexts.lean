import ConstFlow.Proofs.Uncommented

/-!
# Matching with and without comments

A text is matched a second time without its comments, and the two runs are compared. They stay at
places that correspond: outside comments, and with the same text to come, comments apart
(`Corresponds`). A matcher agrees with another if from such places both fail, or both find values
that are related and end at such places again (`Agree`). This goes through all the combinators.

That both move or both stay is part of the judgement, since a repetition stops when nothing was
taken. It is also bounded by what is left of the text, which is not the same for the two; either
bound is large enough (`agreeAt_manyUpTo`).

A slash is the one token that could be the beginning of a comment. It agrees where the text is solid
(`agreeAt_slash`), and the grammar looks for it only behind blanks.
-/

namespace ConstFlow.Source

/-! ## Places that correspond -/

/-- Two places outside comments, one in a text and one in the text without comments. At the end of
the text the columns may differ, if it ends with a comment. -/
structure Corresponds (t : Text) (c d : Cursor) : Prop where
  left : c.rest = t.drop c.offset
  right : d.rest = (uncomment false t).drop d.offset
  rest : d.rest = uncomment false c.rest
  column : c.rest ≠ [] →
    Text.columnAt t c.offset = Text.columnAt (uncomment false t) d.offset

namespace Corresponds

variable {t : Text} {c d : Cursor}

theorem start (t : Text) : Corresponds t (.start t) (.start (uncomment false t)) where
  left := rfl
  right := rfl
  rest := rfl
  column := fun _ => by rw [columnAt_eq, columnAt_eq]; rfl

theorem skip (h : Corresponds t c d) {n m : Nat}
    (hrest : (uncomment false c.rest).drop m = uncomment false (c.rest.drop n))
    (hcolumn : c.rest.drop n ≠ [] → ∀ k,
      advance k (c.rest.take n) = advance k ((uncomment false c.rest).take m)) :
    Corresponds t (c.skip n) (d.skip m) where
  left := by simp [Cursor.skip, h.left]
  right := by simp [Cursor.skip, h.right]
  rest := by simp [Cursor.skip, h.rest, hrest]
  column := by
    intro hne
    have hcd := h.column fun hnil => hne (by simp [Cursor.skip, hnil])
    rw [columnAt_eq, columnAt_eq] at hcd ⊢
    simp only [Cursor.skip]
    rw [List.take_add, List.take_add, advance_append, advance_append, ← h.left, ← h.right, hcd,
      h.rest, hcolumn hne]

theorem isEmpty_iff (h : Corresponds t c d) : c.rest = [] ↔ d.rest = [] := by
  rw [h.rest, uncomment_eq_nil_iff]

/-- They are on the same line: as many line feeds come after one as after the other. -/
theorem lineAt (h : Corresponds t c d) :
    Text.lineAt t c.offset = Text.lineAt (uncomment false t) d.offset := by
  have hc : (t.take c.offset ++ c.rest).count (.scalar '\n') = _ := List.count_append
  have hd : ((uncomment false t).take d.offset ++ d.rest).count (.scalar '\n') = _ :=
    List.count_append
  rw [h.left, List.take_append_drop, ← h.left] at hc
  rw [h.right, List.take_append_drop, ← h.right, h.rest, count_uncomment, count_uncomment] at hd
  unfold Text.lineAt
  omega

end Corresponds

/-! ## Agreement -/

namespace Matcher

variable {α β γ δ : Type}

/-- What two matchers find from corresponding places if they agree. -/
inductive Matched (t : Text) (V : α → β → Prop) (c d : Cursor) :
    Option (α × Cursor) → Option (β × Cursor) → Prop where
  | neither : Matched t V c d none none
  | both {a : α} {b : β} {c' d' : Cursor} (value : V a b) (ends : Corresponds t c' d')
      (moved : c' = c ∧ d' = d ∨ c.offset < c'.offset ∧ d.offset < d'.offset) :
      Matched t V c d (some (a, c')) (some (b, d'))

def AgreeAt (t : Text) (V : α → β → Prop) (p : Matcher α) (q : Matcher β) (c d : Cursor) : Prop :=
  Matched t V c d (p c).found? (q d).found?

/-- Two matchers agree from all places that correspond. -/
def Agree (t : Text) (V : α → β → Prop) (p : Matcher α) (q : Matcher β) : Prop :=
  ∀ ⦃c d⦄, Corresponds t c d → AgreeAt t V p q c d

section

variable {t : Text} {V : α → β → Prop} {W : γ → δ → Prop} {c d : Cursor}
  {x x' : Option (α × Cursor)} {y y' : Option (β × Cursor)}

theorem Matched.skip {n m : Nat} {a : α} {b : β} (value : V a b)
    (ends : Corresponds t (c.skip n) (d.skip m)) (hzero : n = 0 ↔ m = 0) :
    Matched t V c d (some (a, c.skip n)) (some (b, d.skip m)) := by
  refine .both value ends ?_
  by_cases hn : n = 0
  · obtain rfl := hzero.mp hn
    subst hn
    exact Or.inl ⟨rfl, rfl⟩
  · exact Or.inr ⟨Nat.lt_add_of_pos_right (by omega), Nat.lt_add_of_pos_right (by omega)⟩

/-- The same text is taken in both. -/
theorem Matched.take (h : Corresponds t c d) (u : Text) {w : Text} {a : α} {b : β} (value : V a b)
    (hc : c.rest = u ++ w) (hd : uncomment false c.rest = u ++ uncomment false w) :
    Matched t V c d (some (a, c.skip u.length)) (some (b, d.skip u.length)) := by
  refine .skip value (h.skip ?_ fun _ k => ?_) Iff.rfl
  · rw [hd, hc, List.drop_left, List.drop_left]
  · rw [hd, hc, List.take_left, List.take_left]

theorem Matched.stay (h : Corresponds t c d) {a : α} {b : β} (value : V a b) :
    Matched t V c d (some (a, c)) (some (b, d)) := .both value h (Or.inl ⟨rfl, rfl⟩)

theorem Matched.after {c' d' : Cursor}
    (moved : c' = c ∧ d' = d ∨ c.offset < c'.offset ∧ d.offset < d'.offset)
    (h : Matched t V c' d' x y) : Matched t V c d x y := by
  cases h with
  | neither => exact .neither
  | both value ends moved' =>
      refine .both value ends ?_
      rcases moved with ⟨rfl, rfl⟩ | moved
      · exact moved'
      · rcases moved' with ⟨rfl, rfl⟩ | moved'
        · exact Or.inr moved
        · exact Or.inr ⟨Nat.lt_trans moved.1 moved'.1, Nat.lt_trans moved.2 moved'.2⟩

theorem Matched.bind {f : α × Cursor → Option (γ × Cursor)} {g : β × Cursor → Option (δ × Cursor)}
    (h : Matched t V c d x y)
    (hf : ∀ {a b c' d'}, V a b → Corresponds t c' d' → Matched t W c' d' (f (a, c')) (g (b, d'))) :
    Matched t W c d (x.bind f) (y.bind g) := by
  cases h with
  | neither => exact .neither
  | both value ends moved => exact (hf value ends).after moved

theorem Matched.map {f : α → γ} {g : β → δ} (h : Matched t V c d x y)
    (hf : ∀ {a b}, V a b → W (f a) (g b)) :
    Matched t W c d (x.map fun m => (f m.1, m.2)) (y.map fun m => (g m.1, m.2)) := by
  cases h with
  | neither => exact .neither
  | both value ends moved => exact .both (hf value) ends moved

theorem Matched.or (h : Matched t V c d x y) (h' : Matched t V c d x' y') :
    Matched t V c d (x.or x') (y.or y') := by
  cases h with
  | neither => exact h'
  | both value ends moved => exact .both value ends moved

theorem Matched.optional (h : Matched t V c d x y) (hcd : Corresponds t c d) :
    Matched t (Option.Rel V) c d
      (some (x.elim (none, c) fun m => (some m.1, m.2)))
      (some (y.elim (none, d) fun m => (some m.1, m.2))) := by
  cases h with
  | neither => exact .stay hcd .none
  | both value ends moved => exact .both (.some value) ends moved

end

/-! ### Combinators -/

section

variable {t : Text} {V : α → β → Prop} {W : γ → δ → Prop} {p p' : Matcher α} {q q' : Matcher β}
  {f : α → Matcher γ} {g : β → Matcher δ} {c d : Cursor}

theorem agree_pure {a : α} {b : β} (value : V a b) : Agree t V (pure a) (pure b) :=
  fun _ _ h => .stay h value

theorem AgreeAt.bind (hp : AgreeAt t V p q c d)
    (hf : ∀ {a b}, V a b → Agree t W (f a) (g b)) : AgreeAt t W (p >>= f) (q >>= g) c d := by
  unfold AgreeAt
  rw [found?_bind, found?_bind]
  exact Matched.bind hp fun value ends => hf value ends

theorem Agree.bind (hp : Agree t V p q) (hf : ∀ {a b}, V a b → Agree t W (f a) (g b)) :
    Agree t W (p >>= f) (q >>= g) := fun _ _ h => (hp h).bind hf

theorem Agree.map (hp : Agree t V p q) {f : α → γ} {g : β → δ}
    (hf : ∀ {a b}, V a b → W (f a) (g b)) :
    Agree t W (p >>= fun a => pure (f a)) (q >>= fun b => pure (g b)) :=
  hp.bind fun value => agree_pure (hf value)

theorem AgreeAt.rule (h : AgreeAt t V p q c d) : AgreeAt t V (rule p) (rule q) c d := by
  unfold AgreeAt
  rwa [found?_rule, found?_rule]

theorem Agree.rule (h : Agree t V p q) : Agree t V (rule p) (rule q) := fun _ _ hcd => (h hcd).rule

theorem Agree.step (h : Agree t V p q) : Agree t V (step p) (step q) := by
  intro c d hcd
  unfold AgreeAt
  rw [found?_step, found?_step]
  exact h hcd

theorem AgreeAt.orElse (h : AgreeAt t V p q c d) (h' : AgreeAt t V p' q' c d) :
    AgreeAt t V (orElse p p') (orElse q q') c d := by
  unfold AgreeAt
  rw [found?_orElse, found?_orElse]
  exact Matched.or h h'

theorem Agree.orElse (h : Agree t V p q) (h' : Agree t V p' q') :
    Agree t V (orElse p p') (orElse q q') := fun _ _ hcd => (h hcd).orElse (h' hcd)

theorem agreeAt_oneOf {V : α → α → Prop} {ps : List (Matcher α)}
    (h : ∀ p ∈ ps, AgreeAt t V p p c d) : AgreeAt t V (oneOf ps) (oneOf ps) c d := by
  induction ps with
  | nil => exact .neither
  | cons p ps ih =>
      rw [List.forall_mem_cons] at h
      exact h.1.orElse (ih h.2)

theorem agree_oneOf {V : α → α → Prop} {ps : List (Matcher α)} (h : ∀ p ∈ ps, Agree t V p p) :
    Agree t V (oneOf ps) (oneOf ps) := fun _ _ hcd => agreeAt_oneOf fun p hp => h p hp hcd

theorem Agree.optional (h : Agree t V p q) :
    Agree t (Option.Rel V) (optional p) (optional q) := by
  intro c d hcd
  unfold AgreeAt
  rw [found?_optional, found?_optional]
  by_cases hc : c.rest = []
  · rw [if_pos hc, if_pos (hcd.isEmpty_iff.mp hc)]
    exact .stay hcd .none
  · rw [if_neg hc, if_neg (hcd.isEmpty_iff.not.mp hc)]
    exact Matched.optional (h hcd) hcd

/-- The bounds need not be the same, as long as they are large enough. -/
theorem agreeAt_manyUpTo (h : Agree t V p q) (n : Nat) : ∀ {m : Nat} {c d : Cursor},
    Corresponds t c d → c.rest.length ≤ n → d.rest.length ≤ m →
      AgreeAt t (List.Forall₂ V) (manyUpTo p n) (manyUpTo q m) c d := by
  induction n with
  | zero =>
      intro m c d hcd hn _
      have hc : c.rest = [] := List.eq_nil_of_length_eq_zero (Nat.le_zero.mp hn)
      unfold AgreeAt
      rw [found?_manyUpTo_nil p _ hc, found?_manyUpTo_nil q _ (hcd.isEmpty_iff.mp hc)]
      exact .stay hcd .nil
  | succ n ih =>
      intro m c d hcd hn hm
      unfold AgreeAt
      by_cases hc : c.rest = []
      · rw [found?_manyUpTo_nil p _ hc, found?_manyUpTo_nil q _ (hcd.isEmpty_iff.mp hc)]
        exact .stay hcd .nil
      have hd : d.rest ≠ [] := hcd.isEmpty_iff.not.mp hc
      have hcpos := List.length_pos_iff.mpr hc
      have hdpos := List.length_pos_iff.mpr hd
      obtain ⟨m, rfl⟩ : ∃ k, m = k + 1 := ⟨m - 1, by omega⟩
      rw [found?_manyUpTo, found?_manyUpTo, if_neg hc, if_neg hd]
      have hpq := h hcd
      unfold AgreeAt at hpq
      generalize (p c).found? = x at hpq ⊢
      generalize (q d).found? = y at hpq ⊢
      cases hpq with
      | neither => exact .stay hcd .nil
      | both value ends moved =>
          refine Matched.after moved ?_
          simp only [Option.elim]
          -- Either both have taken nothing and stop, or both go on with less text than before.
          rcases moved with ⟨rfl, rfl⟩ | moved
          · simp only [Nat.lt_irrefl, if_false]
            exact .stay ends (.cons value .nil)
          · rw [if_pos moved.1, if_pos moved.2]
            refine Matched.map (ih ends ?_ ?_) (.cons value)
            · rw [hcd.left, List.length_drop] at hn hcpos
              rw [ends.left, List.length_drop]
              omega
            · rw [hcd.right, List.length_drop] at hm hdpos
              rw [ends.right, List.length_drop]
              omega

theorem Agree.many (h : Agree t V p q) : Agree t (List.Forall₂ V) (many p) (many q) :=
  fun _ _ hcd => agreeAt_manyUpTo h _ hcd (Nat.le_refl _) (Nat.le_refl _)

theorem Agree.notAhead (h : Agree t V p q) : Agree t Eq (notAhead p) (notAhead q) := by
  intro c d hcd
  have hpq := h hcd
  unfold AgreeAt at hpq ⊢
  rw [found?_notAhead, found?_notAhead]
  generalize (p c).found? = x at hpq ⊢
  generalize (q d).found? = y at hpq ⊢
  cases hpq with
  | neither => exact .stay hcd rfl
  | both => exact .neither

/-- What is done with a place has to agree only if the places are the same, as they are wherever
more text comes. -/
theorem agree_here_bind {f : Nat → Matcher γ} {g : Nat → Matcher δ}
    (hf : ∀ o, Fails (f o) []) (hg : ∀ o, Fails (g o) [])
    (h : ∀ o o', Text.lineAt t o = Text.lineAt (uncomment false t) o' →
      Text.columnAt t o = Text.columnAt (uncomment false t) o' → Agree t W (f o) (g o')) :
    Agree t W (here >>= f) (here >>= g) := by
  intro c d hcd
  unfold AgreeAt
  rw [found?_bind, found?_bind]
  show Matched t W c d (f c.offset c).found? (g d.offset d).found?
  by_cases hc : c.rest = []
  · have hfc := hf c.offset c.offset
    have hgd := hg d.offset d.offset
    rw [← hc] at hfc
    rw [← hcd.isEmpty_iff.mp hc] at hgd
    rw [hfc, hgd]
    exact .neither
  · exact h _ _ hcd.lineAt (hcd.column hc) hcd

/-! ### Tokens and characters -/

theorem agreeAt_token {u : Text} (h : Corresponds t c d)
    (hkept : ∀ w, c.rest = u ++ w → uncomment false c.rest = u ++ uncomment false w)
    (hback : u <+: uncomment false c.rest → u <+: c.rest) :
    AgreeAt t Eq (token u) (token u) c d := by
  have hiff : u <+: uncomment false c.rest ↔ u <+: c.rest := by
    refine ⟨hback, ?_⟩
    rintro ⟨w, hw⟩
    exact ⟨uncomment false w, (hkept w hw.symm).symm⟩
  unfold AgreeAt token
  simp only [List.isPrefixOf_iff_prefix, h.rest, hiff]
  split
  · rename_i hprefix
    obtain ⟨w, hw⟩ := hprefix
    exact .take h u rfl hw.symm (hkept w hw.symm)
  · exact .neither

theorem agree_token {u : Text} (hu : Plain u) : Agree t Eq (token u) (token u) :=
  fun _ _ h => agreeAt_token h (fun w hw => hw ▸ uncomment_append hu w)
    (prefix_of_prefix_uncomment hu)

theorem agreeAt_slash (h : Corresponds t c d) (hsolid : Solid c.rest) :
    AgreeAt t Eq (token "/") (token "/") c d := by
  cases hr : c.rest with
  | nil => exact agreeAt_token h (by rw [hr]; rintro w ⟨⟩) (by rw [hr]; exact id)
  | cons x r =>
      have hkept : uncomment false c.rest = x :: uncomment false r := by
        rw [hr] at hsolid ⊢
        rcases gap_cases x r with ⟨-, hx⟩ | ⟨hgap, -⟩ | ⟨-, hx, -⟩
        · exact hx
        · rw [Solid, hgap] at hsolid
          cases hsolid
        · exact hx
      refine agreeAt_token h ?_ ?_
      · rw [hkept, hr]
        intro w hw
        obtain ⟨rfl, rfl⟩ := List.cons.inj hw
        rfl
      · rw [hkept, hr]
        intro hprefix
        exact List.cons_prefix_cons.mpr ⟨(List.cons_prefix_cons.mp hprefix).1, List.nil_prefix⟩

theorem agree_charOf {class? : Char → Bool} (hclass : PlainClass class?) :
    Agree t Eq (charOf class?) (charOf class?) := by
  intro c d h
  have hd := h.rest
  unfold AgreeAt charOf
  cases hr : c.rest with
  | nil =>
      rw [h.isEmpty_iff.mp hr]
      exact .neither
  | cons x r =>
      rw [hr] at hd
      rcases uncomment_cases x r with hx | ⟨hstart, hx⟩
      · rw [hd, hx]
        cases x with
        | scalar x =>
            simp only
            split
            · exact .take h [.scalar x] rfl hr (by rw [hr, hx]; rfl)
            · exact .neither
        | surrogate => exact .neither
      · rw [hd, hx]
        rcases hstart with rfl | rfl <;> simp only [hclass.1, hclass.2.1, hclass.2.2] <;>
          exact .neither

theorem agree_runOf {class? : Char → Bool} (hclass : PlainClass class?) :
    Agree t Eq (runOf class?) (runOf class?) := by
  intro c d h
  obtain ⟨w, hw, hplain⟩ := exists_leading hclass c.rest
  have hkept := (congrArg (uncomment false) hw).trans (uncomment_append hplain w)
  have hlength : (Text.ofChars (Text.leading class? c.rest)).length =
      (Text.leading class? c.rest).length := List.length_map _
  unfold AgreeAt runOf
  simp only [h.rest, leading_uncomment hclass]
  rw [← hlength]
  exact .take h _ rfl hw hkept

end

end Matcher

open Matcher

/-! ### Blanks -/

section

variable {t : Text} {γ δ : Type} {W : γ → δ → Prop} {f : Unit → Matcher γ} {g : Unit → Matcher δ}

theorem Corresponds.skip_gap {c d : Cursor} (h : Corresponds t c d) :
    Corresponds t (c.skip (gapLength false c.rest))
      (d.skip (gapLength false (uncomment false c.rest))) :=
  h.skip (drop_gapLength false c.rest) fun hne _ => advance_gap false c.rest (fun _ => rfl) hne

theorem agree_blanks : Agree t Eq blanks blanks := by
  refine Agree.rule fun c d h => ?_
  unfold AgreeAt
  simp only [h.rest]
  exact .skip rfl h.skip_gap gapLength_eq_zero_iff

/-- What comes after blanks has to agree only where the text is solid. -/
theorem agree_blanks_bind
    (h : ∀ ⦃c d⦄, Corresponds t c d → Solid c.rest → AgreeAt t W (f ()) (g ()) c d) :
    Agree t W (blanks >>= f) (blanks >>= g) := by
  intro c d hcd
  have hfound : ∀ c, (blanks c).found? = some ((), c.skip (gapLength false c.rest)) :=
    fun c => found?_rule c
  have hblanks := agree_blanks hcd
  unfold AgreeAt at hblanks ⊢
  rw [hfound, hfound] at hblanks
  rw [found?_bind, found?_bind, hfound, hfound]
  cases hblanks with
  | both _ ends moved => exact (h ends (solid_drop_gapLength false _)).after moved

theorem agree_gap : Agree t Eq gap gap := by
  refine Agree.rule fun c d h => ?_
  unfold AgreeAt
  simp only [h.rest, ← gapLength_eq_zero_iff]
  split
  · exact .neither
  · exact .skip rfl h.skip_gap gapLength_eq_zero_iff

end

end ConstFlow.Source
