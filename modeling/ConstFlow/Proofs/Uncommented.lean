import Mathlib.Data.List.Induction
import ConstFlow.Proofs.Words
import ConstFlow.Text.Position

/-!
# Texts without comments

A text with every comment replaced by a space. What comes after a gap is the same with comments and
without them (`drop_gapLength`), a text that looks like no comment stays where it is
(`uncomment_append`), and lines stay lines (`count_uncomment`).

Columns stay columns too, except behind a last comment that no line feed ends (`advance_gap`).
-/

namespace ConstFlow.Source

/-- A text with each comment replaced by a space; `comment` says that a comment is under way. -/
def uncomment (comment : Bool) : Text → Text
  | [] => []
  | c :: rest =>
    if comment then
      if c = .scalar '\n' then c :: uncomment false rest else uncomment true rest
    else if c = .scalar '#' ∨ c = .scalar '/' ∧ rest.head? = some (.scalar '/') then
      .scalar ' ' :: uncomment true rest
    else c :: uncomment false rest

theorem uncomment_cases (c : CodePoint) (r : Text) :
    uncomment false (c :: r) = c :: uncomment false r ∨
      (c = .scalar '#' ∨ c = .scalar '/') ∧
        uncomment false (c :: r) = .scalar ' ' :: uncomment true r := by
  by_cases h : c = .scalar '#' ∨ c = .scalar '/' ∧ r.head? = some (.scalar '/')
  · exact Or.inr ⟨h.imp_right And.left, by simp [uncomment, h]⟩
  · exact Or.inl (by simp [uncomment, h])

theorem uncomment_eq_nil_iff {r : Text} : uncomment false r = [] ↔ r = [] := by
  cases r with
  | nil => simp [uncomment]
  | cons c r => rcases uncomment_cases c r with h | ⟨-, h⟩ <;> simp [h]

theorem count_uncomment (comment : Bool) (r : Text) :
    (uncomment comment r).count (.scalar '\n') = r.count (.scalar '\n') := by
  induction r generalizing comment with
  | nil => rfl
  | cons c r ih =>
      cases comment with
      | true => by_cases hc : c = .scalar '\n' <;> simp [uncomment, hc, ih]
      | false =>
          rcases uncomment_cases c r with h | ⟨hc, h⟩
          · rw [h, List.count_cons, List.count_cons, ih]
          · rw [h]
            rcases hc with rfl | rfl <;> simp [ih]

theorem head?_uncomment {r : Text} (h : (uncomment false r).head? = some (.scalar '/')) :
    r.head? = some (.scalar '/') := by
  cases r with
  | nil => cases h
  | cons c r =>
      rcases uncomment_cases c r with hc | ⟨-, hc⟩ <;> rw [hc] at h
      · exact h
      · cases h

/-! ## Gaps -/

theorem gapLength_cons_of_isBlank {c : CodePoint} (hc : c.isIn Text.isBlank = true) (r : Text) :
    gapLength false (c :: r) = gapLength false r + 1 := by
  simp [gapLength, hc]

/-- Outside a comment there is a blank, the beginning of a comment, or something solid, and the last
stays solid. -/
theorem gap_cases (c : CodePoint) (r : Text) :
    (c.isIn Text.isBlank = true ∧ uncomment false (c :: r) = c :: uncomment false r) ∨
    (gapLength false (c :: r) = gapLength true r + 1 ∧
      uncomment false (c :: r) = .scalar ' ' :: uncomment true r) ∨
    (Solid (c :: r) ∧ uncomment false (c :: r) = c :: uncomment false r ∧
      Solid (c :: uncomment false r)) := by
  by_cases hblank : c.isIn Text.isBlank = true
  · refine Or.inl ⟨hblank, ?_⟩
    rcases uncomment_cases c r with h | ⟨rfl | rfl, -⟩
    · exact h
    · cases hblank
    · cases hblank
  by_cases hstart : c = .scalar '#' ∨ c = .scalar '/' ∧ r.head? = some (.scalar '/')
  · refine Or.inr (Or.inl ⟨?_, by simp [uncomment, hstart]⟩)
    rcases hstart with rfl | ⟨rfl, hr⟩
    · simp [gapLength, hblank]
    · simp [gapLength, hblank, hr]
  · refine Or.inr (Or.inr ⟨?_, by simp [uncomment, hstart], ?_⟩)
    · rw [not_or] at hstart
      simp [Solid, gapLength, hblank, hstart]
    · rw [not_or] at hstart
      have hslash : ¬ (c = .scalar '/' ∧ (uncomment false r).head? = some (.scalar '/')) :=
        fun h => hstart.2 ⟨h.1, head?_uncomment h.2⟩
      simp [Solid, gapLength, hblank, hstart.1, hslash]

theorem drop_gapLength (comment : Bool) (r : Text) :
    (uncomment comment r).drop (gapLength false (uncomment comment r)) =
      uncomment false (r.drop (gapLength comment r)) := by
  induction r generalizing comment with
  | nil => rfl
  | cons c r ih =>
      cases comment with
      | true =>
          by_cases hc : c = .scalar '\n'
          · subst hc
            have hblank := gapLength_cons_of_isBlank (c := .scalar '\n') rfl (uncomment false r)
            simpa [uncomment, gapLength, hblank] using ih false
          · simpa [uncomment, gapLength, hc] using ih true
      | false =>
          rcases gap_cases c r with ⟨hblank, h⟩ | ⟨hgap, h⟩ | ⟨hsolid, h, hsolid'⟩
          · rw [h, gapLength_cons_of_isBlank hblank, gapLength_cons_of_isBlank hblank]
            exact ih false
          · rw [h, hgap, gapLength_cons_of_isBlank rfl]
            exact ih true
          · rw [h, show gapLength false _ = 0 from hsolid', show gapLength false _ = 0 from hsolid]
            exact h.symm

theorem gapLength_eq_zero_iff {r : Text} :
    gapLength false r = 0 ↔ gapLength false (uncomment false r) = 0 := by
  cases r with
  | nil => rfl
  | cons c r =>
      rcases gap_cases c r with ⟨hblank, h⟩ | ⟨hgap, h⟩ | ⟨hsolid, h, hsolid'⟩
      · rw [h, gapLength_cons_of_isBlank hblank, gapLength_cons_of_isBlank hblank]
        simp
      · rw [h, hgap, gapLength_cons_of_isBlank rfl]
        simp
      · rw [h]
        exact iff_of_true hsolid hsolid'

theorem solid_drop_gapLength (comment : Bool) (r : Text) :
    Solid (r.drop (gapLength comment r)) := by
  induction r generalizing comment with
  | nil => rfl
  | cons c r ih =>
      cases comment with
      | true => simpa [gapLength] using ih _
      | false =>
          rcases gap_cases c r with ⟨hblank, -⟩ | ⟨hgap, -⟩ | ⟨hsolid, -⟩
          · rw [gapLength_cons_of_isBlank hblank]
            exact ih false
          · rw [hgap]
            exact ih true
          · rw [show gapLength false _ = 0 from hsolid]
            exact hsolid

/-! ## Words -/

/-- A text that has nothing in common with a comment or with a space. -/
def Plain (u : Text) : Prop :=
  ∀ c ∈ u, c ≠ .scalar ' ' ∧ c ≠ .scalar '#' ∧ c ≠ .scalar '/'

instance (u : Text) : Decidable (Plain u) := inferInstanceAs (Decidable (∀ c ∈ u, _))

/-- A class of characters like that. -/
def PlainClass (p : Char → Bool) : Prop := p ' ' = false ∧ p '#' = false ∧ p '/' = false

instance (p : Char → Bool) : Decidable (PlainClass p) := inferInstanceAs (Decidable (_ ∧ _ ∧ _))

theorem uncomment_append {u : Text} (hu : Plain u) (r : Text) :
    uncomment false (u ++ r) = u ++ uncomment false r := by
  induction u with
  | nil => rfl
  | cons c u ih =>
      obtain ⟨hc, hu⟩ := List.forall_mem_cons.mp hu
      rw [List.cons_append, List.cons_append, ← ih hu]
      exact (uncomment_cases c (u ++ r)).resolve_right fun h => by simp [hc] at h

theorem prefix_of_prefix_uncomment {u : Text} (hu : Plain u) {r : Text}
    (h : u <+: uncomment false r) : u <+: r := by
  induction u generalizing r with
  | nil => exact List.nil_prefix
  | cons x u ih =>
      obtain ⟨hx, hu⟩ := List.forall_mem_cons.mp hu
      cases r with
      | nil => exact h
      | cons c r =>
          rcases uncomment_cases c r with hc | ⟨-, hc⟩ <;> rw [hc, List.cons_prefix_cons] at h
          · exact List.cons_prefix_cons.mpr ⟨h.1, ih hu h.2⟩
          · exact absurd h.1 hx.1

theorem leading_uncomment {p : Char → Bool} (hp : PlainClass p) (r : Text) :
    Text.leading p (uncomment false r) = Text.leading p r := by
  induction r with
  | nil => rfl
  | cons c r ih =>
      rcases uncomment_cases c r with h | ⟨hc, h⟩
      · rw [h]
        cases c <;> simp [Text.leading, ih]
      · rw [h]
        rcases hc with rfl | rfl <;> simp [Text.leading, hp.1, hp.2.1, hp.2.2]

theorem exists_leading {p : Char → Bool} (hp : PlainClass p) (r : Text) :
    ∃ w, r = Text.ofChars (Text.leading p r) ++ w ∧ Plain (Text.ofChars (Text.leading p r)) := by
  induction r with
  | nil => exact ⟨[], rfl, by simp [Text.leading, Text.ofChars, Plain]⟩
  | cons c r ih =>
      obtain ⟨w, hr, hplain⟩ := ih
      rcases c with x | x
      · cases hx : p x with
        | false => exact ⟨.scalar x :: r, by simp [Text.leading, hx, Text.ofChars, Plain]⟩
        | true =>
            have hne : ∀ y, p y = false → CodePoint.scalar x ≠ .scalar y := by
              rintro y hy ⟨⟩
              exact Bool.noConfusion (hx.symm.trans hy)
            simp only [Text.leading, hx, if_true]
            exact ⟨w, congrArg (_ :: ·) hr, List.forall_mem_cons.mpr
              ⟨⟨hne _ hp.1, hne _ hp.2.1, hne _ hp.2.2⟩, hplain⟩⟩
      · exact ⟨.surrogate x :: r, by simp [Text.leading, Text.ofChars, Plain]⟩

/-! ## Columns -/

/-- The column behind a text that starts in a column. -/
def advance (column : Nat) : Text → Nat
  | [] => column
  | c :: rest => advance (if c = .scalar '\n' then 1 else column + 1) rest

theorem advance_append (column : Nat) (a b : Text) :
    advance column (a ++ b) = advance (advance column a) b := by
  induction a generalizing column with
  | nil => rfl
  | cons c a ih => exact ih _

theorem columnAt_eq (t : Text) (offset : Nat) :
    Text.columnAt t offset = advance 1 (t.take offset) := by
  unfold Text.columnAt
  induction t.take offset using List.reverseRecOn with
  | nil => rfl
  | append_singleton a c ih =>
      rw [advance_append, ← ih, List.reverse_append, List.reverse_singleton, List.singleton_append]
      by_cases hc : c = .scalar '\n' <;> simp [advance, hc]

/-- A comment goes on to the end of the line. So if anything comes after a gap, there was no comment
in its last line, and it ends in the same column without comments. -/
theorem advance_gap (comment : Bool) (r : Text) {k k' : Nat} (hk : comment = false → k = k')
    (hne : r.drop (gapLength comment r) ≠ []) :
    advance k (r.take (gapLength comment r)) =
      advance k' ((uncomment comment r).take (gapLength false (uncomment comment r))) := by
  induction r generalizing comment k k' with
  | nil => exact absurd List.drop_nil hne
  | cons c r ih =>
      cases comment with
      | true =>
          by_cases hc : c = .scalar '\n'
          · subst hc
            have hblank := gapLength_cons_of_isBlank (c := .scalar '\n') rfl (uncomment false r)
            simpa [uncomment, gapLength, hblank, advance] using ih false (fun _ => rfl)
              (by simpa [gapLength] using hne)
          · simpa [uncomment, gapLength, hc, advance] using ih true Bool.noConfusion
              (by simpa [gapLength, hc] using hne)
      | false =>
          obtain rfl := hk rfl
          rcases gap_cases c r with ⟨hblank, h⟩ | ⟨hgap, h⟩ | ⟨hsolid, h, hsolid'⟩
          · rw [gapLength_cons_of_isBlank hblank] at hne ⊢
            rw [h, gapLength_cons_of_isBlank hblank]
            exact ih false (fun _ => rfl) hne
          · rw [hgap] at hne ⊢
            rw [h, gapLength_cons_of_isBlank rfl]
            exact ih true Bool.noConfusion hne
          · rw [h, show gapLength false _ = 0 from hsolid', show gapLength false _ = 0 from hsolid]
            rfl

end ConstFlow.Source
