import Mathlib.Data.List.Flatten
import ConstFlow.Proofs.Matching
import ConstFlow.Source.Parse

/-!
# What source trees are like

What is true of every source tree that is read from a text. Names and statements stand where their
offsets say, one after another, through all methods of the text; and the names of variables start
with a letter or an underscore. This is shown rule by rule, with one judgement: `Ensures text p s Q`
says that whatever a matcher finds in the text from an offset on ends no earlier, and has the
property `Q`.
-/

namespace ConstFlow.Source

/-! ## Offsets in order -/

/-- Offsets between two others, in order. -/
def Within (s e : Nat) (os : List Nat) : Prop := os.Pairwise (· < ·) ∧ ∀ o ∈ os, s ≤ o ∧ o < e

theorem within_nil {s e : Nat} : Within s e [] := ⟨.nil, by simp⟩

theorem within_singleton {s o e : Nat} (hs : s ≤ o) (he : o < e) : Within s e [o] :=
  ⟨List.pairwise_singleton _ _, by simpa using ⟨hs, he⟩⟩

theorem Within.mono {s s' e e' : Nat} {os : List Nat} (hs : s' ≤ s) (he : e ≤ e')
    (h : Within s e os) : Within s' e' os :=
  ⟨h.1, fun o ho => ⟨Nat.le_trans hs (h.2 o ho).1, Nat.lt_of_lt_of_le (h.2 o ho).2 he⟩⟩

theorem Within.append {s m e : Nat} {os os' : List Nat} (hs : s ≤ m) (he : m ≤ e)
    (h : Within s m os) (h' : Within m e os') : Within s e (os ++ os') := by
  refine ⟨List.pairwise_append.mpr ⟨h.1, h'.1, fun o ho o' ho' => ?_⟩, ?_⟩
  · exact Nat.lt_of_lt_of_le (h.2 o ho).2 (h'.2 o' ho').1
  · exact List.forall_mem_append.mpr ⟨(h.mono (Nat.le_refl s) he).2, (h'.mono hs (Nat.le_refl e)).2⟩

/-! ## What matchers ensure -/

/-- The place at an offset of a text. -/
def Cursor.inText (text : Text) (s : Nat) : Cursor := ⟨s, text.drop s⟩

theorem Cursor.skip_inText (text : Text) (s n : Nat) :
    (inText text s).skip n = inText text (s + n) := by
  simp [inText, skip]

namespace Matcher

variable {α β : Type} {text : Text} {p q : Matcher α} {f : α → Matcher β} {s : Nat}
  {P P' : α → Nat → Prop} {Q : β → Nat → Prop} {O : Option α → Nat → Prop}

/-- Whatever is found in a text from an offset on ends no earlier, and its value and end have a
property. -/
def Ensures (text : Text) (p : Matcher α) (s : Nat) (P : α → Nat → Prop) : Prop :=
  ∀ a c', (p (.inText text s)).found? = some (a, c') →
    ∃ e, c' = .inText text e ∧ s ≤ e ∧ P a e

theorem Ensures.imp (h : Ensures text p s P) (hP : ∀ a e, s ≤ e → P a e → P' a e) :
    Ensures text p s P' := by
  intro a c' hfound
  obtain ⟨e, rfl, hle, hPa⟩ := h a c' hfound
  exact ⟨e, rfl, hle, hP a e hle hPa⟩

theorem ensures_pure {a : α} (h : P a s) : Ensures text (pure a) s P := by
  intro b c' hfound
  obtain ⟨rfl, rfl⟩ := Prod.mk.inj (Option.some.inj hfound)
  exact ⟨s, rfl, Nat.le_refl s, h⟩

theorem Ensures.bind (hp : Ensures text p s P)
    (hf : ∀ a m, s ≤ m → P a m → Ensures text (f a) m Q) : Ensures text (p >>= f) s Q := by
  intro b c' hfound
  rw [found?_bind] at hfound
  obtain ⟨⟨a, c⟩, ha, hb⟩ := Option.bind_eq_some_iff.mp hfound
  obtain ⟨m, rfl, hle, hPa⟩ := hp a c ha
  obtain ⟨e, rfl, hle', hQb⟩ := hf a m hle hPa b c' hb
  exact ⟨e, rfl, Nat.le_trans hle hle', hQb⟩

/-- A last step that only makes a value. -/
theorem Ensures.map {g : α → β} (hp : Ensures text p s P)
    (hg : ∀ a e, s ≤ e → P a e → Q (g a) e) : Ensures text (p >>= fun a => pure (g a)) s Q :=
  hp.bind fun a e hle ha => ensures_pure (hg a e hle ha)

theorem Ensures.rule (h : Ensures text p s P) : Ensures text (Matcher.rule p) s P := by
  intro a c' hfound
  rw [found?_rule] at hfound
  exact h a c' hfound

theorem Ensures.step (h : Ensures text p s P) : Ensures text (Matcher.step p) s P := by
  intro a c' hfound
  rw [found?_step] at hfound
  exact h a c' hfound

theorem Ensures.orElse (hp : Ensures text p s P) (hq : Ensures text q s P) :
    Ensures text (Matcher.orElse p q) s P := by
  intro a c' hfound
  rw [found?_orElse, Option.or_eq_some_iff] at hfound
  rcases hfound with h | ⟨-, h⟩
  · exact hp a c' h
  · exact hq a c' h

theorem ensures_oneOf {ps : List (Matcher α)} (h : ∀ p ∈ ps, Ensures text p s P) :
    Ensures text (oneOf ps) s P := by
  induction ps with
  | nil => intro a c' hfound; cases hfound
  | cons p ps ih =>
      rw [List.forall_mem_cons] at h
      exact h.1.orElse (ih h.2)

/-- An option that is not taken ends where it starts. -/
theorem Ensures.optional (h : Ensures text p s P) (hnone : O none s)
    (hsome : ∀ a e, s ≤ e → P a e → O (some a) e) : Ensures text (Matcher.optional p) s O := by
  intro o c' hfound
  rw [found?_optional] at hfound
  split at hfound
  · obtain ⟨rfl, rfl⟩ := Prod.mk.inj (Option.some.inj hfound)
    exact ⟨s, rfl, Nat.le_refl s, hnone⟩
  · cases hp : (p (.inText text s)).found? with
    | none =>
        rw [hp] at hfound
        obtain ⟨rfl, rfl⟩ := Prod.mk.inj (Option.some.inj hfound)
        exact ⟨s, rfl, Nat.le_refl s, hnone⟩
    | some m =>
        rw [hp] at hfound
        obtain ⟨rfl, rfl⟩ := Prod.mk.inj (Option.some.inj hfound)
        obtain ⟨e, hc, hle, hPa⟩ := h m.1 m.2 hp
        exact ⟨e, hc, hle, hsome m.1 e hle hPa⟩

/-- What a repetition finds one after another has its offsets one after another. -/
theorem Ensures.many {offsets : α → List Nat} {R : α → Prop}
    (h : ∀ s, Ensures text p s fun a e => Within s e (offsets a) ∧ R a) :
    Ensures text (many p) s fun as e => Within s e (as.flatMap offsets) ∧ ∀ a ∈ as, R a := by
  have hnone : ∀ s, ∃ e, Cursor.inText text s = .inText text e ∧ s ≤ e ∧
      Within s e (([] : List α).flatMap offsets) ∧ ∀ a ∈ ([] : List α), R a :=
    fun s => ⟨s, rfl, Nat.le_refl s, within_nil, by simp⟩
  have hupTo : ∀ n s, Ensures text (manyUpTo p n) s fun as e =>
      Within s e (as.flatMap offsets) ∧ ∀ a ∈ as, R a := by
    intro n
    induction n with
    | zero =>
        intro s as c' hfound
        obtain ⟨rfl, rfl⟩ := Prod.mk.inj (Option.some.inj hfound)
        exact hnone s
    | succ n ih =>
        intro s as c' hfound
        rw [found?_manyUpTo] at hfound
        split at hfound
        · obtain ⟨rfl, rfl⟩ := Prod.mk.inj (Option.some.inj hfound)
          exact hnone s
        · cases hp : (p (.inText text s)).found? with
          | none =>
              rw [hp] at hfound
              obtain ⟨rfl, rfl⟩ := Prod.mk.inj (Option.some.inj hfound)
              exact hnone s
          | some m =>
              obtain ⟨a, c⟩ := m
              obtain ⟨m, rfl, hle, hwithin, hRa⟩ := h s a c hp
              rw [hp, Option.elim_some] at hfound
              split at hfound
              · obtain ⟨⟨bs, c⟩, hmore, hfound⟩ := Option.map_eq_some_iff.mp hfound
                obtain ⟨rfl, rfl⟩ := Prod.mk.inj hfound
                obtain ⟨e, rfl, hle', hwithin', hRbs⟩ := ih m bs c hmore
                exact ⟨e, rfl, Nat.le_trans hle hle', hwithin.append hle hle' hwithin',
                  List.forall_mem_cons.mpr ⟨hRa, hRbs⟩⟩
              · obtain ⟨rfl, rfl⟩ := Prod.mk.inj (Option.some.inj hfound)
                exact ⟨m, rfl, hle, by simpa using hwithin, by simpa using hRa⟩
  exact hupTo _ s

theorem ensures_notAhead (p : Matcher α) : Ensures text (notAhead p) s fun _ e => e = s := by
  intro a c' hfound
  rw [found?_notAhead] at hfound
  cases hp : (p (.inText text s)).found? with
  | none =>
      rw [hp] at hfound
      obtain ⟨-, rfl⟩ := Prod.mk.inj (Option.some.inj hfound)
      exact ⟨s, rfl, Nat.le_refl s, rfl⟩
  | some m =>
      rw [hp] at hfound
      cases hfound

theorem ensures_here : Ensures text here s fun o e => o = s ∧ e = s := by
  intro a c' hfound
  obtain ⟨rfl, rfl⟩ := Prod.mk.inj (Option.some.inj hfound)
  exact ⟨s, rfl, Nat.le_refl s, rfl, rfl⟩

/-- A token stands where it is found. -/
theorem ensures_token (t : Text) :
    Ensures text (token t) s fun _ e => t <+: text.drop s ∧ e = s + t.length := by
  intro a c' hfound
  unfold token at hfound
  split at hfound
  · rename_i hprefix
    obtain ⟨-, rfl⟩ := Prod.mk.inj (Option.some.inj hfound)
    rw [Cursor.skip_inText]
    exact ⟨_, rfl, Nat.le_add_right _ _, List.isPrefixOf_iff_prefix.mp hprefix, rfl⟩
  · cases hfound

theorem ensures_charOf {class? : Char → Bool} : Ensures text (charOf class?) s fun c e =>
    class? c = true ∧ [.scalar c] <+: text.drop s ∧ e = s + 1 := by
  intro a c' hfound
  unfold charOf at hfound
  split at hfound
  · rename_i x rest hrest
    split at hfound
    · rename_i hx
      obtain ⟨rfl, rfl⟩ := Prod.mk.inj (Option.some.inj hfound)
      rw [Cursor.skip_inText]
      refine ⟨_, rfl, Nat.le_add_right _ _, hx, ?_, rfl⟩
      rw [show text.drop s = _ from hrest]
      exact ⟨rest, rfl⟩
    · cases hfound
  · cases hfound

theorem leading_prefix (class? : Char → Bool) (t : Text) :
    Text.ofChars (Text.leading class? t) <+: t := by
  fun_induction Text.leading class? t with
  | case1 c rest _ ih => exact List.cons_prefix_cons.mpr ⟨rfl, ih⟩
  | case2 c rest _ => exact List.nil_prefix
  | case3 t _ => exact List.nil_prefix

theorem ensures_runOf {class? : Char → Bool} : Ensures text (runOf class?) s fun cs e =>
    Text.ofChars cs <+: text.drop s ∧ e = s + cs.length := by
  intro cs c' hfound
  obtain ⟨rfl, rfl⟩ := Prod.mk.inj (Option.some.inj hfound)
  rw [Cursor.skip_inText]
  exact ⟨_, rfl, Nat.le_add_right _ _, leading_prefix class? _, rfl⟩

end Matcher

open Matcher

/-! ## Names and statements of trees -/

/-- A name that starts with a letter or an underscore. -/
def Name.Lettered (n : Name) : Prop := ∃ c t, n.text = .scalar c :: t ∧ isLetter c = true

def Operand.variables : Operand → List Name
  | .name n => [n]
  | .literal _ => []

def Call.variables (c : Call) : List Name := c.args.flatMap Operand.variables

def Rhs.variables : Rhs → List Name
  | .call c => c.variables
  | .binary _ l r => l.variables ++ r.variables
  | .operand o => o.variables

def Statement.variables : Statement → List Name
  | .pass | .jump _ | .ret none => []
  | .ret (some o) => o.variables
  | .branch _ l r _ => l.variables ++ r.variables
  | .assign target rhs => target :: rhs.variables
  | .call c => c.variables

/-- The variables of a method, wherever it names one, in the order in which they are written. -/
def Decl.variables (d : Decl) : List Name :=
  d.params ++ d.items.flatMap fun i => i.statement.variables

/-- A name stands where its offset says. -/
def Name.StandsIn (text : Text) (n : Name) : Prop := n.text <+: text.drop n.offset

/-- The word that a statement opens with. -/
def Statement.opening : Statement → Text
  | .pass => "nop"
  | .jump _ => "goto"
  | .ret _ => "return"
  | .branch .. => "if"
  | .assign target _ => target.text
  | .call c => c.callee.text

/-- An item stands where its offset says, and so do its labels. -/
def Item.StandsIn (text : Text) (i : Item) : Prop :=
  (∀ n ∈ i.labels, n.StandsIn text) ∧ i.statement.opening <+: text.drop i.offset

/-- The offsets of an item: those of its labels, and its own. -/
def Item.offsets (i : Item) : List Nat := i.labels.map Name.offset ++ [i.offset]

/-- A method with its name, parameters and items where their offsets say. -/
structure Decl.StandsIn (text : Text) (d : Decl) : Prop where
  name : d.name.StandsIn text
  params : ∀ n ∈ d.params, n.StandsIn text
  items : ∀ i ∈ d.items, i.StandsIn text

/-- The offsets of a method, in the order in which they are written. -/
def Decl.offsets (d : Decl) : List Nat :=
  d.name.offset :: d.params.map Name.offset ++ d.items.flatMap Item.offsets

/-! ## What rules ensure -/

section

variable {text : Text} {s : Nat}

theorem ensures_blanks : Ensures text blanks s fun _ _ => True := by
  refine Ensures.rule fun a c' hfound => ?_
  obtain ⟨-, rfl⟩ := Prod.mk.inj (Option.some.inj hfound)
  rw [Cursor.skip_inText]
  exact ⟨_, rfl, Nat.le_add_right _ _, trivial⟩

theorem ensures_gap : Ensures text gap s fun _ _ => True := by
  refine Ensures.rule fun a c' hfound => ?_
  simp only at hfound
  split at hfound
  · cases hfound
  · obtain ⟨-, rfl⟩ := Prod.mk.inj (Option.some.inj hfound)
    rw [Cursor.skip_inText]
    exact ⟨_, rfl, Nat.le_add_right _ _, trivial⟩

/-- A name stands where it is found, and is not empty. -/
theorem ensures_name : Ensures text name s fun n e =>
    n.Lettered ∧ n.StandsIn text ∧ n.offset = s ∧ s < e := by
  refine Ensures.rule ((ensures_notAhead _).bind ?_)
  rintro - _ - rfl
  refine ensures_here.bind ?_
  rintro _ off - ⟨rfl, rfl⟩
  refine ensures_charOf.bind ?_
  rintro c _ - ⟨hc, ⟨more, hfirst⟩, rfl⟩
  refine ensures_runOf.map fun cs e he hcs => ⟨⟨c, Text.ofChars cs, rfl, hc⟩, ?_, rfl, by omega⟩
  -- The rest of the name stands behind its first letter.
  have hmore : text.drop (off + 1) = more := by
    rw [← List.drop_drop, ← hfirst]
    rfl
  rw [Name.StandsIn, ← hfirst]
  exact List.cons_prefix_cons.mpr ⟨rfl, hmore ▸ hcs.1⟩

theorem ensures_literal : Ensures text literal s fun _ _ => True := by
  refine Ensures.rule (Ensures.step ?_)
  refine Ensures.bind (P := fun _ _ => True) (Ensures.orElse ?_ ?_) fun _ _ _ _ => ?_
  · exact (ensures_token _).map fun _ _ _ _ => trivial
  · exact ensures_pure trivial
  refine ensures_charOf.bind fun c _ _ _ => ?_
  exact ensures_runOf.map fun _ _ _ _ => trivial

theorem ensures_operand : Ensures text operand s fun o _ => ∀ n ∈ o.variables, n.Lettered := by
  refine Ensures.rule (Ensures.orElse ?_ ?_)
  · exact ensures_literal.map fun n _ _ _ => by simp [Operand.variables]
  · exact ensures_name.map fun n _ _ hn => by simpa [Operand.variables] using hn.1

theorem ensures_operator : Ensures text operator s fun _ _ => True := by
  refine Ensures.rule (ensures_oneOf fun p hp => ?_)
  obtain ⟨op, -, rfl⟩ := List.mem_map.mp hp
  exact (ensures_token _).map fun _ _ _ _ => trivial

/-- The members of a list stand one after another. -/
theorem ensures_parenList {α : Type} {member : Matcher α} {offsets : α → List Nat} {R : α → Prop}
    (h : ∀ s, Ensures text member s fun a e => Within s e (offsets a) ∧ R a) :
    Ensures text (parenList member) s fun as e =>
      Within s e (as.flatMap offsets) ∧ ∀ a ∈ as, R a := by
  have hnext : ∀ s, Ensures text (next member) s fun a e => Within s e (offsets a) ∧ R a :=
    fun s => by
      refine (ensures_token _).bind fun _ _ h₁ _ => ?_
      refine ensures_blanks.bind fun _ _ h₂ _ => ?_
      refine (h _).bind fun a _ h₃ ha => ?_
      exact ensures_blanks.map fun _ _ h₄ _ => ⟨ha.1.mono (by omega) h₄, ha.2⟩
  have hlist : ∀ s, Ensures text (commaList member) s fun as e =>
      Within s e (as.flatMap offsets) ∧ ∀ a ∈ as, R a := fun s => by
    refine Ensures.rule ((h s).bind fun a _ h₁ ha => ?_)
    refine ensures_blanks.bind fun _ _ h₂ _ => ?_
    exact (Ensures.many hnext).map fun as _ h₃ has =>
      ⟨(ha.1.mono (Nat.le_refl _) h₂).append (Nat.le_trans h₁ h₂) h₃ has.1,
        List.forall_mem_cons.mpr ⟨ha.2, has.2⟩⟩
  refine (ensures_token _).bind fun _ _ h₁ _ => ?_
  refine ensures_blanks.bind fun _ m h₂ _ => ?_
  refine Ensures.bind (P := fun o e =>
    Within m e ((o.getD []).flatMap offsets) ∧ ∀ a ∈ o.getD [], R a) ?_ fun o _ h₃ ho => ?_
  · exact (hlist m).optional ⟨within_nil, by simp⟩ fun as _ _ has => has
  · exact (ensures_token _).map fun _ _ h₄ _ => ⟨ho.1.mono (by omega) h₄, ho.2⟩

theorem ensures_call : Ensures text call s fun c e =>
    (∀ n ∈ c.variables, n.Lettered) ∧ c.callee.text <+: text.drop s ∧ s < e := by
  refine Ensures.rule (ensures_name.bind ?_)
  rintro callee m - ⟨-, hstands, rfl, hm⟩
  refine ensures_blanks.bind fun _ _ h₁ _ => ?_
  have hoperand : ∀ s, Ensures text operand s fun o e =>
      Within s e ((fun _ => []) o) ∧ ∀ n ∈ o.variables, n.Lettered := fun s =>
    ensures_operand.imp fun _ _ _ ho => ⟨within_nil, ho⟩
  refine (ensures_parenList hoperand).map fun args _ h₂ hargs => ⟨fun n hn => ?_, hstands, by omega⟩
  obtain ⟨o, ho, hn⟩ := List.mem_flatMap.mp hn
  exact hargs.2 o ho n hn

theorem ensures_rhs : Ensures text rhs s fun r _ => ∀ n ∈ r.variables, n.Lettered := by
  refine Ensures.rule (ensures_oneOf ?_)
  simp only [List.forall_mem_cons, List.not_mem_nil, false_imp_iff, implies_true, and_true]
  refine ⟨ensures_call.map fun c _ _ hc => hc.1, ?_, ensures_operand.map fun o _ _ ho => ho⟩
  refine Ensures.rule (ensures_operand.bind fun l _ _ hl => ?_)
  refine ensures_blanks.bind fun _ _ _ _ => ?_
  refine ensures_operator.bind fun op _ _ _ => ?_
  refine ensures_blanks.bind fun _ _ _ _ => ?_
  exact ensures_operand.map fun r _ _ hr => List.forall_mem_append.mpr ⟨hl, hr⟩

/-- What is found of a statement: its variables have names, and it opens where it is found. -/
def Statement.FoundAt (text : Text) (s : Nat) (st : Statement) : Prop :=
  (∀ n ∈ st.variables, n.Lettered) ∧ st.opening <+: text.drop s

theorem ensures_ifStatement : Ensures text ifStatement s fun st _ => st.FoundAt text s := by
  refine Ensures.rule ((ensures_token _).bind fun _ _ _ hif => ?_)
  refine ensures_gap.bind fun _ _ _ _ => ?_
  refine ensures_operand.bind fun l _ _ hl => ?_
  refine ensures_blanks.bind fun _ _ _ _ => ?_
  refine ensures_operator.bind fun op _ _ _ => ?_
  refine ensures_blanks.bind fun _ _ _ _ => ?_
  refine ensures_operand.bind fun r _ _ hr => ?_
  refine ensures_gap.bind fun _ _ _ _ => ?_
  refine (ensures_token _).bind fun _ _ _ _ => ?_
  refine ensures_gap.bind fun _ _ _ _ => ?_
  exact ensures_name.map fun label _ _ _ => ⟨List.forall_mem_append.mpr ⟨hl, hr⟩, hif.1⟩

theorem ensures_returnStatement :
    Ensures text returnStatement s fun st _ => st.FoundAt text s := by
  refine Ensures.rule ((ensures_token _).bind fun _ _ _ hreturn => ?_)
  refine (ensures_notAhead _).bind fun _ _ _ _ => ?_
  refine Ensures.map (P := fun o _ => ∀ a ∈ o, ∀ n ∈ a.variables, n.Lettered) ?_ ?_
  · refine Ensures.optional (ensures_blanks.bind fun _ _ _ _ => ensures_operand) (by simp) ?_
    exact fun o _ _ ho => by simpa using ho
  · intro o _ _ ho
    refine ⟨?_, hreturn.1⟩
    cases o with
    | none => simp [Statement.variables]
    | some o => exact ho o rfl

theorem ensures_assignment : Ensures text assignment s fun st _ => st.FoundAt text s := by
  refine Ensures.rule (ensures_name.bind ?_)
  rintro target m - ⟨ht, hstands, rfl, -⟩
  refine ensures_blanks.bind fun _ _ _ _ => ?_
  refine (ensures_token _).bind fun _ _ _ _ => ?_
  refine (ensures_notAhead _).bind fun _ _ _ _ => ?_
  refine ensures_blanks.bind fun _ _ _ _ => ?_
  exact ensures_rhs.map fun r _ _ hr => ⟨List.forall_mem_cons.mpr ⟨ht, hr⟩, hstands⟩

/-- A statement opens where it is found, and takes at least the semicolon. -/
theorem ensures_statement :
    Ensures text statement s fun st e => st.FoundAt text s ∧ s < e := by
  refine Ensures.rule (Ensures.bind (P := fun st _ => st.FoundAt text s) (ensures_oneOf ?_)
    fun st m hm hst => ?_)
  · simp only [List.forall_mem_cons, List.not_mem_nil, false_imp_iff, implies_true, and_true]
    refine ⟨ensures_returnStatement, ensures_ifStatement, ?_, ?_, ensures_assignment,
      ensures_call.map fun c _ _ hc => ⟨hc.1, hc.2.1⟩⟩
    · refine Ensures.rule ((ensures_token _).bind fun _ _ _ hgoto => ?_)
      refine ensures_gap.bind fun _ _ _ _ => ?_
      exact ensures_name.map fun label _ _ _ => ⟨by simp [Statement.variables], hgoto.1⟩
    · refine Ensures.rule ((ensures_token _).bind fun _ _ _ hnop => ?_)
      exact (ensures_notAhead _).map fun _ _ _ _ => ⟨by simp [Statement.variables], hnop.1⟩
  · refine ensures_blanks.bind fun _ _ h₁ _ => ?_
    refine (ensures_token _).bind ?_
    rintro - _ - ⟨-, rfl⟩
    exact ensures_blanks.map fun _ e h₂ _ => ⟨hst, by
      have : 0 < (";" : Text).length := by decide
      omega⟩

theorem ensures_label : Ensures text label s fun n e =>
    Within s e [n.offset] ∧ n.StandsIn text := by
  refine Ensures.rule (ensures_name.bind ?_)
  rintro n m - ⟨-, hstands, rfl, hm⟩
  refine ensures_blanks.bind fun _ _ h₁ _ => ?_
  refine (ensures_token _).bind fun _ _ h₂ _ => ?_
  exact ensures_blanks.map fun _ _ h₃ _ => ⟨within_singleton (Nat.le_refl _) (by omega), hstands⟩

/-- An item stands behind its labels, and before what comes next. -/
theorem ensures_item : Ensures text item s fun i e =>
    Within s e i.offsets ∧ i.StandsIn text ∧ ∀ n ∈ i.statement.variables, n.Lettered := by
  refine Ensures.rule ((Ensures.many fun s => ensures_label).bind fun labels m hm hlabels => ?_)
  refine ensures_here.bind ?_
  rintro _ off - ⟨rfl, rfl⟩
  refine ensures_statement.map fun st e he hst => ⟨?_, ⟨hlabels.2, hst.1.2⟩, hst.1.1⟩
  have hoffsets : Within s off (labels.map Name.offset) := by
    rw [List.map_eq_flatMap]
    exact hlabels.1
  exact hoffsets.append hm he (within_singleton (Nat.le_refl _) hst.2)

/-- The name, the parameters and the items of a method stand between its start and its end, one
after another. -/
theorem ensures_decl : Ensures text decl s fun d e =>
    Within s e d.offsets ∧ d.StandsIn text ∧ ∀ n ∈ d.variables, n.Lettered := by
  refine Ensures.rule ((ensures_token _).bind fun _ m₁ h₁ _ => ?_)
  refine ensures_gap.bind fun _ m₂ h₂ _ => ?_
  refine ensures_name.bind ?_
  rintro n m₃ h₃ ⟨-, hname, rfl, hlt⟩
  refine ensures_blanks.bind fun _ m₄ h₄ _ => ?_
  have hparam : ∀ s, Ensures text name s fun n e =>
      Within s e [n.offset] ∧ n.StandsIn text ∧ n.Lettered := fun s =>
    ensures_name.imp fun n _ _ hn => ⟨within_singleton (by omega) (by omega), hn.2.1, hn.1⟩
  refine (ensures_parenList hparam).bind fun params m₅ h₅ hparams => ?_
  refine ensures_blanks.bind fun _ m₆ h₆ _ => ?_
  refine (ensures_token _).bind fun _ m₇ h₇ _ => ?_
  refine ensures_blanks.bind fun _ m₈ h₈ _ => ?_
  refine (Ensures.many fun s => ensures_item).bind fun items m₉ h₉ hitems => ?_
  refine (ensures_token _).bind fun _ m₁₀ h₁₀ _ => ?_
  refine ensures_blanks.map fun _ e he _ => ⟨?_, ⟨hname, ?_, ?_⟩, ?_⟩
  · have hfirst : Within s m₄ [n.offset] := within_singleton (by omega) (by omega)
    have hsecond : Within m₄ m₅ (params.map Name.offset) := by
      rw [List.map_eq_flatMap]
      exact hparams.1
    refine Within.append (m := m₅) (by omega) (by omega) (hfirst.append (by omega) h₅ hsecond) ?_
    exact hitems.1.mono (by omega) (by omega)
  · exact fun n hn => (hparams.2 n hn).1
  · exact fun i hi => (hitems.2 i hi).1
  · refine List.forall_mem_append.mpr ⟨fun n hn => (hparams.2 n hn).2, fun n hn => ?_⟩
    obtain ⟨i, hi, hn⟩ := List.mem_flatMap.mp hn
    exact (hitems.2 i hi).2 n hn

end

/-- The trees of a text: what has an offset stands there, and the offsets of all methods are in
order. -/
theorem standsIn_of_readDecls {text : Text} {ds : List Decl} (h : readDecls text = .ok ds) :
    (ds.flatMap Decl.offsets).Pairwise (· < ·) ∧
      ∀ d ∈ ds, d.StandsIn text ∧ ∀ n ∈ d.variables, n.Lettered := by
  have hprogram : Ensures text program 0 fun ds e => Within 0 e (ds.flatMap Decl.offsets) ∧
      ∀ d ∈ ds, d.StandsIn text ∧ ∀ n ∈ d.variables, n.Lettered := by
    refine Ensures.rule (ensures_blanks.bind fun _ m hm _ => ?_)
    refine (Ensures.many fun s => ensures_decl).bind fun ds e he hds => ?_
    refine Ensures.map (P := fun _ _ => True) ?_ fun _ e' he' _ => ⟨hds.1.mono hm he', hds.2⟩
    exact (Ensures.rule (ensures_notAhead _)).imp fun _ _ _ _ => trivial
  unfold readDecls at h
  simp only at h
  split at h
  · rename_i ds' c hfound
    obtain rfl := Except.ok.inj h
    obtain ⟨e, -, -, hwithin, hds⟩ := hprogram _ _ hfound
    exact ⟨hwithin.1, hds⟩
  · cases h

/-- The items of a text stand one after another, and its variables have names. -/
theorem of_readDecls {text : Text} {ds : List Decl} (h : readDecls text = .ok ds) :
    (ds.flatMap fun d => d.items.map Item.offset).Pairwise (· ≤ ·) ∧
      ∀ d ∈ ds, ∀ n ∈ d.variables, n.Lettered := by
  obtain ⟨hordered, hds⟩ := standsIn_of_readDecls h
  refine ⟨List.Pairwise.imp Nat.le_of_lt (hordered.sublist ?_), fun d hd => (hds d hd).2⟩
  -- Of the offsets of a method, those of its items are some.
  refine List.Sublist.flatMap_right ds fun d _ => ?_
  refine List.Sublist.trans ?_ (List.sublist_append_right _ _)
  rw [List.map_eq_flatMap]
  exact List.Sublist.flatMap_right _ fun i _ => List.sublist_append_right _ _

end ConstFlow.Source
