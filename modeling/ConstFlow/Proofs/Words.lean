import ConstFlow.Proofs.Matching
import ConstFlow.Source.Grammar

/-!
# Reading words

What the rules for blanks, names, literals, operators and lists take. Where a word ends depends on
what follows it: a name or a literal is read to the end of its run of characters, and blanks are
read up to something solid.

A keyword is recognised only if the word ends with it, so a name such as `iffy` is not mistaken for
a statement. This is `IsName.of_keyword`: if a name starts with a keyword, it goes on.
-/

namespace ConstFlow.Source

open Matcher

/-! ## Blanks -/

/-- Nothing but blank characters. -/
def Blank (t : Text) : Prop := ∀ c ∈ t, c.isIn Text.isBlank = true

instance (t : Text) : Decidable (Blank t) := inferInstanceAs (Decidable (∀ c ∈ t, _))

/-- A text that starts with neither a blank nor a comment. -/
def Solid (t : Text) : Prop := gapLength false t = 0

theorem gapLength_append {t rest : Text} (ht : Blank t) (hrest : Solid rest) :
    gapLength false (t ++ rest) = t.length := by
  induction t with
  | nil => exact hrest
  | cons c t ih =>
      obtain ⟨hc, ht⟩ := List.forall_mem_cons.mp ht
      simp [gapLength, hc, ih ht]

theorem takes_blanks {t rest : Text} (ht : Blank t) (hrest : Solid rest) :
    Takes blanks t rest fun _ => True := by
  refine Takes.rule fun off => ⟨(), ?_, trivial⟩
  simp [gapLength_append ht hrest, Cursor.skip]

theorem takes_no_blanks {rest : Text} (hrest : Solid rest) : Takes blanks [] rest fun _ => True :=
  takes_blanks (by simp [Blank]) hrest

theorem takes_gap {t rest : Text} (ht : Blank t) (hne : t ≠ []) (hrest : Solid rest) :
    Takes gap t rest fun _ => True := by
  refine Takes.rule fun off => ⟨(), ?_, trivial⟩
  simp [gapLength_append ht hrest, Cursor.skip, hne]

theorem fails_gap {t : Text} (ht : Solid t) : Fails gap t := by
  refine Fails.rule fun off => ?_
  have hlen : gapLength false t = 0 := ht
  simp [hlen]

/-! ## Characters of words -/

theorem isWordChar_of_isLetter {c : Char} (h : isLetter c = true) : isWordChar c = true := by
  simp only [isLetter, isWordChar, Char.isAlphanum, Bool.or_eq_true] at h ⊢
  rcases h with h | h
  · exact .inl (.inl h)
  · exact .inr h

theorem not_isBlank_of_isWordChar {c : Char} (h : isWordChar c = true) :
    Text.isBlank c = false := by
  have hcodes : ∀ n ∈ Text.blankCodes, isWordChar (Char.ofNat n) = false := by decide
  rw [← Bool.not_eq_true]
  intro hblank
  have hc := hcodes c.toNat (by simpa [Text.isBlank] using hblank)
  rw [Char.ofNat_toNat, h] at hc
  cases hc

theorem solid_of_isWordChar {c : Char} (h : isWordChar c = true) (t : Text) :
    Solid (.scalar c :: t) := by
  have hhash : c ≠ '#' := by rintro rfl; cases h
  have hslash : c ≠ '/' := by rintro rfl; cases h
  simp [Solid, gapLength, CodePoint.isIn, not_isBlank_of_isWordChar h, hhash, hslash]

/-- A word ends here. -/
def EndsWord (t : Text) : Prop := Text.leading isWordChar t = []

theorem takes_wordChar {c : Char} (h : isWordChar c = true) (rest : Text) :
    Takes wordChar [.scalar c] rest (· = c) := (takes_charOf h).rule

theorem fails_wordChar {t : Text} (h : EndsWord t) : Fails wordChar t := (fails_charOf h).rule

/-! ## Keywords -/

theorem takes_keyword {k : Text} (hk : k ∈ keywords) (rest : Text) :
    Takes keyword k rest fun _ => True := by
  simp only [keywords, List.mem_cons, List.not_mem_nil, or_false] at hk
  rcases hk with rfl | rfl | rfl | rfl | rfl <;> exact fun off => ⟨(), rfl, trivial⟩

/-- Tokens are tried in turn, and what comes after whichever is found fails. -/
theorem fails_tokens_bind {β : Type} {f : Unit → Matcher β} {u : Text} :
    ∀ {ts : List Text}, (∀ t ∈ ts, ∀ v, u = t ++ v → Fails (f ()) v) →
      Fails (oneOf (ts.map token) >>= f) u
  | [], _ => Fails.bind fun _ => rfl
  | t :: ts, h => by
      rw [List.forall_mem_cons] at h
      by_cases ht : t <+: u
      · obtain ⟨v, rfl⟩ := ht
        exact (takes_token t).orElse.bind_fails fun _ _ => h.1 v rfl
      · intro off
        have hmore := fails_tokens_bind h.2 off
        rw [found?_bind] at hmore ⊢
        rw [List.map_cons, oneOf, found?_orElse, fails_token ht off]
        exact hmore

/-! ## Names -/

/-- A name: a letter or underscore, then letters, digits and underscores, and no keyword. -/
structure IsName (t : Text) : Prop where
  chars : ∃ c cs, t = Text.ofChars (c :: cs) ∧ isLetter c = true ∧ ∀ d ∈ cs, isWordChar d = true
  notKeyword : t ∉ keywords

theorem exists_ofChars {p : Char → Bool} {t : Text} (h : ∀ c ∈ t, c.isIn p = true) :
    ∃ cs, t = Text.ofChars cs ∧ ∀ c ∈ cs, p c = true := by
  induction t with
  | nil => exact ⟨[], rfl, by simp⟩
  | cons c t ih =>
      rw [List.forall_mem_cons] at h
      obtain ⟨cs, rfl, hcs⟩ := ih h.2
      cases c with
      | scalar c => exact ⟨c :: cs, rfl, List.forall_mem_cons.mpr ⟨h.1, hcs⟩⟩
      | surrogate place => cases h.1

theorem isName_iff {t : Text} : IsName t ↔
    (t.head?.any (·.isIn isLetter) = true ∧ ∀ c ∈ t, c.isIn isWordChar = true) ∧ t ∉ keywords := by
  constructor
  · rintro ⟨⟨c, cs, rfl, hc, hcs⟩, hno⟩
    refine ⟨⟨hc, ?_⟩, hno⟩
    simpa [Text.ofChars, CodePoint.isIn, isWordChar_of_isLetter hc] using hcs
  · rintro ⟨⟨hfirst, hall⟩, hno⟩
    obtain ⟨_ | ⟨c, cs⟩, rfl, hcs⟩ := exists_ofChars hall
    · cases hfirst
    · exact ⟨⟨c, cs, rfl, hfirst, (List.forall_mem_cons.mp hcs).2⟩, hno⟩

instance (t : Text) : Decidable (IsName t) := decidable_of_iff _ isName_iff.symm

theorem exists_more_of_append_eq {cs ks : List Char} {rest u : Text} (hrest : EndsWord rest)
    (hks : ∀ k ∈ ks, isWordChar k = true)
    (h : Text.ofChars cs ++ rest = Text.ofChars ks ++ u) :
    ∃ more, cs = ks ++ more ∧ u = Text.ofChars more ++ rest := by
  induction ks generalizing cs with
  | nil => exact ⟨cs, rfl, h.symm⟩
  | cons k ks ih =>
      rw [List.forall_mem_cons] at hks
      cases cs with
      | nil =>
          -- Otherwise the word would not end where it does.
          have hword : Text.leading isWordChar rest = [] := hrest
          rw [show rest = .scalar k :: (Text.ofChars ks ++ u) from h, Text.leading,
            if_pos hks.1] at hword
          cases hword
      | cons c cs =>
          obtain ⟨hck, htail⟩ := List.cons.inj h
          obtain ⟨more, rfl, hu⟩ := ih hks.2 htail
          exact ⟨more, by rw [CodePoint.scalar.inj hck]; rfl, hu⟩

theorem exists_chars_of_mem_keywords {k : Text} (hk : k ∈ keywords) :
    ∃ ks, k = Text.ofChars ks ∧ ∀ c ∈ ks, isWordChar c = true := by
  have hall : ∀ k ∈ keywords, ∀ c ∈ k, c.isIn isWordChar = true := by decide +kernel
  exact exists_ofChars (hall k hk)

namespace IsName

variable {t rest : Text} (h : IsName t)
include h

theorem ne_nil : t ≠ [] := by
  obtain ⟨⟨c, cs, rfl, -, -⟩, -⟩ := h
  exact List.cons_ne_nil _ _

theorem solid : Solid (t ++ rest) := by
  obtain ⟨⟨c, cs, rfl, hc, -⟩, -⟩ := h
  exact solid_of_isWordChar (isWordChar_of_isLetter hc) _

/-- A name that starts with a keyword goes on after it. -/
theorem of_keyword (hrest : EndsWord rest) {k u : Text} (hk : k ∈ keywords)
    (hku : t ++ rest = k ++ u) : ∃ c v, u = .scalar c :: v ∧ isWordChar c = true := by
  obtain ⟨⟨c, cs, rfl, hc, hcs⟩, hno⟩ := h
  obtain ⟨ks, rfl, hks⟩ := exists_chars_of_mem_keywords hk
  obtain ⟨more, hmore, rfl⟩ := exists_more_of_append_eq hrest hks hku
  cases more with
  | nil =>
      rw [hmore, List.append_nil] at hno
      exact absurd hk hno
  | cons d more =>
      have hd : d ∈ c :: cs := hmore ▸ List.mem_append_right ks List.mem_cons_self
      refine ⟨d, Text.ofChars more ++ rest, rfl, ?_⟩
      rcases List.mem_cons.mp hd with rfl | hd
      · exact isWordChar_of_isLetter hc
      · exact hcs d hd

/-- No keyword is found where a name stands, if what follows the keyword asks for the end of a
word. -/
theorem fails_keyword (hrest : EndsWord rest) :
    Fails (do keyword; notAhead wordChar) (t ++ rest) := by
  have hnext : ∀ k ∈ keywords, ∀ u, t ++ rest = k ++ u → Fails (notAhead wordChar) u := by
    intro k hk u hku
    obtain ⟨c, v, rfl, hc⟩ := h.of_keyword hrest hk hku
    exact (takes_wordChar hc v).notAhead
  intro off
  have hfails := fails_tokens_bind (f := fun _ => notAhead wordChar) hnext off
  rw [found?_bind] at hfails ⊢
  rw [keyword, found?_rule]
  exact hfails

theorem takes_name (hrest : EndsWord rest) : Takes name t rest fun n => n.text = t := by
  have hkeyword := h.fails_keyword hrest
  obtain ⟨⟨c, cs, rfl, hc, hcs⟩, -⟩ := h
  refine Takes.rule (hkeyword.notAhead.bind_nil fun _ _ => takes_here.bind_nil fun off _ => ?_)
  refine Takes.bind (t := [.scalar c]) (takes_charOf hc) ?_
  rintro _ rfl
  refine (takes_runOf hcs hrest).map ?_
  rintro _ rfl
  rfl

end IsName

/-- A keyword is no name. -/
theorem fails_name_of_keyword {k rest : Text} (hk : k ∈ keywords) (hrest : EndsWord rest) :
    Fails name (k ++ rest) := by
  have hkeyword : Takes (do keyword; notAhead wordChar) (k ++ []) rest fun _ => True :=
    Takes.bind (takes_keyword hk _) fun _ _ => (fails_wordChar hrest).notAhead
  rw [List.append_nil] at hkeyword
  exact Fails.rule hkeyword.notAhead.bind

/-- What does not start with a letter is no name. -/
theorem fails_name {t : Text} (h : Text.leading isLetter t = []) : Fails name t := by
  refine Fails.rule fun off => ?_
  rw [found?_bind, found?_notAhead]
  cases ((do keyword; notAhead wordChar : Matcher Unit) ⟨off, t⟩).found? with
  | none => exact (Takes.bind_fails (t := []) takes_here fun _ _ => (fails_charOf h).bind) off
  | some _ => rfl

/-! ## Literals -/

theorem digitValue_eq (cs : List Char) :
    Text.ofDigits (cs.map digitValue) = Nat.ofDigitChars 10 cs 0 := by
  rw [Nat.ofDigitChars_eq_foldl, Text.ofDigits, List.foldl_map]
  rfl

theorem exists_toDigits_eq (n : Nat) :
    ∃ c cs, Nat.toDigits 10 n = c :: cs ∧ ∀ d ∈ c :: cs, d.isDigit = true := by
  cases h : Nat.toDigits 10 n with
  | nil => exact absurd h Nat.toDigits_ne_nil
  | cons c cs =>
      refine ⟨c, cs, rfl, fun d hd => ?_⟩
      exact Nat.isDigit_of_mem_toDigits (n := n) (by decide) (by decide) (h ▸ hd)

theorem takes_digits {n : Nat} {rest : Text} (hrest : Text.leading Char.isDigit rest = [])
    (hn : (Nat.toDigits 10 n).length ≤ Text.maxDigits) (negative : Bool) :
    Takes (do
      let first ← charOf Char.isDigit
      let more ← runOf Char.isDigit
      return (⟨negative, (first :: more).map digitValue⟩ : Numeral))
      (Text.ofChars (Nat.toDigits 10 n)) rest
      fun k => k.negative = negative ∧ Text.ofDigits k.digits = n ∧ k.tooLong = false := by
  have hvalue := Nat.ofDigitChars_toDigits (b := 10) (n := n) (by decide) (by decide)
  obtain ⟨c, cs, hcs, hdigits⟩ := exists_toDigits_eq n
  rw [hcs] at hn hvalue ⊢
  rw [List.forall_mem_cons] at hdigits
  refine Takes.bind (t := [.scalar c]) (takes_charOf hdigits.1) ?_
  rintro _ rfl
  refine (takes_runOf hdigits.2 hrest).map ?_
  rintro _ rfl
  refine ⟨rfl, (digitValue_eq _).trans hvalue, ?_⟩
  simpa [Numeral.tooLong] using hn

theorem ofString_toString_nat (n : Nat) :
    Text.ofString (toString (Int.ofNat n)) = Text.ofChars (Nat.toDigits 10 n) :=
  Text.ofString_toString n

theorem ofString_toString_neg (n : Nat) :
    Text.ofString (toString (Int.negSucc n)) =
      Text.ofString "-" ++ Text.ofChars (Nat.toDigits 10 (n + 1)) := by
  rw [← ofString_toString_nat, Text.ofString, Text.ofString, Text.ofString, Text.ofChars,
    Text.ofChars, Text.ofChars, ← List.map_append, ← String.toList_append]
  rfl

/-- A literal starts with a minus sign or a digit. -/
theorem exists_first_literal (v : Int) :
    ∃ c t, Text.ofString (toString v) = .scalar c :: t ∧ (c = '-' ∨ c.isDigit = true) := by
  cases v with
  | ofNat n =>
      obtain ⟨c, cs, hcs, hdigits⟩ := exists_toDigits_eq n
      rw [ofString_toString_nat, hcs]
      exact ⟨c, Text.ofChars cs, rfl, .inr (hdigits c List.mem_cons_self)⟩
  | negSucc n =>
      rw [ofString_toString_neg]
      exact ⟨'-', _, rfl, .inl rfl⟩

theorem takes_no_sign {c : Char} (hc : c ≠ '-') (t : Text) :
    Takes (orElse (do token "-"; return true) (pure false)) [] (.scalar c :: t) (· = false) := by
  refine Fails.orElse_takes (t := []) (Fails.bind (fails_token ?_)) (takes_pure rfl)
  rintro ⟨u, hu⟩
  exact hc (CodePoint.scalar.inj (List.cons.inj hu).1).symm

/-- A literal of not too many digits is read as the integer that it was written from. -/
theorem takes_literal {v : Int} {rest : Text} (hrest : Text.leading Char.isDigit rest = [])
    (hv : (Nat.toDigits 10 v.natAbs).length ≤ Text.maxDigits) :
    Takes literal (Text.ofString (toString v)) rest fun k => k.value = v ∧ k.tooLong = false := by
  refine Takes.rule (Takes.step ?_)
  cases v with
  | ofNat n =>
      have hsign : Takes (orElse (do token "-"; return true) (pure false)) []
          (Text.ofChars (Nat.toDigits 10 n) ++ rest) (· = false) := by
        obtain ⟨c, cs, hcs, hdigits⟩ := exists_toDigits_eq n
        rw [hcs]
        refine takes_no_sign ?_ _
        rintro rfl
        cases hdigits '-' List.mem_cons_self
      rw [ofString_toString_nat]
      refine hsign.bind_nil ?_
      rintro _ rfl
      refine (takes_digits hrest hv false).imp fun k hk => ⟨?_, hk.2.2⟩
      rw [Numeral.value, hk.1, hk.2.1]
      rfl
  | negSucc n =>
      rw [ofString_toString_neg]
      refine Takes.bind (P := (· = true)) (Takes.orElse ?_) ?_
      · exact (takes_token _).map fun _ _ => rfl
      · rintro _ rfl
        refine (takes_digits hrest hv true).imp fun k hk => ⟨?_, hk.2.2⟩
        rw [Numeral.value, hk.1, hk.2.1]
        rfl

theorem not_isLetter_of_isDigit {c : Char} (h : c.isDigit = true) : isLetter c = false := by
  have hcodes : ∀ n ∈ List.range' '0'.toNat 10, isLetter (Char.ofNat n) = false := by decide
  have hmem : c.toNat ∈ List.range' '0'.toNat 10 := by
    have hc := Char.isDigit_iff_toNat.mp h
    exact List.mem_range'_1.mpr ⟨hc.1, Nat.lt_succ_of_le hc.2⟩
  have hc := hcodes c.toNat hmem
  rwa [Char.ofNat_toNat] at hc

theorem fails_literal {c : Char} (hc : isLetter c = true) (t : Text) :
    Fails literal (.scalar c :: t) := by
  have hdigit : c.isDigit = false := by
    rw [← Bool.not_eq_true]
    intro hd
    rw [not_isLetter_of_isDigit hd] at hc
    cases hc
  have hsign := takes_no_sign (c := c) (by rintro rfl; cases hc) t
  refine Fails.rule (Fails.step (Takes.bind_fails (t := []) hsign fun _ _ => ?_))
  exact Fails.bind (fails_charOf (by simp [Text.leading, hdigit]))

/-- A literal is no name. -/
theorem leading_isLetter_literal (v : Int) (rest : Text) :
    Text.leading isLetter (Text.ofString (toString v) ++ rest) = [] := by
  obtain ⟨c, t, ht, rfl | hc⟩ := exists_first_literal v
  · rw [ht]
    rfl
  · rw [ht]
    simp [Text.leading, not_isLetter_of_isDigit hc]

theorem solid_literal (v : Int) (rest : Text) : Solid (Text.ofString (toString v) ++ rest) := by
  obtain ⟨c, t, ht, rfl | hc⟩ := exists_first_literal v
  · rw [ht]
    rfl
  · rw [ht]
    exact solid_of_isWordChar (by simp [isWordChar, Char.isAlphanum, hc]) _

/-! ## Operands and operators -/

theorem IsName.takes_operand {t rest : Text} (h : IsName t) (hrest : EndsWord rest) :
    Takes operand t rest fun o => ∃ n, o = .name n ∧ n.text = t := by
  have hfails : Fails literal (t ++ rest) := by
    obtain ⟨⟨c, cs, rfl, hc, -⟩, -⟩ := h
    exact fails_literal hc _
  refine Takes.rule (Fails.orElse_takes hfails.bind ?_)
  exact (h.takes_name hrest).map fun n hn => ⟨n, rfl, hn⟩

theorem takes_operand_literal {v : Int} {rest : Text}
    (hrest : Text.leading Char.isDigit rest = [])
    (hv : (Nat.toDigits 10 v.natAbs).length ≤ Text.maxDigits) :
    Takes operand (Text.ofString (toString v)) rest fun o =>
      ∃ k, o = .literal k ∧ k.value = v ∧ k.tooLong = false :=
  Takes.rule (Takes.orElse ((takes_literal hrest hv).map fun k hk => ⟨k, rfl, hk⟩))

/-- Longer operators are tried first, so a blank after an operator keeps it from being taken for
another. -/
theorem takes_operator (op : Operator) (rest : Text) :
    Takes operator op.symbol (" " ++ rest) (· = op) := by
  intro off
  cases op <;> exact ⟨_, rfl, rfl⟩

theorem solid_operator (op : Operator) (rest : Text) : Solid (op.symbol ++ (" " ++ rest)) := by
  cases op <;> rfl

/-! ## Lists -/

theorem join_cons (separator t : Text) (ts : List Text) :
    Text.join separator (t :: ts) = t ++ (ts.map (separator ++ ·)).flatten := by
  induction ts generalizing t with
  | nil => simp [Text.join, List.intercalate]
  | cons u ts ih =>
      have hu := ih u
      simp only [Text.join, List.intercalate] at hu ⊢
      simp [List.intersperse, hu]

section

variable {α β : Type} {member : Matcher α} {R : β → α → Prop} {text : β → Text}

theorem takes_next {x : β} {more : Text} (hsolid : Solid (text x ++ more)) (hmore : Solid more)
    (hx : Takes member (text x) more (R x)) :
    Takes (next member) (", " ++ text x) more (R x) := by
  show Takes (next member) ("," ++ (" " ++ text x)) more (R x)
  refine Takes.bind (takes_token _) fun _ _ => ?_
  refine Takes.bind (takes_blanks (by decide) hsolid) fun _ _ => ?_
  rw [← List.append_nil (text x)]
  refine Takes.bind hx fun a ha => ?_
  exact (takes_no_blanks hmore).map fun _ _ => ha

section

variable {xs : List β} {rest : Text}
  (hmember : ∀ x ∈ xs, ∀ more, EndsWord more → Takes member (text x) more (R x))
  (hsolid : ∀ x ∈ xs, ∀ more, Solid (text x ++ more))
include hmember hsolid

theorem takes_commaList (hne : xs ≠ []) :
    Takes (commaList member) (Text.join ", " (xs.map text)) (")" ++ rest) (List.Forall₂ R xs) := by
  cases xs with
  | nil => exact absurd rfl hne
  | cons x xs =>
      rw [List.forall_mem_cons] at hmember hsolid
      -- What follows a member is a comma or the closing parenthesis.
      have hmore : List.Forall₂ (OneMore (fun t => EndsWord t ∧ Solid t) (next member) R) xs
          (xs.map ((Text.ofString ", " ++ ·) ∘ text)) := by
        rw [List.forall₂_map_right_iff, List.forall₂_same]
        intro y hy
        refine ⟨List.cons_ne_nil _ _, fun more => ⟨rfl, rfl⟩, fun more hgood => ?_⟩
        exact takes_next (hsolid.2 y hy more) hgood.2 (hmember.2 y hy more hgood.1)
      obtain ⟨hword, hgap⟩ : EndsWord (_ ++ (")" ++ rest)) ∧ Solid (_ ++ (")" ++ rest)) :=
        good_flatten hmore ⟨rfl, rfl⟩
      rw [List.map_cons, join_cons, List.map_map]
      refine Takes.rule (Takes.bind (hmember.1 _ hword) fun a ha => ?_)
      refine Takes.bind_nil (takes_no_blanks hgap) fun _ _ => ?_
      refine Takes.map (takes_many hmore ⟨rfl, rfl⟩ (.inr ?_)) fun as has => .cons ha has
      exact Fails.bind fun off => rfl

/-- Members between parentheses, with a comma and a blank between them. -/
theorem takes_parenList (hno : Fails member (")" ++ rest)) :
    Takes (parenList member) ("(" ++ (Text.join ", " (xs.map text) ++ ")")) rest
      (List.Forall₂ R xs) := by
  refine Takes.bind (takes_token _) fun _ _ => ?_
  cases xs with
  | nil =>
      show Takes _ (")" : Text) rest _
      refine Takes.bind_nil (takes_no_blanks rfl) fun _ _ => ?_
      refine Takes.bind_nil (Fails.optional (Fails.rule hno.bind)) ?_
      rintro _ rfl
      exact (takes_token _).map fun _ _ => .nil
  | cons x xs =>
      have hlist : Takes (commaList member) _ (")" ++ rest) (List.Forall₂ R (x :: xs)) :=
        takes_commaList hmember hsolid (List.cons_ne_nil x xs)
      have hgap : Solid ((Text.join ", " ((x :: xs).map text) ++ ")") ++ rest) := by
        rw [List.map_cons, join_cons, List.append_assoc, List.append_assoc]
        exact hsolid x List.mem_cons_self _
      refine Takes.bind_nil (takes_no_blanks hgap) fun _ _ => ?_
      refine Takes.bind (hlist.optional (by simp [Text.ofString, Text.ofChars])) ?_
      rintro _ ⟨as, rfl, has⟩
      exact (takes_token _).map fun _ _ => has

end

end

end ConstFlow.Source
