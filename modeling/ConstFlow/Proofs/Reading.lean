import ConstFlow.Program.Text
import ConstFlow.Proofs.Words
import ConstFlow.Source.Lowering

/-!
# Reading statements

What the rules for statements take, when a statement is written by `Action.text`. The rules are
tried in a fixed order and a choice is never taken back, so for every kind of statement there are
two things to say: the rules before its own fail, and its own takes the text. The rules before fail
for one of three reasons.

- A keyword is at the front of a name, and the name goes on (`IsName.fails_keyword_rules`).
- The text starts with another keyword, which no name is.
- A name has been read, and what comes next is not what the rule goes on with: a label is followed
  by a colon, a target by an equals sign, a callee by a parenthesis and an operand of a binary
  operation by an operator.

Where the text at hand starts with characters that are known, that a rule fails there is a
computation, and the proof is `rfl`.
-/

namespace ConstFlow

open Source Source.Matcher

/-! ## What can be written -/

/-- A variable of a method, with a name that can be read. -/
def Var.Readable (method : Text) (x : Var) : Prop := x.method = method ∧ IsName x.name

/-- A statement of a method that can be read: its variables belong to the method, all names are
names of the grammar, and a literal has no more digits than are read. -/
def Action.Readable (method : Text) : Action → Prop
  | nop t => t = "nop"
  | literal x v => x.Readable method ∧ (Nat.toDigits 10 v.natAbs).length ≤ Text.maxDigits
  | copy x y => x.Readable method ∧ y.Readable method
  | binary x _ y z => x.Readable method ∧ y.Readable method ∧ z.Readable method
  | call f args r =>
    IsName f ∧ (∀ x ∈ args, x.Readable method) ∧ ∀ x ∈ r.toList, x.Readable method
  | ret r => ∀ x ∈ r.toList, x.Readable method
  | branch _ a b l => a.Readable method ∧ b.Readable method ∧ IsName l
  | jump l => IsName l

instance (method : Text) (x : Var) : Decidable (x.Readable method) :=
  inferInstanceAs (Decidable (_ ∧ _))

instance (method : Text) : DecidablePred (Action.Readable method)
  | .nop t => inferInstanceAs (Decidable (t = Text.ofString "nop"))
  | .literal .. | .copy .. => inferInstanceAs (Decidable (_ ∧ _))
  | .binary .. | .call .. | .branch .. => inferInstanceAs (Decidable (_ ∧ _ ∧ _))
  | .ret r => inferInstanceAs (Decidable (∀ x ∈ r.toList, x.Readable method))
  | .jump l => inferInstanceAs (Decidable (IsName l))

namespace Source

/-- A statement that is lowered to one action without a temporary, and whose literals can be
read. -/
structure Statement.StandsFor (method : Text) (a : Action) (s : Statement) : Prop where
  lowers : ∀ k, lowerStatement method k s = ([a], k)
  short : ∀ n ∈ s.numerals, n.tooLong = false

/-- An operand that names a variable. -/
def Operand.Names (method : Text) (x : Var) (o : Operand) : Prop :=
  ∃ n, o = .name n ∧ x = ⟨method, n.text⟩

variable {method rest : Text} {x y z : Var}

theorem takes_operand_var (hx : x.Readable method) (hrest : EndsWord rest) :
    Takes operand x.name rest (Operand.Names method x) := by
  obtain ⟨rfl, hname⟩ := hx
  refine (hname.takes_operand hrest).imp ?_
  rintro _ ⟨n, rfl, hn⟩
  exact ⟨n, rfl, by rw [hn]⟩

theorem spillAll_names {xs : List Var} {os : List Operand}
    (h : List.Forall₂ (Operand.Names method) xs os) (k : Nat) :
    spillAll method k os = ([], xs, k) := by
  induction h with
  | nil => rfl
  | cons hx _ ih =>
      obtain ⟨n, rfl, rfl⟩ := hx
      simp [spillAll, spill, ih]

theorem lowerCall_names {n : Name} {xs : List Var} {os : List Operand}
    (h : List.Forall₂ (Operand.Names method) xs os) (r : Option Var) (k : Nat) :
    lowerCall method k r ⟨n, os⟩ = ([.call n.text xs r], k) := by
  simp [lowerCall, spillAll_names h]

theorem numerals_names {xs : List Var} {os : List Operand}
    (h : List.Forall₂ (Operand.Names method) xs os) : os.flatMap Operand.numerals = [] := by
  induction h with
  | nil => rfl
  | cons hx _ ih =>
      obtain ⟨n, rfl, rfl⟩ := hx
      simpa [Operand.numerals] using ih

/-! ## Rules that fail on names -/

section

variable {t : Text} (h : IsName t) (hrest : EndsWord rest)
include h hrest

theorem IsName.fails_keyword_bind {β : Type} {k : Text} (hk : k ∈ keywords) {f : Unit → Matcher β}
    (hf : ∀ c v, isWordChar c = true → Fails (f ()) (.scalar c :: v)) :
    Fails (token k >>= f) (t ++ rest) := by
  by_cases hku : k <+: t ++ rest
  · obtain ⟨u, hu⟩ := hku
    obtain ⟨c, v, rfl, hc⟩ := h.of_keyword hrest hk hu.symm
    rw [← hu]
    exact (takes_token k).bind_fails fun _ _ => hf c v hc
  · exact (fails_token hku).bind

/-- No rule that starts with a keyword matches where a name stands. -/
theorem IsName.fails_keyword_rules :
    ∀ p ∈ [returnStatement, ifStatement, gotoStatement, nopStatement], Fails p (t ++ rest) := by
  have hword : ∀ {β : Type} (f : Unit → Matcher β) (c v), isWordChar c = true →
      Fails (notAhead wordChar >>= f) (.scalar c :: v) :=
    fun f c v hc => (takes_wordChar hc v).notAhead.bind
  have hgap : ∀ {β : Type} (f : Unit → Matcher β) (c v), isWordChar c = true →
      Fails (gap >>= f) (.scalar c :: v) :=
    fun f c v hc => (fails_gap (solid_of_isWordChar hc v)).bind
  simp only [List.forall_mem_cons, List.not_mem_nil, false_implies, implies_true, and_true]
  refine ⟨Fails.rule ?_, Fails.rule ?_, Fails.rule ?_, Fails.rule ?_⟩
  · exact h.fails_keyword_bind hrest (by decide) (hword _)
  · exact h.fails_keyword_bind hrest (by decide) (hgap _)
  · exact h.fails_keyword_bind hrest (by decide) (hgap _)
  · exact h.fails_keyword_bind hrest (by decide) (hword _)

end

/-- A name, perhaps a blank, and then not what is asked for. -/
theorem IsName.fails_name_bind {β : Type} {t : Text} (h : IsName t) (b u : Text) (hb : Blank b)
    (hword : EndsWord (b ++ u)) (hu : Solid u) {f : Name → Unit → Matcher β}
    (hf : ∀ n, Fails (f n ()) u) :
    Fails (do let n ← name; let v ← blanks; f n v) (t ++ (b ++ u)) :=
  (h.takes_name hword).bind_fails fun n _ => (takes_blanks hb hu).bind_fails fun _ _ => hf n

/-! ## Right-hand sides -/

/-- Two variables with an operator between them, and what is read after them. -/
theorem takes_operation {β : Type} {op : Operator} {u : Text}
    {f : Operand → Operator → Operand → Matcher β} {Q : β → Prop} (hy : y.Readable method)
    (hz : z.Readable method) (hword : EndsWord (u ++ rest))
    (hf : ∀ l r, l.Names method y → r.Names method z → Takes (f l op r) u rest Q) :
    Takes (do
      let l ← operand
      blanks
      let o ← operator
      blanks
      let r ← operand
      f l o r) (y.name ++ (" " ++ (op.symbol ++ (" " ++ (z.name ++ u))))) rest Q := by
  refine Takes.bind (takes_operand_var hy rfl) fun l hl => ?_
  refine Takes.bind (takes_blanks (by decide) (by cases op <;> rfl)) fun _ _ => ?_
  refine Takes.bind (takes_operator op _) ?_
  rintro _ rfl
  refine Takes.bind (takes_blanks (by decide) ?_) fun _ _ => ?_
  · rw [List.append_assoc]
    exact hz.2.solid
  · exact Takes.bind (takes_operand_var hz hword) fun r hr => hf l r hl hr

theorem takes_call {f : Text} {args : List Var} (hf : IsName f)
    (hargs : ∀ x ∈ args, x.Readable method) :
    Takes call (f ++ ("(" ++ (Text.join ", " (args.map Var.name) ++ ")"))) rest fun c =>
      c.callee.text = f ∧ List.Forall₂ (Operand.Names method) args c.args := by
  refine Takes.rule (Takes.bind (hf.takes_name rfl) fun n hn => ?_)
  refine Takes.bind_nil (takes_no_blanks rfl) fun _ _ => ?_
  refine (takes_parenList ?_ ?_ fun off => rfl).map fun os hos => ⟨hn, hos⟩
  · exact fun x hx more hmore => takes_operand_var (hargs x hx) hmore
  · exact fun x hx more => (hargs x hx).2.solid

/-! ## Assignments -/

section

variable {a : Action}

/-- What has to be read as the right-hand side for an assignment to do the work of `a`. -/
def Rhs.Completes (method : Text) (x : Var) (a : Action) (r : Rhs) : Prop :=
  ∀ n : Name, x = ⟨method, n.text⟩ → Statement.StandsFor method a (.assign n r)

theorem takes_assignment {t : Text} (hx : x.Readable method) (ht : Solid (t ++ rest))
    (hrhs : Takes rhs t rest (Rhs.Completes method x a)) :
    Takes assignment (x.name ++ (" = " ++ t)) rest (Statement.StandsFor method a) := by
  obtain ⟨rfl, hname⟩ := hx
  show Takes assignment (x.name ++ (" " ++ ("=" ++ (" " ++ t)))) rest _
  refine Takes.rule (Takes.bind (hname.takes_name rfl) fun n hn => ?_)
  refine Takes.bind (takes_blanks (by decide) rfl) fun _ _ => ?_
  refine Takes.bind (takes_token _) fun _ _ => ?_
  refine Takes.bind_nil (Fails.notAhead fun off => rfl) fun _ _ => ?_
  refine Takes.bind (takes_blanks (by decide) ht) fun _ _ => ?_
  exact hrhs.map fun r hr => hr n (by rw [hn])

/-- An operand that nothing follows is no binary operation. -/
theorem fails_binary {t : Text} {P : Operand → Prop} (h : Takes operand t (";" ++ rest) P) :
    Fails binary (t ++ (";" ++ rest)) := by
  have hgap : Takes blanks [] (";" ++ rest) fun _ => True := takes_no_blanks rfl
  refine Fails.rule (h.bind_fails fun _ _ => ?_)
  exact hgap.bind_fails fun _ _ => Fails.bind fun off => rfl

theorem takes_rhs_literal {v : Int} (hv : (Nat.toDigits 10 v.natAbs).length ≤ Text.maxDigits) :
    Takes rhs (Text.ofString (toString v)) (";" ++ rest)
      (Rhs.Completes method x (.literal x v)) := by
  have hoperand : Takes operand _ (";" ++ rest) _ := takes_operand_literal rfl hv
  have hcall : Fails call (Text.ofString (toString v) ++ (";" ++ rest)) :=
    Fails.rule (fails_name (leading_isLetter_literal v _)).bind
  refine Takes.rule (takes_oneOf [_, _] ?_ (hoperand.map ?_))
  · rw [List.forall_mem_cons, List.forall_mem_singleton]
    exact ⟨hcall.bind, fails_binary hoperand⟩
  · rintro _ ⟨k, rfl, rfl, hk⟩ n rfl
    exact ⟨fun _ => rfl, by simpa [Statement.numerals, Rhs.numerals, Operand.numerals] using hk⟩

theorem takes_rhs_var (hy : y.Readable method) :
    Takes rhs y.name (";" ++ rest) (Rhs.Completes method x (.copy x y)) := by
  have hoperand : Takes operand _ (";" ++ rest) _ := takes_operand_var hy rfl
  have hcall : Fails call (y.name ++ (";" ++ rest)) :=
    Fails.rule (hy.2.fails_name_bind [] (";" ++ rest) (by decide) rfl rfl fun n =>
      Fails.bind (Fails.bind fun off => rfl))
  refine Takes.rule (takes_oneOf [_, _] ?_ (hoperand.map ?_))
  · rw [List.forall_mem_cons, List.forall_mem_singleton]
    exact ⟨hcall.bind, fails_binary hoperand⟩
  · rintro _ ⟨m, rfl, rfl⟩ n rfl
    exact ⟨fun _ => rfl, by simp [Statement.numerals, Rhs.numerals, Operand.numerals]⟩

theorem takes_rhs_binary {op : Operator} (hy : y.Readable method) (hz : z.Readable method) :
    Takes rhs (y.name ++ (" " ++ (op.symbol ++ (" " ++ z.name)))) (";" ++ rest)
      (Rhs.Completes method x (.binary x op y z)) := by
  have hcall : Fails call
      ((y.name ++ (" " ++ (op.symbol ++ (" " ++ z.name)))) ++ (";" ++ rest)) := by
    simp only [List.append_assoc]
    refine Fails.rule (hy.2.fails_name_bind " " _ (by decide) rfl (solid_operator op _) fun n => ?_)
    exact Fails.bind (Fails.bind fun off => by cases op <;> rfl)
  refine Takes.rule (takes_oneOf [_] (List.forall_mem_singleton.mpr hcall.bind) (Takes.rule ?_))
  rw [← List.append_nil z.name]
  refine takes_operation hy hz rfl ?_
  rintro _ _ ⟨l, rfl, rfl⟩ ⟨r, rfl, rfl⟩
  refine takes_pure ?_
  rintro n rfl
  exact ⟨fun _ => rfl, by simp [Statement.numerals, Rhs.numerals, Operand.numerals]⟩

theorem takes_rhs_call {f : Text} {args : List Var} (hf : IsName f)
    (hargs : ∀ x ∈ args, x.Readable method) :
    Takes rhs (f ++ ("(" ++ (Text.join ", " (args.map Var.name) ++ ")"))) rest
      (Rhs.Completes method x (.call f args (some x))) := by
  refine Takes.rule (Takes.orElse ((takes_call hf hargs).map ?_))
  rintro ⟨m, os⟩ ⟨rfl, hos⟩ n rfl
  refine ⟨lowerCall_names hos _, ?_⟩
  simp [Statement.numerals, Rhs.numerals, Call.numerals, numerals_names hos]

/-! ## Statements -/

/-- The text of a statement starts with something solid. -/
theorem solid_text (ha : a.Readable method) : Solid (a.text ++ rest) := by
  cases a with
  | nop t =>
      obtain rfl : t = "nop" := ha
      rfl
  | literal x v | copy x y | binary x op y z =>
      simp only [Action.text, List.append_assoc]
      exact ha.1.2.solid
  | call f args r =>
      cases r with
      | none =>
          simp only [Action.text, List.append_assoc]
          exact ha.1.solid
      | some x =>
          simp only [Action.text, List.append_assoc]
          exact (ha.2.2 x (by simp)).2.solid
  | ret r => cases r <;> rfl
  | branch | jump => rfl

/-- The rules for statements, in the order in which they are tried. -/
def statementRules : List (Matcher Statement) :=
  [returnStatement, ifStatement, gotoStatement, nopStatement, assignment,
    do return .call (← call)]

theorem takes_return {r : Option Var} (hr : ∀ x ∈ r.toList, x.Readable method) :
    Takes returnStatement (Action.ret r).text (";" ++ rest)
      (Statement.StandsFor method (.ret r)) := by
  cases r with
  | none =>
      have hno : Fails (do blanks; operand) (";" ++ rest) := fun off => rfl
      show Takes returnStatement (Text.ofString "return" ++ []) (";" ++ rest) _
      refine Takes.rule (Takes.bind (takes_token _) fun _ _ => ?_)
      refine Takes.bind_nil (Fails.notAhead (fails_wordChar rfl)) fun _ _ => ?_
      refine hno.optional.map ?_
      rintro _ rfl
      exact ⟨fun _ => rfl, by simp [Statement.numerals]⟩
  | some x =>
      have hx : x.Readable method := hr x (by simp)
      show Takes returnStatement ("return" ++ (" " ++ x.name)) (";" ++ rest) _
      refine Takes.rule (Takes.bind (takes_token _) fun _ _ => ?_)
      refine Takes.bind_nil (Fails.notAhead (fails_wordChar rfl)) fun _ _ => ?_
      have hvalue : Takes (do blanks; operand) (" " ++ x.name) (";" ++ rest)
          (Operand.Names method x) :=
        Takes.bind (takes_blanks (by decide) hx.2.solid) fun _ _ => takes_operand_var hx rfl
      refine (hvalue.optional (List.cons_ne_nil _ _)).map ?_
      rintro _ ⟨_, rfl, n, rfl, rfl⟩
      exact ⟨fun _ => rfl, by simp [Statement.numerals, Operand.numerals]⟩

theorem takes_jump {β : Type} {l : Text} {g : Name → β} {Q : β → Prop} (hl : IsName l)
    (hg : ∀ n : Name, n.text = l → Q (g n)) :
    Takes (do
      token "goto"
      gap
      let n ← name
      return g n) ("goto" ++ (" " ++ l)) (";" ++ rest) Q := by
  have hname : Takes name l (";" ++ rest) fun n => n.text = l := hl.takes_name rfl
  refine Takes.bind (takes_token _) fun _ _ => ?_
  refine Takes.bind (takes_gap (by decide) (List.cons_ne_nil _ _) hl.solid) fun _ _ => ?_
  exact hname.map hg

theorem takes_goto {l : Text} (hl : IsName l) :
    Takes gotoStatement (Action.jump l).text (";" ++ rest)
      (Statement.StandsFor method (.jump l)) := by
  refine Takes.rule (takes_jump hl ?_)
  rintro n rfl
  exact ⟨fun _ => rfl, by simp [Statement.numerals]⟩

theorem takes_if {op : Operator} {l : Text} (hy : y.Readable method) (hz : z.Readable method)
    (hl : IsName l) :
    Takes ifStatement (Action.branch op y z l).text (";" ++ rest)
      (Statement.StandsFor method (.branch op y z l)) := by
  simp only [Action.text, List.append_assoc]
  show Takes ifStatement ("if" ++ (" " ++ (y.name ++ (" " ++ (op.symbol ++ (" " ++ (z.name ++
    (" " ++ ("goto" ++ (" " ++ l)))))))))) (";" ++ rest) _
  refine Takes.rule (Takes.bind (takes_token _) fun _ _ => ?_)
  refine Takes.bind (takes_gap (by decide) (List.cons_ne_nil _ _) ?_) fun _ _ => ?_
  · simp only [List.append_assoc]
    exact hy.2.solid
  refine takes_operation hy hz rfl ?_
  rintro _ _ ⟨m, rfl, rfl⟩ ⟨n, rfl, rfl⟩
  refine Takes.bind (takes_gap (by decide) (List.cons_ne_nil _ _) rfl) fun _ _ => ?_
  refine takes_jump hl ?_
  rintro n rfl
  exact ⟨fun _ => rfl, by simp [Statement.numerals, Operand.numerals]⟩

theorem takes_nop : Takes nopStatement (Action.nop "nop").text (";" ++ rest)
    (Statement.StandsFor method (.nop "nop")) := by
  show Takes nopStatement (Text.ofString "nop" ++ []) (";" ++ rest) _
  refine Takes.rule (Takes.bind (takes_token _) fun _ _ => ?_)
  refine Takes.map (Fails.notAhead (fails_wordChar rfl)) fun _ _ => ?_
  exact ⟨fun _ => rfl, by simp [Statement.numerals]⟩

theorem takes_assigning {t : Text} (hx : x.Readable method) (ht : Solid (t ++ rest))
    (hrhs : Takes rhs t rest (Rhs.Completes method x a)) :
    Takes (oneOf statementRules) (x.name ++ (" = " ++ t)) rest
      (Statement.StandsFor method a) := by
  refine takes_oneOf [_, _, _, _] ?_ (takes_assignment hx ht hrhs)
  rw [List.append_assoc]
  exact hx.2.fails_keyword_rules rfl

theorem takes_calling {f : Text} {args : List Var} (hf : IsName f)
    (hargs : ∀ x ∈ args, x.Readable method) :
    Takes (oneOf statementRules) (f ++ ("(" ++ (Text.join ", " (args.map Var.name) ++ ")"))) rest
      (Statement.StandsFor method (.call f args none)) := by
  have hassign : Fails assignment
      ((f ++ ("(" ++ (Text.join ", " (args.map Var.name) ++ ")"))) ++ rest) := by
    rw [List.append_assoc, List.append_assoc]
    refine Fails.rule (hf.fails_name_bind [] ("(" ++ _) (by decide) rfl rfl fun n => ?_)
    exact Fails.bind fun off => rfl
  refine takes_oneOf ([_, _, _, _] ++ [_]) ?_ ((takes_call hf hargs).map ?_)
  · rw [List.forall_mem_append]
    refine ⟨?_, List.forall_mem_singleton.mpr hassign⟩
    rw [List.append_assoc]
    exact hf.fails_keyword_rules rfl
  · rintro ⟨m, os⟩ ⟨rfl, hos⟩
    refine ⟨lowerCall_names hos _, ?_⟩
    simp [Statement.numerals, Call.numerals, numerals_names hos]

/-- A statement is read as itself. -/
theorem takes_action (ha : a.Readable method) :
    Takes (oneOf statementRules) a.text (";" ++ rest) (Statement.StandsFor method a) := by
  cases a with
  | nop t =>
      obtain rfl : t = "nop" := ha
      refine takes_oneOf [_, _, _] ?_ takes_nop
      simp only [List.forall_mem_cons, List.not_mem_nil, false_implies, implies_true, and_true]
      refine ⟨?_, ?_, ?_⟩ <;> exact Fails.rule (Fails.bind fun off => rfl)
  | literal x v =>
      rw [Action.text, List.append_assoc]
      exact takes_assigning ha.1 (solid_literal v _) (takes_rhs_literal ha.2)
  | copy x y =>
      rw [Action.text, List.append_assoc]
      exact takes_assigning ha.1 ha.2.2.solid (takes_rhs_var ha.2)
  | binary x op y z =>
      simp only [Action.text, List.append_assoc]
      refine takes_assigning ha.1 ?_ (takes_rhs_binary ha.2.1 ha.2.2)
      rw [List.append_assoc]
      exact ha.2.1.2.solid
  | call f args r =>
      cases r with
      | none =>
          simp only [Action.text, List.append_assoc]
          exact takes_calling ha.1 ha.2.1
      | some x =>
          simp only [Action.text, List.append_assoc]
          refine takes_assigning (ha.2.2 x (by simp)) ?_ (takes_rhs_call ha.1 ha.2.1)
          rw [List.append_assoc]
          exact ha.1.solid
  | ret r => exact takes_oneOf [] (by simp) (takes_return ha)
  | branch op y z l =>
      refine takes_oneOf [_] ?_ (takes_if ha.1 ha.2.1 ha.2.2)
      refine List.forall_mem_singleton.mpr (Fails.rule (Fails.bind fun off => rfl))
  | jump l =>
      refine takes_oneOf [_, _] ?_ (takes_goto ha)
      simp only [List.forall_mem_cons, List.not_mem_nil, false_implies, implies_true, and_true]
      refine ⟨?_, ?_⟩ <;> exact Fails.rule (Fails.bind fun off => rfl)

theorem takes_statement {b : Text} (ha : a.Readable method) (hb : Blank b) (hrest : Solid rest) :
    Takes statement (a.text ++ (";" ++ b)) rest (Statement.StandsFor method a) := by
  refine Takes.rule (Takes.bind (takes_action ha) fun s hs => ?_)
  refine Takes.bind_nil (takes_no_blanks rfl) fun _ _ => ?_
  refine Takes.bind (takes_token _) fun _ _ => ?_
  exact (takes_blanks hb hrest).map fun _ _ => hs

/-! ## Labels -/

theorem takes_label {l : Text} (hl : IsName l) (hrest : Solid rest) :
    Takes label (l ++ ": ") rest fun n => n.text = l := by
  show Takes label (l ++ (":" ++ Text.ofString " ")) rest _
  refine Takes.rule (Takes.bind (hl.takes_name rfl) fun n hn => ?_)
  refine Takes.bind_nil (takes_no_blanks rfl) fun _ _ => ?_
  refine Takes.bind (takes_token _) fun _ _ => ?_
  exact (takes_blanks (by decide) hrest).map fun _ _ => hn

/-- A statement is not mistaken for a label. -/
theorem fails_label (ha : a.Readable method) : Fails label (a.text ++ (";" ++ rest)) := by
  have htarget : ∀ {x : Var} {t : Text}, x.Readable method → Fails label (x.name ++ (" = " ++ t)) :=
    fun hx => Fails.rule (hx.2.fails_name_bind " " ("= " ++ _) (by decide) rfl rfl fun n =>
      Fails.bind fun off => rfl)
  cases a with
  | nop t =>
      obtain rfl : t = "nop" := ha
      exact Fails.rule (Fails.bind (fails_name_of_keyword (k := "nop") (by decide) rfl))
  | literal x v | copy x y | binary x op y z =>
      simp only [Action.text, List.append_assoc]
      exact htarget ha.1
  | call f args r =>
      cases r with
      | none =>
          simp only [Action.text, List.append_assoc]
          exact Fails.rule (ha.1.fails_name_bind [] ("(" ++ _) (by decide) rfl rfl fun n =>
            Fails.bind fun off => rfl)
      | some x =>
          simp only [Action.text, List.append_assoc]
          exact htarget (ha.2.2 x (by simp))
  | ret r =>
      cases r <;>
        exact Fails.rule (Fails.bind (fails_name_of_keyword (k := "return") (by decide) rfl))
  | branch op y z l =>
      simp only [Action.text, List.append_assoc]
      exact Fails.rule (Fails.bind (fails_name_of_keyword (k := "if") (by decide) rfl))
  | jump l => exact Fails.rule (Fails.bind (fails_name_of_keyword (k := "goto") (by decide) rfl))

end

end Source

end ConstFlow
