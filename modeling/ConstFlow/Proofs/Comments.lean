import ConstFlow.Proofs.MatchingTwoTexts
import ConstFlow.Proofs.PlacedTrees

/-!
# Comments are inert

Every rule of the grammar agrees with itself on a text with comments and the same text without them,
and finds the same tree in the same places. Names, numerals and the operators other than division
hold nothing that could be taken for a comment; division is looked for behind blanks. Since a
comment ends its line, what comes after one is on a later line, and so not even columns change.
-/

namespace ConstFlow

namespace Source

open Matcher

/-- Two trees, the first in a text and the second in the text without comments, that are the same
with places for offsets. -/
def InPlace {α : Type} (t : Text) (relocate : (Nat → Nat) → α → α) (a b : α) : Prop :=
  relocate (placeAt t) a = relocate (placeAt (uncomment false t)) b

section

variable {t : Text}

theorem InPlace.map {α : Type} {relocate : (Nat → Nat) → α → α} {as bs : List α}
    (h : List.Forall₂ (InPlace t relocate) as bs) :
    InPlace t (fun f => List.map (relocate f)) as bs := by
  induction h with
  | nil => rfl
  | cons hab _ ih => exact List.cons_eq_cons.mpr ⟨hab, ih⟩

/-! ## Words -/

theorem agree_wordChar : Agree t Eq wordChar wordChar := (agree_charOf (by decide)).rule

theorem agree_keyword : Agree t Eq keyword keyword := by
  refine Agree.rule (agree_oneOf fun p hp => ?_)
  obtain ⟨k, hk, rfl⟩ := List.mem_map.mp hp
  have hplain : ∀ k ∈ keywords, Plain k := by decide
  exact agree_token (hplain k hk)

theorem agree_name : Agree t (InPlace t Name.relocate) name name := by
  have hword : Agree t Eq (notAhead (do keyword; notAhead wordChar))
      (notAhead (do keyword; notAhead wordChar)) :=
    (agree_keyword.bind fun _ => agree_wordChar.notAhead).notAhead
  refine Agree.rule (hword.bind fun _ => ?_)
  -- Columns may differ at the end of the text, but there is no name there.
  refine agree_here_bind (fun _ => (fails_charOf rfl).bind) (fun _ => (fails_charOf rfl).bind) ?_
  intro o o' hline hcolumn
  refine (agree_charOf (by decide)).bind fun hfirst => ?_
  refine (agree_runOf (by decide)).map fun hmore => ?_
  subst hfirst hmore
  exact congrArg (Name.mk _) (congrArg₂ Nat.pair hline hcolumn)

theorem agree_literal : Agree t Eq literal literal := by
  have hsign : Agree t Eq (orElse (do token "-"; return true) (pure false))
      (orElse (do token "-"; return true) (pure false)) :=
    ((agree_token (by decide)).map fun _ => rfl).orElse (agree_pure rfl)
  refine Agree.rule (Agree.step (hsign.bind fun hnegative => ?_))
  refine (agree_charOf (by decide)).bind fun hfirst => ?_
  refine (agree_runOf (by decide)).map fun hmore => ?_
  rw [hnegative, hfirst, hmore]

theorem agree_operand : Agree t (InPlace t Operand.relocate) operand operand := by
  refine Agree.rule (Agree.orElse ?_ ?_)
  · exact agree_literal.map fun hn => congrArg Operand.literal hn
  · exact agree_name.map fun hn => congrArg Operand.name hn

theorem agreeAt_operator {c d : Cursor} (h : Corresponds t c d) (hsolid : Solid c.rest) :
    AgreeAt t Eq operator operator c d := by
  refine AgreeAt.rule (agreeAt_oneOf fun p hp => ?_)
  obtain ⟨op, -, rfl⟩ := List.mem_map.mp hp
  have htoken : AgreeAt t Eq (token op.symbol) (token op.symbol) c d := by
    by_cases hop : op = .div
    · subst hop
      exact agreeAt_slash h hsolid
    · have hplain : Plain op.symbol := by
        revert hop
        cases op <;> decide
      exact agree_token hplain h
  exact htoken.bind fun _ => agree_pure rfl

theorem agree_endOfText : Agree t Eq endOfText endOfText := by
  refine Agree.rule fun c d h => ?_
  have hfound : ∀ c : Cursor, (notAhead anything c).found? =
      if c.rest = [] then some ((), c) else none := by
    intro c
    cases hr : c.rest <;> simp [found?_notAhead, anything, hr]
  unfold AgreeAt
  rw [hfound, hfound]
  by_cases hc : c.rest = []
  · rw [if_pos hc, if_pos (h.isEmpty_iff.mp hc)]
    exact .stay h rfl
  · rw [if_neg hc, if_neg (h.isEmpty_iff.not.mp hc)]
    exact .neither

/-! ## Lists and right-hand sides -/

theorem agree_parenList {α : Type} {V : α → α → Prop} {member : Matcher α}
    (h : Agree t V member member) :
    Agree t (List.Forall₂ V) (parenList member) (parenList member) := by
  have hnext : Agree t V (next member) (next member) := by
    refine (agree_token (by decide)).bind fun _ => ?_
    refine agree_blanks.bind fun _ => ?_
    refine h.bind fun hv => ?_
    exact agree_blanks.map fun _ => hv
  have hlist : Agree t (List.Forall₂ V) (commaList member) (commaList member) := by
    refine Agree.rule (h.bind fun hfirst => ?_)
    refine agree_blanks.bind fun _ => ?_
    exact hnext.many.map fun hmore => .cons hfirst hmore
  refine (agree_token (by decide)).bind fun _ => ?_
  refine agree_blanks.bind fun _ => ?_
  refine hlist.optional.bind fun hmembers => ?_
  refine (agree_token (by decide)).map fun _ => ?_
  cases hmembers with
  | none => exact .nil
  | some hmembers => exact hmembers

theorem agree_call : Agree t (InPlace t Call.relocate) call call := by
  refine Agree.rule (agree_name.bind fun hcallee => ?_)
  refine agree_blanks.bind fun _ => ?_
  refine (agree_parenList agree_operand).map fun hargs => ?_
  exact (congrArg₂ Call.mk hcallee (InPlace.map hargs) :)

theorem agree_rhs : Agree t (InPlace t Rhs.relocate) rhs rhs := by
  have hbinary : Agree t (InPlace t Rhs.relocate) binary binary := by
    refine Agree.rule (agree_operand.bind fun hl => ?_)
    refine agree_blanks_bind fun c d h hsolid => ?_
    refine (agreeAt_operator h hsolid).bind fun hop => ?_
    refine agree_blanks.bind fun _ => ?_
    subst hop
    exact agree_operand.map fun hr => (congrArg₂ (Rhs.binary _) hl hr :)
  refine Agree.rule (agree_oneOf ?_)
  simp only [List.forall_mem_cons, List.not_mem_nil, false_imp_iff, implies_true, and_true]
  exact ⟨agree_call.map fun hc => congrArg Rhs.call hc, hbinary,
    agree_operand.map fun ho => congrArg Rhs.operand ho⟩

/-! ## Statements -/

theorem agree_returnStatement :
    Agree t (InPlace t Statement.relocate) returnStatement returnStatement := by
  refine Agree.rule ((agree_token (by decide)).bind fun _ => ?_)
  refine agree_wordChar.notAhead.bind fun _ => ?_
  refine (Agree.optional (agree_blanks.bind fun _ => agree_operand)).map fun hvalue => ?_
  cases hvalue with
  | none => rfl
  | some ho => exact congrArg (fun o => Statement.ret (some o)) ho

theorem agree_ifStatement :
    Agree t (InPlace t Statement.relocate) ifStatement ifStatement := by
  refine Agree.rule ((agree_token (by decide)).bind fun _ => ?_)
  refine agree_gap.bind fun _ => ?_
  refine agree_operand.bind fun hl => ?_
  refine agree_blanks_bind fun c d h hsolid => ?_
  refine (agreeAt_operator h hsolid).bind fun hop => ?_
  refine agree_blanks.bind fun _ => ?_
  refine agree_operand.bind fun hr => ?_
  refine agree_gap.bind fun _ => ?_
  refine (agree_token (by decide)).bind fun _ => ?_
  refine agree_gap.bind fun _ => ?_
  subst hop
  exact agree_name.map fun hlabel => (congr (congrArg₂ (Statement.branch _) hl hr) hlabel :)

theorem agree_gotoStatement :
    Agree t (InPlace t Statement.relocate) gotoStatement gotoStatement := by
  refine Agree.rule ((agree_token (by decide)).bind fun _ => ?_)
  refine agree_gap.bind fun _ => ?_
  exact agree_name.map fun hlabel => congrArg Statement.jump hlabel

theorem agree_nopStatement :
    Agree t (InPlace t Statement.relocate) nopStatement nopStatement := by
  refine Agree.rule ((agree_token (by decide)).bind fun _ => ?_)
  exact agree_wordChar.notAhead.map fun _ => rfl

theorem agree_assignment :
    Agree t (InPlace t Statement.relocate) assignment assignment := by
  refine Agree.rule (agree_name.bind fun htarget => ?_)
  refine agree_blanks.bind fun _ => ?_
  refine (agree_token (by decide)).bind fun _ => ?_
  refine (agree_token (by decide)).notAhead.bind fun _ => ?_
  refine agree_blanks.bind fun _ => ?_
  exact agree_rhs.map fun hrhs => (congrArg₂ Statement.assign htarget hrhs :)

theorem agree_statement : Agree t (InPlace t Statement.relocate) statement statement := by
  refine Agree.rule (Agree.bind (V := InPlace t Statement.relocate) ?_ fun hs => ?_)
  · refine agree_oneOf ?_
    simp only [List.forall_mem_cons, List.not_mem_nil, false_imp_iff, implies_true, and_true]
    exact ⟨agree_returnStatement, agree_ifStatement, agree_gotoStatement, agree_nopStatement,
      agree_assignment, agree_call.map fun hc => congrArg Statement.call hc⟩
  · refine agree_blanks.bind fun _ => ?_
    refine (agree_token (by decide)).bind fun _ => ?_
    exact agree_blanks.map fun _ => hs

/-! ## Methods -/

theorem agree_label : Agree t (InPlace t Name.relocate) label label := by
  refine Agree.rule (agree_name.bind fun hn => ?_)
  refine agree_blanks.bind fun _ => ?_
  refine (agree_token (by decide)).bind fun _ => ?_
  exact agree_blanks.map fun _ => hn

theorem agree_item : Agree t (InPlace t Item.relocate) item item := by
  refine Agree.rule (agree_label.many.bind fun hlabels => ?_)
  have hend : Fails statement [] := fun _ => rfl
  refine agree_here_bind (fun _ => hend.bind) (fun _ => hend.bind) ?_
  intro o o' hline hcolumn
  refine agree_statement.map fun hs => ?_
  have hplace := congrArg₂ Nat.pair hline hcolumn
  exact (congr (congrArg₂ Item.mk (InPlace.map hlabels) hplace) hs :)

theorem agree_decl : Agree t (InPlace t Decl.relocate) decl decl := by
  refine Agree.rule ((agree_token (by decide)).bind fun _ => ?_)
  refine agree_gap.bind fun _ => ?_
  refine agree_name.bind fun hn => ?_
  refine agree_blanks.bind fun _ => ?_
  refine (agree_parenList agree_name).bind fun hparams => ?_
  refine agree_blanks.bind fun _ => ?_
  refine (agree_token (by decide)).bind fun _ => ?_
  refine agree_blanks.bind fun _ => ?_
  refine agree_item.many.bind fun hitems => ?_
  refine (agree_token (by decide)).bind fun _ => ?_
  refine agree_blanks.map fun _ => ?_
  exact (congr (congrArg₂ Decl.mk hn (InPlace.map hparams)) (InPlace.map hitems) :)

theorem agree_program : Agree t (InPlace t fun f => List.map (Decl.relocate f))
    program program := by
  refine Agree.rule (agree_blanks.bind fun _ => ?_)
  refine agree_decl.many.bind fun hdecls => ?_
  exact agree_endOfText.map fun _ => InPlace.map hdecls

end

/-! ## Reading -/

/-- Whether a text was rejected for its syntax. -/
def ParseError.isSyntax : ParseError → Bool
  | .rejected ⟨.syntaxNear _, _, _, _⟩ => true
  | _ => false

theorem readDecls_uncomment (text : Text) :
    ((∃ o, readDecls text = .error o) ∧ ∃ o, readDecls (uncomment false text) = .error o) ∨
      ∃ ds es, readDecls text = .ok ds ∧ readDecls (uncomment false text) = .ok es ∧
        ds.map (Decl.relocate (placeAt text)) =
          es.map (Decl.relocate (placeAt (uncomment false text))) := by
  have hprogram := agree_program (Corresponds.start text)
  unfold AgreeAt at hprogram
  unfold readDecls
  generalize program (.start text) = reply at hprogram ⊢
  generalize program (.start (uncomment false text)) = reply' at hprogram ⊢
  obtain ⟨found, fs⟩ := reply
  obtain ⟨found', fs'⟩ := reply'
  cases hprogram with
  | neither => exact Or.inl ⟨⟨_, rfl⟩, ⟨_, rfl⟩⟩
  | both value => exact Or.inr ⟨_, _, rfl, rfl, value⟩

theorem exists_isSyntax {text : Text} {o : Nat} (h : readDecls text = .error o) (file : Text) :
    ∃ e, parse text file = .error e ∧ e.isSyntax = true := by
  simp only [parse, read, h]
  exact ⟨_, rfl, rfl⟩

/-- **Comments are inert.** With every comment replaced by a space, a text has a syntax error if it
had one, and is otherwise read as the same program, or rejected for the same reason at the same
place. -/
theorem parse_uncomment (text file : Text) :
    ((∃ e, parse text file = .error e ∧ e.isSyntax = true) ↔
      ∃ e, parse (uncomment false text) file = .error e ∧ e.isSyntax = true) ∧
    ((∀ e, parse text file = .error e → e.isSyntax = false) →
      parse text file = parse (uncomment false text) file) := by
  rcases readDecls_uncomment text with ⟨⟨o, ho⟩, ⟨o', ho'⟩⟩ | ⟨ds, es, hds, hes, h⟩
  · have hsyntax := exists_isSyntax ho file
    refine ⟨iff_of_true hsyntax (exists_isSyntax ho' file), fun hno => ?_⟩
    obtain ⟨e, he, htrue⟩ := hsyntax
    rw [hno e he] at htrue
    cases htrue
  · have hparse : parse text file = parse (uncomment false text) file :=
      congrArg Reading.result (read_eq file hds hes h)
    exact ⟨by rw [hparse], fun _ => hparse⟩

end Source

/-- Comments of both kinds, one in the middle of a division. -/
def Sample.remarked : Text :=
  "method main(a) \x7b # goto l;\n  l: a = 6 //#\n / 2;//\n l: return a;\n\x7d#"

/-- Without its comments, the text repeats its label in the same place. -/
theorem Source.parse_uncomment_sample :
    let e : ParseError := .rejected ⟨.duplicateLabel "l" "main", "main.ir", 4, some 2⟩
    uncomment false Sample.remarked =
        "method main(a) \x7b  \n  l: a = 6  \n / 2; \n l: return a;\n\x7d " ∧
      parse Sample.remarked "main.ir" = .error e ∧
      parse (uncomment false Sample.remarked) "main.ir" = .error e ∧
      ∃ e', parse (uncomment false "main # main") "main.ir" = .error e' ∧ e'.isSyntax = true := by
  intro e
  have herror : parse Sample.remarked "main.ir" = .error e := by
    have hread : (read Sample.remarked "main.ir").error? = some e := by decide +kernel
    rw [parse, Reading.result, hread]
  have hsyntax : ∃ e', parse "main # main" "main.ir" = .error e' ∧ e'.isSyntax = true :=
    exists_isSyntax (o := 0) (by decide +kernel) "main.ir"
  obtain ⟨-, hsame⟩ := parse_uncomment Sample.remarked "main.ir"
  refine ⟨by decide +kernel, herror, ?_, (parse_uncomment _ "main.ir").1.mp hsyntax⟩
  rw [← hsame, herror]
  intro e' he'
  obtain rfl := Except.error.inj (herror.symm.trans he')
  rfl

end ConstFlow
