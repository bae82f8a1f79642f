import ConstFlow.Proofs.LoweredMethods

/-!
# Why methods are refused

A text that the grammar matches, with no literal that is too long, is refused only for what one of
its methods says: a parameter or a label that is repeated, a jump to a label that the method does
not have, or the name of an earlier method. `Decl.Offends` is that condition on a method and those
before it, `Decl.RefusedFor` the rejection that it leads to. Reading stops at the first method that
offends; the statements here say that it stops there with that rejection, and nowhere else.
-/

namespace ConstFlow.Source

/-! ## What is wrong with a method -/

/-- The label that a statement may jump to. -/
def Statement.jumpLabel? : Statement → Option Name
  | .jump l => some l
  | .branch _ _ _ l => some l
  | _ => none

namespace Decl

/-- The labels of a method, in the order in which they are written. -/
def labels (d : Decl) : List Name := d.items.flatMap Item.labels

/-- The label names that a method has, anywhere in it. -/
def labelTexts (d : Decl) : List Text := d.labels.map Name.text

end Decl

/-- The first of some names that repeats an earlier one. -/
def FirstRepeat (ns : List Name) (n : Name) : Prop :=
  ∃ before after, ns = before ++ n :: after ∧ (before.map Name.text).Nodup ∧
    n.text ∈ before.map Name.text

namespace Decl

/-- An item of a method jumps to a label that the method does not have. -/
def Strays (d : Decl) (i : Item) (l : Name) : Prop :=
  i.statement.jumpLabel? = some l ∧ l.text ∉ d.labelTexts

/-- The first item of a method that jumps to a label that it does not have. -/
def FirstStray (d : Decl) (i : Item) (l : Name) : Prop :=
  ∃ before after, d.items = before ++ i :: after ∧ d.Strays i l ∧
    ∀ j ∈ before, ∀ k, ¬ d.Strays j k

/-- A method that cannot follow the methods before it. -/
def Offends (earlier : List Decl) (d : Decl) : Prop :=
  ¬ (d.params.map Name.text).Nodup ∨ ¬ d.labelTexts.Nodup ∨ (∃ i ∈ d.items, ∃ l, d.Strays i l) ∨
    d.name.text ∈ earlier.map fun e => e.name.text

/-- The rejection of a method that offends. A repeated name is complained about where it is
repeated, a jump only by its line. What comes first in this order is complained about. -/
inductive RefusedFor (text file : Text) (earlier : List Decl) (d : Decl) : Rejection → Prop where
  | parameter {n : Name} (first : FirstRepeat d.params n) :
      RefusedFor text file earlier d
        ⟨.duplicateParameter n.text d.name.text, file, Text.lineAt text n.offset,
          some (Text.columnAt text n.offset)⟩
  | label {n : Name} (params : (d.params.map Name.text).Nodup) (first : FirstRepeat d.labels n) :
      RefusedFor text file earlier d
        ⟨.duplicateLabel n.text d.name.text, file, Text.lineAt text n.offset,
          some (Text.columnAt text n.offset)⟩
  | jump {i : Item} {l : Name} (params : (d.params.map Name.text).Nodup)
      (labels : d.labelTexts.Nodup) (first : d.FirstStray i l) :
      RefusedFor text file earlier d
        ⟨.undefinedLabel l.text d.name.text, file, Text.lineAt text i.offset, none⟩
  | name (params : (d.params.map Name.text).Nodup) (labels : d.labelTexts.Nodup)
      (jumps : ∀ i ∈ d.items, ∀ l, ¬ d.Strays i l)
      (taken : d.name.text ∈ earlier.map fun e => e.name.text) :
      RefusedFor text file earlier d
        ⟨.duplicateMethod d.name.text, file, Text.lineAt text d.name.offset,
          some (Text.columnAt text d.name.offset)⟩

end Decl

/-! ## Repeated names -/

/-- What was seen when the search stops is what it started with and the names in front. -/
theorem firstRepeat_eq_some_iff {ns : List Name} {n : Name} {seen : List Text}
    (hseen : seen.Nodup) :
    firstRepeat seen ns = some n ↔
      ∃ before after, ns = before ++ n :: after ∧
        ((before.map Name.text).reverse ++ seen).Nodup ∧
        n.text ∈ (before.map Name.text).reverse ++ seen := by
  induction ns generalizing seen with
  | nil => simp [firstRepeat]
  | cons m ns ih =>
      -- A name that is passed can be counted to those in front or to those seen.
      have hpass : ∀ before : List Name, ((m :: before).map Name.text).reverse ++ seen =
          (before.map Name.text).reverse ++ m.text :: seen := by simp
      rw [firstRepeat]
      split
      · rename_i hm
        constructor
        · rintro ⟨⟩
          exact ⟨[], ns, rfl, hseen, hm⟩
        · rintro ⟨before, after, hns, hnodup, -⟩
          cases before with
          | nil => rw [(List.cons.inj hns).1]
          | cons b before =>
              obtain ⟨rfl, -⟩ := List.cons.inj hns
              rw [hpass] at hnodup
              exact absurd hm (List.nodup_cons.mp (List.nodup_append.mp hnodup).2.1).1
      · rename_i hm
        rw [ih (List.nodup_cons.mpr ⟨hm, hseen⟩)]
        constructor
        · rintro ⟨before, after, rfl, hbefore⟩
          exact ⟨m :: before, after, rfl, by rwa [hpass]⟩
        · rintro ⟨before, after, hns, hbefore⟩
          cases before with
          | nil =>
              obtain ⟨rfl, -⟩ := List.cons.inj hns
              exact absurd hbefore.2 hm
          | cons b before =>
              obtain ⟨rfl, rfl⟩ := List.cons.inj hns
              rw [hpass] at hbefore
              exact ⟨before, after, rfl, hbefore⟩

theorem firstRepeat_nil_eq_some_iff {ns : List Name} {n : Name} :
    firstRepeat [] ns = some n ↔ FirstRepeat ns n := by
  simp [firstRepeat_eq_some_iff List.nodup_nil, FirstRepeat]

theorem firstRepeat_nil_eq_none_iff {ns : List Name} :
    firstRepeat [] ns = none ↔ (ns.map Name.text).Nodup := by
  refine ⟨fun h => (nodup_of_firstRepeat h).1, fun h => ?_⟩
  rw [Option.eq_none_iff_forall_ne_some]
  intro n hn
  obtain ⟨before, after, rfl, -, hmem⟩ := firstRepeat_nil_eq_some_iff.mp hn
  rw [List.map_append, List.nodup_append] at h
  exact h.2.2 _ hmem _ List.mem_cons_self rfl

/-! ## Jumps -/

section

variable {labels : List Text} {text method : Text}

/-- The complaint about an item whose label is not there. -/
def Item.stray? (text : Text) (labels : List Text) (i : Item) : Option (Text × Int) :=
  (i.statement.jumpLabel?.filter fun l => l.text ∉ labels).map fun l =>
    (l.text, (Text.lineAt text i.offset : Int))

theorem Item.stray?_eq_some_iff {i : Item} {found : Text × Int} :
    i.stray? text labels = some found ↔ ∃ l, i.statement.jumpLabel? = some l ∧
      l.text ∉ labels ∧ found = (l.text, (Text.lineAt text i.offset : Int)) := by
  rw [stray?, Option.map_eq_some_iff]
  refine exists_congr fun l => ?_
  rw [Option.filter_eq_some_iff, decide_eq_true_eq, and_assoc, eq_comm (a := found)]

theorem Item.stray?_eq_none_iff {i : Item} : i.stray? text labels = none ↔
    ∀ l, i.statement.jumpLabel? = some l → l.text ∈ labels := by
  simp [stray?, Option.map_eq_none_iff, Option.filter_eq_none_iff]

/-- The complaint about an instruction whose label is not there. -/
def unmet? (labels : List Text) (i : Instr) : Option (Text × Int) :=
  (i.action.jumpLabel?.filter fun l => l ∉ labels).map fun l => (l, i.line)

theorem firstUndefined_eq (labels : List Text) (body : List Stmt) :
    firstUndefined labels body = (body.map Stmt.instr).findSome? (unmet? labels) := by
  induction body with
  | nil => rfl
  | cons s body ih =>
      rw [firstUndefined, List.map_cons, List.findSome?_cons, unmet?,
        show s.instr.action = s.action from rfl, ih]
      cases s.action.jumpLabel? with
      | none => rfl
      | some l =>
          by_cases hl : l ∈ labels <;> simp [Stmt.instr, Option.filter, hl]

/-- What does the work of a statement jumps where the statement does. -/
theorem Statement.Reads.jumpLabel?_eq {s : Statement} {xs : List Var} {a : Action}
    (h : s.Reads method xs a) : a.jumpLabel? = s.jumpLabel?.map Name.text := by
  cases h <;> rfl

theorem findSome?_lowerStatement (k : Nat) (i : Item) :
    ((lowerStatement method k i.statement).1.map
      (⟨Text.lineAt text i.offset, ·⟩)).findSome? (unmet? labels) = i.stray? text labels := by
  obtain ⟨last, hreads, hlower⟩ := exists_lowerStatement method k i.statement
  -- assignments of literals jump nowhere
  have hspilled : ((spillAll method k i.statement.operands).1.map
      (⟨Text.lineAt text i.offset, ·⟩)).findSome? (unmet? labels) = none := by
    rw [spillAll_actions, List.map_map, List.findSome?_eq_none_iff]
    intro r hr
    obtain ⟨n, -, rfl⟩ := List.mem_map.mp hr
    rfl
  rw [hlower, List.map_append, List.findSome?_append, hspilled, Option.none_or,
    List.map_singleton, List.findSome?_singleton, unmet?, hreads.jumpLabel?_eq, Item.stray?]
  cases i.statement.jumpLabel? with
  | none => rfl
  | some l => by_cases hl : l.text ∈ labels <;> simp [hl, Option.filter]

theorem findSome?_lowerItems (items : List Item) (k : Nat) :
    (lowerItems text method k items).flatten.findSome? (unmet? labels) =
      items.findSome? (Item.stray? text labels) := by
  induction items generalizing k with
  | nil => rfl
  | cons i items ih =>
      rw [lowerItems, List.flatten_cons, List.findSome?_append, ih, findSome?_lowerStatement,
        List.findSome?_cons]
      cases i.stray? text labels <;> rfl

end

namespace Decl

variable {text file : Text} {d : Decl}

theorem keys_labels (text : Text) (h : d.labelTexts.Nodup) :
    (d.method text).labels.keys = d.labelTexts := by
  rw [Assoc.keys, d.entries_labels text h]
  exact map_fst_labelPositions (d.lowersTo_blocks text).length_eq

theorem firstUndefined_method (text : Text) (h : d.labelTexts.Nodup) :
    firstUndefined (d.method text).labels.keys (d.method text).body =
      d.items.findSome? (Item.stray? text d.labelTexts) := by
  rw [keys_labels text h, firstUndefined_eq, d.map_instr_body text]
  exact findSome?_lowerItems d.items 0

/-! ## Refusals -/

/-- The checks of a method that follows others, one after another: what is wrong with it by itself,
and then its name. -/
def refusal? (text file : Text) (earlier : List Decl) (d : Decl) : Option Rejection :=
  ((firstRepeat [] d.params).map fun n =>
    complainAt text file n.offset (.duplicateParameter n.text d.name.text)).or <|
  ((firstRepeat [] d.labels).map fun n =>
    complainAt text file n.offset (.duplicateLabel n.text d.name.text)).or <|
  ((d.items.findSome? (Item.stray? text d.labelTexts)).map fun found =>
    ⟨.undefinedLabel found.1 d.name.text, file, found.2, none⟩).or <|
  if d.name.text ∈ earlier.map fun e => e.name.text then
    some (complainAt text file d.name.offset (.duplicateMethod d.name.text))
  else none

theorem refusal?_eq (text file : Text) (earlier : List Decl) (d : Decl) :
    d.refusal? text file earlier = (d.fault? text file).or
      (if d.name.text ∈ earlier.map fun e => e.name.text then
        some (complainAt text file d.name.offset (.duplicateMethod d.name.text))
      else none) := by
  unfold refusal? fault?
  cases firstRepeat [] d.params with
  | some n => rfl
  | none =>
      cases hlabels : firstRepeat [] d.labels with
      | some n =>
          rw [show firstRepeat [] (d.items.flatMap Item.labels) = _ from hlabels]
          rfl
      | none =>
          -- The labels of the method are those of the text only if none is repeated.
          have hnodup : d.labelTexts.Nodup := firstRepeat_nil_eq_none_iff.mp hlabels
          rw [show firstRepeat [] (d.items.flatMap Item.labels) = _ from hlabels]
          simp only [firstUndefined_method text hnodup, Option.map_none, Option.none_or]
          cases d.items.findSome? (Item.stray? text d.labelTexts) <;> rfl

section

variable {earlier : List Decl}

theorem findSome?_stray?_eq_none_iff :
    d.items.findSome? (Item.stray? text d.labelTexts) = none ↔
      ∀ i ∈ d.items, ∀ l, ¬ d.Strays i l := by
  rw [List.findSome?_eq_none_iff]
  refine forall₂_congr fun i _ => ?_
  simp [Item.stray?_eq_none_iff, Strays]

theorem findSome?_stray?_eq_some_iff {found : Text × Int} :
    d.items.findSome? (Item.stray? text d.labelTexts) = some found ↔
      ∃ i l, d.FirstStray i l ∧ found = (l.text, (Text.lineAt text i.offset : Int)) := by
  rw [List.findSome?_eq_some_iff]
  constructor
  · rintro ⟨before, i, after, hitems, hi, hbefore⟩
    obtain ⟨l, hl, hundefined, rfl⟩ := Item.stray?_eq_some_iff.mp hi
    refine ⟨i, l, ⟨before, after, hitems, ⟨hl, hundefined⟩, fun j hj k hk => ?_⟩, rfl⟩
    exact hk.2 (Item.stray?_eq_none_iff.mp (hbefore j hj) k hk.1)
  · rintro ⟨i, l, ⟨before, after, hitems, hl, hbefore⟩, rfl⟩
    refine ⟨before, i, after, hitems, Item.stray?_eq_some_iff.mpr ⟨l, hl.1, hl.2, rfl⟩,
      fun j hj => Item.stray?_eq_none_iff.mpr fun k hk => ?_⟩
    exact of_not_not fun hundefined => hbefore j hj k ⟨hk, hundefined⟩

/-- The checks refuse a method for what is wrong with it. -/
theorem refusal?_eq_some_iff {r : Rejection} :
    d.refusal? text file earlier = some r ↔ d.RefusedFor text file earlier r := by
  simp only [refusal?, Option.or_eq_some_iff, Option.map_eq_some_iff, Option.map_eq_none_iff]
  constructor
  · rintro (⟨n, hn, rfl⟩ | ⟨hparams, ⟨n, hn, rfl⟩ | ⟨hlabels, ⟨found, hfound, rfl⟩ | ⟨hjumps, h⟩⟩⟩)
    · exact .parameter (firstRepeat_nil_eq_some_iff.mp hn)
    · exact .label (firstRepeat_nil_eq_none_iff.mp hparams) (firstRepeat_nil_eq_some_iff.mp hn)
    · obtain ⟨i, l, hfirst, rfl⟩ := findSome?_stray?_eq_some_iff.mp hfound
      exact .jump (firstRepeat_nil_eq_none_iff.mp hparams)
        (firstRepeat_nil_eq_none_iff.mp hlabels) hfirst
    · split at h
      · rename_i htaken
        obtain rfl := Option.some.inj h
        exact .name (firstRepeat_nil_eq_none_iff.mp hparams)
          (firstRepeat_nil_eq_none_iff.mp hlabels) (findSome?_stray?_eq_none_iff.mp hjumps) htaken
      · cases h
  · intro h
    cases h with
    | parameter first => exact Or.inl ⟨_, firstRepeat_nil_eq_some_iff.mpr first, rfl⟩
    | label params first =>
        exact Or.inr ⟨firstRepeat_nil_eq_none_iff.mpr params,
          Or.inl ⟨_, firstRepeat_nil_eq_some_iff.mpr first, rfl⟩⟩
    | jump params labels first =>
        exact Or.inr ⟨firstRepeat_nil_eq_none_iff.mpr params,
          Or.inr ⟨firstRepeat_nil_eq_none_iff.mpr labels,
            Or.inl ⟨_, findSome?_stray?_eq_some_iff.mpr ⟨_, _, first, rfl⟩, rfl⟩⟩⟩
    | name params labels jumps taken =>
        exact Or.inr ⟨firstRepeat_nil_eq_none_iff.mpr params,
          Or.inr ⟨firstRepeat_nil_eq_none_iff.mpr labels,
            Or.inr ⟨findSome?_stray?_eq_none_iff.mpr jumps, if_pos taken⟩⟩⟩

/-- The checks let a method pass that does not offend. -/
theorem refusal?_eq_none_iff : d.refusal? text file earlier = none ↔ ¬ d.Offends earlier := by
  simp only [refusal?, Option.or_eq_none_iff, Option.map_eq_none_iff, firstRepeat_nil_eq_none_iff,
    findSome?_stray?_eq_none_iff, ite_eq_right_iff, reduceCtorEq, imp_false, Offends, not_or,
    not_not, not_exists, not_and]
  rfl

end

end Decl

/-! ## Programs -/

section

variable {text file : Text} {done : List Decl} {p : Program}

/-- No method of a list offends after those before it, `done` being before all of them. -/
def NoneOffends (done ds : List Decl) : Prop :=
  ∀ before e after, ds = before ++ e :: after → ¬ e.Offends (done ++ before)

theorem noneOffends_cons_iff {d : Decl} {rest : List Decl} :
    NoneOffends done (d :: rest) ↔ ¬ d.Offends done ∧ NoneOffends (done ++ [d]) rest := by
  constructor
  · intro h
    refine ⟨by simpa using h [] d rest rfl, fun before e after hrest => ?_⟩
    rw [List.append_assoc]
    exact h (d :: before) e after (by rw [hrest, List.cons_append])
  · rintro ⟨hd, hrest⟩ before e after heq
    cases before with
    | nil =>
        obtain ⟨rfl, -⟩ := List.cons.inj heq
        rwa [List.append_nil]
    | cons b before =>
        obtain ⟨rfl, rfl⟩ := List.cons.inj heq
        simpa using hrest before e after rfl

/-- The first method of a list that offends, and its rejection. -/
def FirstRefused (text file : Text) (done ds : List Decl) (r : Rejection) : Prop :=
  ∃ earlier d later, ds = earlier ++ d :: later ∧ NoneOffends done earlier ∧
    d.RefusedFor text file (done ++ earlier) r

theorem firstRefused_cons_iff {d : Decl} {rest : List Decl} {r : Rejection} :
    FirstRefused text file done (d :: rest) r ↔ d.RefusedFor text file done r ∨
      ¬ d.Offends done ∧ FirstRefused text file (done ++ [d]) rest r := by
  constructor
  · rintro ⟨earlier, e, later, heq, hnone, hrefused⟩
    cases earlier with
    | nil =>
        obtain ⟨rfl, -⟩ := List.cons.inj heq
        exact Or.inl (by simpa using hrefused)
    | cons b earlier =>
        obtain ⟨rfl, rfl⟩ := List.cons.inj heq
        obtain ⟨hd, hearlier⟩ := noneOffends_cons_iff.mp hnone
        exact Or.inr ⟨hd, earlier, e, later, rfl, hearlier, by simpa using hrefused⟩
  · rintro (hrefused | ⟨hd, earlier, e, later, rfl, hearlier, hrefused⟩)
    · refine ⟨[], d, rest, rfl, fun before e after h => ?_, by simpa using hrefused⟩
      simp at h
    · exact ⟨d :: earlier, e, later, rfl, noneOffends_cons_iff.mpr ⟨hd, hearlier⟩,
        by simpa using hrefused⟩

/-- Reading one more method: it is added, or it is refused. -/
theorem lowerDecls_cons (file : Text) (d : Decl) (rest : List Decl)
    (hp : p.methods = done.map (Decl.method text)) :
    (d.refusal? text file done = none ∧ ∃ p', p'.methods = (done ++ [d]).map (Decl.method text) ∧
        lowerDecls text file p (d :: rest) = lowerDecls text file p' rest) ∨
      ∃ r, d.refusal? text file done = some r ∧
        lowerDecls text file p (d :: rest) = (p, some r) := by
  have hnames : p.methods.map Method.name = done.map fun e => e.name.text := by
    rw [hp, List.map_map]
    rfl
  rw [Decl.refusal?_eq, lowerDecls]
  cases d.fault? text file with
  | some r => exact Or.inr ⟨r, rfl, rfl⟩
  | none =>
      rw [← hnames, Option.none_or]
      by_cases htaken : d.name.text ∈ p.methods.map Method.name
      · refine Or.inr ⟨_, if_pos htaken, ?_⟩
        have hadd : p.add? (d.method text) = none := dif_pos htaken
        simp only [hadd]
      · refine Or.inl ⟨if_neg htaken, ?_⟩
        obtain ⟨p', hadd, hp'⟩ : ∃ p', p.add? (d.method text) = some p' ∧
            p'.methods = p.methods ++ [d.method text] := ⟨_, dif_neg htaken, rfl⟩
        refine ⟨p', ?_, ?_⟩
        · rw [hp', hp, List.map_append, List.map_singleton]
        · simp only [hadd]

theorem lowerDecls_refuses_iff {ds : List Decl} (hp : p.methods = done.map (Decl.method text))
    {r : Rejection} :
    (lowerDecls text file p ds).2 = some r ↔ FirstRefused text file done ds r := by
  induction ds generalizing p done with
  | nil => simp [lowerDecls, FirstRefused]
  | cons d rest ih =>
      rw [firstRefused_cons_iff, ← Decl.refusal?_eq_some_iff]
      rcases lowerDecls_cons file d rest hp with ⟨hpass, p', hp', hrest⟩ | ⟨r', hr', hstop⟩
      · have hd := Decl.refusal?_eq_none_iff.mp hpass
        rw [hrest, ih hp', hpass]
        simp [hd]
      · have hd : d.Offends done := by
          by_contra hd
          rw [Decl.refusal?_eq_none_iff.mpr hd] at hr'
          cases hr'
        rw [hstop, hr']
        simp [hd]

theorem lowerDecls_accepts_iff {ds : List Decl} (hp : p.methods = done.map (Decl.method text)) :
    (lowerDecls text file p ds).2 = none ↔ NoneOffends done ds := by
  induction ds generalizing p done with
  | nil => simp [lowerDecls, NoneOffends]
  | cons d rest ih =>
      have hd : d.refusal? text file done = none ↔ ¬ d.Offends done := Decl.refusal?_eq_none_iff
      rw [noneOffends_cons_iff, ← hd]
      rcases lowerDecls_cons file d rest hp with ⟨hpass, p', hp', hrest⟩ | ⟨r', hr', hstop⟩
      · rw [hrest, ih hp', hpass]
        simp
      · rw [hstop, hr']
        simp

end

/-- **Refusals are complete and in order.** A text that the grammar matches, with no literal that is
too long, is refused just when one of its methods offends. The rejection is then that of the first
such method, and is about the first thing that is wrong with it. What the places of a rejection
refer to stands there: names and statements have the offsets at which they are written, all of them
in order. -/
theorem refusals_in_order {text : Text} {ds : List Decl} (file : Text) (h : readDecls text = .ok ds)
    (hshort : ∀ d ∈ ds, ∀ n ∈ d.numerals, n.digits.length ≤ 4300) :
    ((∃ r, parse text file = .error (.rejected r)) ↔
      ∃ earlier d later, ds = earlier ++ d :: later ∧ d.Offends earlier) ∧
    ((∃ p, parse text file = .ok p) ↔ NoneOffends [] ds) ∧
    (∀ e, parse text file = .error e ↔ ∃ r, e = .rejected r ∧ FirstRefused text file [] ds r) ∧
    (∀ d ∈ ds, d.StandsIn text) ∧ (ds.flatMap Decl.offsets).Pairwise (· < ·) := by
  have hlong : (ds.any fun d => d.numerals.any Numeral.tooLong) = false := by
    rw [List.any_eq_false]
    intro d hd hany
    obtain ⟨n, hn, htoo⟩ := List.any_eq_true.mp hany
    exact absurd (of_decide_eq_true htoo) (Nat.not_lt.mpr (hshort d hd n hn))
  have hparse : parse text file =
      match (lowerDecls text file .empty ds).2 with
      | none => .ok (lowerDecls text file .empty ds).1
      | some r => .error (.rejected r) := by
    simp only [parse, read, h, hlong, Bool.false_eq_true, if_false]
    rcases lowerDecls text file .empty ds with ⟨p, _ | r⟩ <;> rfl
  have hrefuses : ∀ r, (lowerDecls text file .empty ds).2 = some r ↔
      FirstRefused text file [] ds r := fun r => lowerDecls_refuses_iff rfl
  have haccepts : (lowerDecls text file .empty ds).2 = none ↔ NoneOffends [] ds :=
    lowerDecls_accepts_iff rfl
  obtain ⟨hordered, hstands⟩ := standsIn_of_readDecls h
  have hoffends : (∃ earlier d later, ds = earlier ++ d :: later ∧ d.Offends earlier) ↔
      ¬ NoneOffends [] ds := by
    simp [NoneOffends]
  rw [hoffends, ← haccepts, hparse]
  refine ⟨?_, ?_, fun e => ?_, fun d hd => (hstands d hd).1, hordered⟩
  · cases (lowerDecls text file .empty ds).2 <;> simp
  · cases (lowerDecls text file .empty ds).2 <;> simp
  · simp only [← hrefuses]
    cases (lowerDecls text file .empty ds).2 <;> simp [eq_comm]

end ConstFlow.Source

namespace ConstFlow.Sample

/-- The second method jumps to labels that it does not have, and has the name of the first; the
third repeats a parameter. -/
def muddle : Text :=
  "method main(n) {
  goto end;
  end: return n;
}
method main(a) {
  if a < 10 goto out;
  goto away;
}
method twice(x, x) {}"

end ConstFlow.Sample

namespace ConstFlow.Source

theorem refusals_in_order_sample :
    ∃ ds, readDecls Sample.muddle = .ok ds ∧
      (∀ d ∈ ds, ∀ n ∈ d.numerals, n.digits.length ≤ 4300) ∧
      parse Sample.muddle "muddle.ir" =
        .error (.rejected ⟨.undefinedLabel "out" "main", "muddle.ir", 6, none⟩) ∧
      FirstRefused Sample.muddle "muddle.ir" [] ds
        ⟨.undefinedLabel "out" "main", "muddle.ir", 6, none⟩ := by
  have hshort : (match readDecls Sample.muddle with
      | .ok ds => ds.all fun d => d.numerals.all fun n => n.digits.length ≤ 4300
      | .error _ => false) = true := by decide +kernel
  have hrejected : (match parse Sample.muddle "muddle.ir" with
      | .ok _ => false
      | .error e =>
        e = .rejected ⟨.undefinedLabel "out" "main", "muddle.ir", 6, none⟩) = true := by
    decide +kernel
  split at hshort
  · rename_i ds hread
    split at hrejected
    · cases hrejected
    · rename_i e he
      obtain rfl := of_decide_eq_true hrejected
      have hdigits : ∀ d ∈ ds, ∀ n ∈ d.numerals, n.digits.length ≤ 4300 := by
        simpa using hshort
      obtain ⟨-, -, hfirst, -⟩ := refusals_in_order "muddle.ir" hread hdigits
      obtain ⟨r, hr, hrefused⟩ := (hfirst _).mp he
      obtain rfl := ParseError.rejected.inj hr
      exact ⟨ds, hread, hdigits, he, hrefused⟩
  · cases hshort

end ConstFlow.Source
