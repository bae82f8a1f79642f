import Mathlib.Data.Nat.Pairing
import ConstFlow.Source.Parse

/-!
# Trees and places

Trees remember offsets, but of an offset a program keeps only the line, and a rejection the line and
the column. Two texts may differ: if their trees are the same with places for offsets, they are read
alike, and what is wrong with one is wrong with the other, at the same place.
-/

namespace ConstFlow.Source

/-! ## Changing offsets -/

section

variable (f : Nat → Nat)

def Name.relocate (n : Name) : Name := ⟨n.text, f n.offset⟩

@[simp] theorem Name.text_relocate (n : Name) : (n.relocate f).text = n.text := rfl

def Operand.relocate : Operand → Operand
  | .name n => .name (n.relocate f)
  | .literal n => .literal n

def Call.relocate (c : Call) : Call := ⟨c.callee.relocate f, c.args.map (Operand.relocate f)⟩

def Rhs.relocate : Rhs → Rhs
  | .call c => .call (c.relocate f)
  | .binary op l r => .binary op (l.relocate f) (r.relocate f)
  | .operand o => .operand (o.relocate f)

def Statement.relocate : Statement → Statement
  | .pass => .pass
  | .jump l => .jump (l.relocate f)
  | .ret value => .ret (value.map (Operand.relocate f))
  | .branch op l r target => .branch op (l.relocate f) (r.relocate f) (target.relocate f)
  | .assign target rhs => .assign (target.relocate f) (rhs.relocate f)
  | .call c => .call (c.relocate f)

def Item.relocate (i : Item) : Item :=
  ⟨i.labels.map (Name.relocate f), f i.offset, i.statement.relocate f⟩

/-- A method with the offsets of names and statements changed. -/
def Decl.relocate (d : Decl) : Decl :=
  ⟨d.name.relocate f, d.params.map (Name.relocate f), d.items.map (Item.relocate f)⟩

end

/-! ## What does not depend on offsets -/

section

variable (f : Nat → Nat)

@[simp] theorem spill_relocate (method : Text) (k : Nat) (o : Operand) :
    spill method k (o.relocate f) = spill method k o := by
  cases o <;> rfl

@[simp] theorem spillAll_relocate (method : Text) (k : Nat) (os : List Operand) :
    spillAll method k (os.map (Operand.relocate f)) = spillAll method k os := by
  induction os generalizing k with
  | nil => rfl
  | cons o os ih => simp [spillAll, ih]

@[simp] theorem lowerCall_relocate (method : Text) (k : Nat) (receiver : Option Var) (c : Call) :
    lowerCall method k receiver (c.relocate f) = lowerCall method k receiver c := by
  simp [lowerCall, Call.relocate]

@[simp] theorem lowerStatement_relocate (method : Text) (k : Nat) (s : Statement) :
    lowerStatement method k (s.relocate f) = lowerStatement method k s := by
  cases s with
  | pass => rfl
  | jump l => rfl
  | ret value => cases value <;> simp [Statement.relocate, lowerStatement]
  | branch op l r target => simp [Statement.relocate, lowerStatement]
  | assign target rhs =>
      cases rhs with
      | call c => exact lowerCall_relocate f method k _ c
      | binary op l r => simp [Statement.relocate, Rhs.relocate, lowerStatement]
      | operand o => cases o <;> rfl
  | call c => exact lowerCall_relocate f method k none c

@[simp] theorem Operand.numerals_relocate (o : Operand) : (o.relocate f).numerals = o.numerals := by
  cases o <;> rfl

@[simp] theorem Call.numerals_relocate (c : Call) : (c.relocate f).numerals = c.numerals := by
  simp [numerals, relocate, List.flatMap_map]

@[simp] theorem Rhs.numerals_relocate (r : Rhs) : (r.relocate f).numerals = r.numerals := by
  cases r with
  | call c => exact c.numerals_relocate f
  | binary op l r => simp [relocate, numerals]
  | operand o => exact o.numerals_relocate f

@[simp] theorem Statement.numerals_relocate (s : Statement) :
    (s.relocate f).numerals = s.numerals := by
  cases s with
  | pass => rfl
  | jump l => rfl
  | ret value => cases value <;> simp [relocate, numerals]
  | branch op l r target => simp [relocate, numerals]
  | assign target rhs => exact rhs.numerals_relocate f
  | call c => exact c.numerals_relocate f

@[simp] theorem Decl.numerals_relocate (d : Decl) : (d.relocate f).numerals = d.numerals := by
  simp [numerals, relocate, Item.relocate, List.flatMap_map]

@[simp] theorem labelPositions_relocate (pos : Nat) (is : List Item) (blocks : List (List Instr)) :
    labelPositions pos (is.map (Item.relocate f)) blocks = labelPositions pos is blocks := by
  induction is generalizing pos blocks with
  | nil => rfl
  | cons i is ih =>
      cases blocks with
      | nil => rfl
      | cons block blocks =>
          simp [labelPositions, ih, Item.relocate]

@[simp] theorem firstRepeat_relocate (seen : List Text) (ns : List Name) :
    firstRepeat seen (ns.map (Name.relocate f)) =
      (firstRepeat seen ns).map (Name.relocate f) := by
  induction ns generalizing seen with
  | nil => rfl
  | cons n ns ih =>
      simp only [List.map_cons, firstRepeat, Name.text_relocate, ih]
      split <;> rfl

@[simp] theorem labels_relocate (is : List Item) :
    (is.map (Item.relocate f)).flatMap Item.labels =
      (is.flatMap Item.labels).map (Name.relocate f) := by
  rw [List.flatMap_map, List.map_flatMap]
  rfl

end

/-! ## Two texts -/

/-- Line and column of an offset, as one number. -/
def placeAt (t : Text) (offset : Nat) : Nat :=
  Nat.pair (Text.lineAt t offset) (Text.columnAt t offset)

section

variable {t u : Text} {d e : Decl}

theorem complainAt_eq {o o' : Nat} (h : placeAt t o = placeAt u o') (file : Text) (c : Complaint) :
    complainAt t file o c = complainAt u file o' c := by
  obtain ⟨hline, hcolumn⟩ := Nat.pair_eq_pair.mp h
  rw [complainAt, complainAt, hline, hcolumn]

theorem lowerItems_eq {is js : List Item} (method : Text) (k : Nat)
    (h : is.map (Item.relocate (placeAt t)) = js.map (Item.relocate (placeAt u))) :
    lowerItems t method k is = lowerItems u method k js := by
  induction is generalizing js k with
  | nil =>
      obtain rfl := List.map_eq_nil_iff.mp h.symm
      rfl
  | cons i is ih =>
      obtain ⟨j, js, rfl, hj, hjs⟩ := List.map_eq_cons_iff.mp h.symm
      obtain ⟨-, hplace, hstatement⟩ := Item.mk.inj hj
      have hlowered := congrArg (lowerStatement method k) hstatement
      rw [lowerStatement_relocate, lowerStatement_relocate] at hlowered
      simp only [lowerItems, (Nat.pair_eq_pair.mp hplace).1, hlowered, ih _ hjs.symm]

theorem Decl.method_eq (h : d.relocate (placeAt t) = e.relocate (placeAt u)) :
    d.method t = e.method u := by
  obtain ⟨hname, hparams, hitems⟩ := Decl.mk.inj h
  obtain ⟨hname, -⟩ := Name.mk.inj hname
  have hparams : d.params.map (fun n => (⟨e.name.text, n.text⟩ : Var)) =
      e.params.map fun n => ⟨e.name.text, n.text⟩ := by
    simpa [Function.comp_def] using
      congrArg (List.map fun n => (⟨e.name.text, n.text⟩ : Var)) hparams
  have hlabels : ∀ bodies, labelPositions 0 d.items bodies = labelPositions 0 e.items bodies := by
    intro bodies
    rw [← labelPositions_relocate (placeAt t), hitems, labelPositions_relocate]
  simp only [method, hname, hlabels, lowerItems_eq _ _ hitems, hparams]

theorem firstRepeat_cases {ns ms : List Name}
    (h : ns.map (Name.relocate (placeAt t)) = ms.map (Name.relocate (placeAt u))) :
    firstRepeat [] ns = none ∧ firstRepeat [] ms = none ∨
      ∃ n m, firstRepeat [] ns = some n ∧ firstRepeat [] ms = some m ∧ n.text = m.text ∧
        placeAt t n.offset = placeAt u m.offset := by
  have hrepeat := congrArg (firstRepeat []) h
  rw [firstRepeat_relocate, firstRepeat_relocate] at hrepeat
  cases hn : firstRepeat [] ns with
  | none =>
      rw [hn] at hrepeat
      exact Or.inl ⟨rfl, Option.map_eq_none_iff.mp hrepeat.symm⟩
  | some n =>
      rw [hn] at hrepeat
      obtain ⟨m, hm, hnm⟩ := Option.map_eq_some_iff.mp hrepeat.symm
      obtain ⟨htext, hplace⟩ := Name.mk.inj hnm
      exact Or.inr ⟨n, m, rfl, hm, htext.symm, hplace.symm⟩

theorem Decl.fault?_eq (file : Text) (h : d.relocate (placeAt t) = e.relocate (placeAt u)) :
    d.fault? t file = e.fault? u file := by
  obtain ⟨hname, hparams, hitems⟩ := Decl.mk.inj h
  obtain ⟨hname, -⟩ := Name.mk.inj hname
  have hlabels := congrArg (List.flatMap Item.labels) hitems
  rw [labels_relocate, labels_relocate] at hlabels
  unfold fault?
  rw [hname, method_eq h]
  rcases firstRepeat_cases hparams with ⟨hd, he⟩ | ⟨n, m, hd, he, htext, hplace⟩ <;> rw [hd, he]
  · rcases firstRepeat_cases hlabels with ⟨hd, he⟩ | ⟨n, m, hd, he, htext, hplace⟩ <;> rw [hd, he]
    simp only [htext, complainAt_eq hplace]
  · simp only [htext, complainAt_eq hplace]

theorem lowerDecls_eq {ds es : List Decl} (file : Text) (p : Program)
    (h : ds.map (Decl.relocate (placeAt t)) = es.map (Decl.relocate (placeAt u))) :
    lowerDecls t file p ds = lowerDecls u file p es := by
  induction ds generalizing es p with
  | nil =>
      obtain rfl := List.map_eq_nil_iff.mp h.symm
      rfl
  | cons d ds ih =>
      obtain ⟨e, es, rfl, he, hes⟩ := List.map_eq_cons_iff.mp h.symm
      obtain ⟨htext, hplace⟩ := Name.mk.inj (Decl.mk.inj he).1
      unfold lowerDecls
      rw [Decl.fault?_eq file he.symm, Decl.method_eq he.symm, htext, complainAt_eq hplace]
      simp only [ih _ hes.symm]

/-- Texts with the same trees in the same places are read alike. -/
theorem read_eq {ds es : List Decl} (file : Text) (hds : readDecls t = .ok ds)
    (hes : readDecls u = .ok es)
    (h : ds.map (Decl.relocate (placeAt t)) = es.map (Decl.relocate (placeAt u))) :
    read t file = read u file := by
  have hlong : (ds.any fun d => d.numerals.any Numeral.tooLong) =
      es.any fun d => d.numerals.any Numeral.tooLong := by
    simpa [Function.comp_def, Decl.numerals_relocate] using
      congrArg (List.any · fun d => d.numerals.any Numeral.tooLong) h
  unfold read
  simp only [hds, hes, hlong, lowerDecls_eq file .empty h]

end

end ConstFlow.Source
