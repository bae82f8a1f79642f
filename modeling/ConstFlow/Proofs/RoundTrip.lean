import Mathlib.Data.List.Nodup
import ConstFlow.Proofs.Reading
import ConstFlow.Source.Parse

/-!
# Reading a written program

A program that is written as text is read back as the same program, up to the lines on which its
statements stand. The text is fixed but for blanks: where a line may end, any blanks may stand, or
none (`Method.Writes`).

The proof has two halves. The grammar reads a written method as a declaration that stands for it:
one item for every statement, with the labels of its position in front (`exists_readDecls`). And a
declaration that stands for a method is lowered to it (`Decl.StandsFor.sameButLines`): its items
need no temporaries, so items and statements have the same positions, and gathering the labels
position by position gives them in the order of the positions, which is the order in which the
method lists them (`gather_eq_self`).
-/

namespace ConstFlow

open Source Source.Matcher

/-! ## Layouts -/

/-- A statement with the labels of its position in front and a semicolon after it. -/
def Method.WritesRow (m : Method) (s : Stmt × Nat) (row : Text) : Prop :=
  ∃ b b', Blank b ∧ Blank b' ∧ row = b ++ m.labelsAt s.2 ++ s.1.action.text ++ ";" ++ b'

/-- A text of a method. Blanks may stand behind the braces and around the statements. -/
def Method.Writes (m : Method) (t : Text) : Prop :=
  ∃ b b' rows, Blank b ∧ Blank b' ∧ List.Forall₂ m.WritesRow m.body.zipIdx rows ∧
    t = "method " ++ m.signature ++ " \x7b" ++ (b ++ List.flatten rows) ++ "\x7d" ++ b'

/-- A text of a program. -/
def Program.Writes (p : Program) (t : Text) : Prop :=
  ∃ b ts, Blank b ∧ List.Forall₂ Method.Writes p.methods ts ∧ t = b ++ ts.flatten

theorem Method.writes_render (m : Method) : m.Writes m.render := by
  let row := fun s : Stmt × Nat => "  " ++ m.labelsAt s.2 ++ s.1.action.text ++ ";\n"
  refine ⟨"\n", "\n", m.body.zipIdx.map row, by decide, by decide, ?_, ?_⟩
  · rw [List.forall₂_map_right_iff, List.forall₂_same]
    rintro s -
    refine ⟨"  ", "\n", by decide, by decide, ?_⟩
    rw [List.append_assoc _ (Text.ofString ";")]
    rfl
  · rw [Method.render, show Text.ofString " \x7b\n" = " \x7b" ++ Text.ofString "\n" from rfl,
      show Text.ofString "\x7d\n" = "\x7d" ++ Text.ofString "\n" from rfl]
    simp only [row, List.append_assoc]

theorem Program.writes_render (p : Program) : p.Writes p.render := by
  refine ⟨[], p.methods.map Method.render, by decide, ?_, rfl⟩
  rw [List.forall₂_map_right_iff, List.forall₂_same]
  exact fun m _ => m.writes_render

/-- What can be written and read back: names are names of the grammar, no parameter is repeated,
and the labels mark positions of the body, are listed by position, and are all that is jumped to. -/
structure Method.Readable (m : Method) : Prop where
  name : IsName m.name
  params : ∀ x ∈ m.params, x.Readable m.name
  distinct : m.params.Nodup
  body : ∀ s ∈ m.body, s.action.Readable m.name
  labels : ∀ l ∈ m.labels.entries, IsName l.1 ∧ l.2 < m.body.length
  ordered : m.labels.entries.Pairwise fun l l' => l.2 ≤ l'.2
  targets : ∀ s ∈ m.body, ∀ l ∈ s.action.jumpLabel?, l ∈ m.labels.keys

instance (m : Method) : Decidable m.Readable :=
  decidable_of_iff ((IsName m.name ∧ (∀ x ∈ m.params, x.Readable m.name) ∧ m.params.Nodup) ∧
      (∀ s ∈ m.body, s.action.Readable m.name) ∧
      (∀ l ∈ m.labels.entries, IsName l.1 ∧ l.2 < m.body.length) ∧
      (m.labels.entries.Pairwise fun l l' => l.2 ≤ l'.2) ∧
      ∀ s ∈ m.body, ∀ l ∈ s.action.jumpLabel?, l ∈ m.labels.keys)
    ⟨fun ⟨⟨h₁, h₂, h₃⟩, h₄, h₅, h₆, h₇⟩ => ⟨h₁, h₂, h₃, h₄, h₅, h₆, h₇⟩,
      fun ⟨h₁, h₂, h₃, h₄, h₅, h₆, h₇⟩ => ⟨⟨h₁, h₂, h₃⟩, h₄, h₅, h₆, h₇⟩⟩

/-- The same method, on other lines. -/
structure Method.SameButLines (m n : Method) : Prop where
  name : n.name = m.name
  params : n.params = m.params
  actions : n.body.map Stmt.action = m.body.map Stmt.action
  labels : n.labels = m.labels

/-- The labels of a position. -/
def Method.marks (m : Method) (i : Nat) : List (Text × Nat) :=
  m.labels.entries.filter fun l => l.2 = i

namespace Source

/-- An item for a statement and its position. -/
structure Item.StandsFor (m : Method) (s : Stmt × Nat) (i : Item) : Prop where
  labels : i.labels.map Name.text = (m.marks s.2).map Prod.fst
  statement : Statement.StandsFor m.name s.1.action i.statement

/-- A declaration for a method. -/
structure Decl.StandsFor (m : Method) (d : Decl) : Prop where
  name : d.name.text = m.name
  params : d.params.map (fun n => ⟨m.name, n.text⟩) = m.params
  items : List.Forall₂ (Item.StandsFor m) m.body.zipIdx d.items

/-! ## Reading -/

theorem map_eq_of_forall₂_eq {α β : Type} {f : β → α} {as : List α} {bs : List β}
    (h : List.Forall₂ (fun a b => f b = a) as bs) : bs.map f = as := by
  induction h with
  | nil => rfl
  | cons h _ ih => rw [List.map_cons, h, ih]

section

variable {m : Method} {rest : Text}

theorem oneMore_label {ls : List Text} (h : ∀ l ∈ ls, IsName l) :
    List.Forall₂ (OneMore Solid label fun l n => n.text = l) ls
      (ls.map (· ++ Text.ofString ": ")) := by
  rw [List.forall₂_map_right_iff, List.forall₂_same]
  intro l hl
  refine ⟨by simp [Text.ofString, Text.ofChars], fun more => ?_, fun more => takes_label (h l hl)⟩
  rw [List.append_assoc]
  exact (h l hl).solid

theorem labelsAt_eq (m : Method) (i : Nat) :
    m.labelsAt i = (((m.marks i).map Prod.fst).map (· ++ Text.ofString ": ")).flatten := by
  rw [Method.labelsAt, Method.marks, List.map_map]
  rfl

/-- A statement with its labels, when all blanks stand behind the semicolon. -/
def WritesItem (m : Method) (s : Stmt × Nat) (t : Text) : Prop :=
  ∃ b, Blank b ∧ t = m.labelsAt s.2 ++ (s.1.action.text ++ (";" ++ b))

/-- Blanks in front of a statement can be counted to what comes before it. -/
theorem exists_writesItem {ss : List (Stmt × Nat)} {rows : List Text} {b : Text}
    (h : List.Forall₂ m.WritesRow ss rows) (hb : Blank b) :
    ∃ c ts, Blank c ∧ List.Forall₂ (WritesItem m) ss ts ∧ b ++ rows.flatten = c ++ ts.flatten := by
  induction h generalizing b with
  | nil => exact ⟨b, [], hb, .nil, rfl⟩
  | cons hrow _ ih =>
      obtain ⟨b₁, b₂, hb₁, hb₂, rfl⟩ := hrow
      obtain ⟨c, ts, hc, hts, heq⟩ := ih hb₂
      refine ⟨b ++ b₁, _ :: ts, List.forall_mem_append.mpr ⟨hb, hb₁⟩, .cons ⟨c, hc, rfl⟩ hts, ?_⟩
      simp only [List.flatten_cons, List.append_assoc, heq]

variable (hm : m.Readable)
include hm

theorem isName_of_mem_marks {i : Nat} : ∀ l ∈ (m.marks i).map Prod.fst, IsName l := by
  intro l hl
  obtain ⟨e, he, rfl⟩ := List.mem_map.mp hl
  exact (hm.labels e (List.mem_of_mem_filter he)).1

theorem takes_item {s : Stmt × Nat} {b : Text} (hs : s.1.action.Readable m.name) (hb : Blank b)
    (hrest : Solid rest) :
    Takes item (m.labelsAt s.2 ++ (s.1.action.text ++ (";" ++ b))) rest (Item.StandsFor m s) := by
  have hlabels := oneMore_label (isName_of_mem_marks hm (i := s.2))
  have hsolid : Solid ((s.1.action.text ++ (";" ++ b)) ++ rest) := by
    rw [List.append_assoc]
    exact solid_text hs
  have hno : Fails label ((s.1.action.text ++ (";" ++ b)) ++ rest) := by
    rw [List.append_assoc]
    exact fails_label hs
  rw [labelsAt_eq]
  refine Takes.rule (Takes.bind (takes_many hlabels hsolid (.inr hno)) fun ns hns => ?_)
  refine Takes.bind_nil takes_here fun off _ => ?_
  exact (takes_statement hs hb hrest).map fun st hst => ⟨map_eq_of_forall₂_eq hns, hst⟩

theorem oneMore_item {ts : List Text} (hts : List.Forall₂ (WritesItem m) m.body.zipIdx ts) :
    List.Forall₂ (OneMore Solid item (Item.StandsFor m)) m.body.zipIdx ts := by
  have hbody : ∀ s ∈ m.body.zipIdx, s.1.action.Readable m.name := fun s hs =>
    hm.body s.1 (List.fst_mem_of_mem_zipIdx hs)
  refine ((List.forall₂_and_left _ _).mpr ⟨hbody, hts⟩).imp ?_
  rintro s _ ⟨hs, b, hb, rfl⟩
  refine ⟨by simp [Text.ofString, Text.ofChars], fun more => ?_, fun more => takes_item hm hs hb⟩
  rw [labelsAt_eq, List.append_assoc, List.append_assoc]
  exact good_flatten (oneMore_label (isName_of_mem_marks hm)) (solid_text hs)

theorem takes_params :
    Takes (parenList Source.name) ("(" ++ (Text.join ", " (m.params.map Var.name) ++ ")")) rest
      fun ns => ns.map (fun n => ⟨m.name, n.text⟩) = m.params := by
  refine (takes_parenList ?_ ?_ fun off => rfl).imp fun ns => map_eq_of_forall₂_eq
  · intro x hx more hmore
    obtain ⟨hmethod, hname⟩ := hm.params x hx
    refine (hname.takes_name hmore).imp fun n hn => ?_
    rw [hn, ← hmethod]
  · exact fun x hx more => (hm.params x hx).2.solid

/-- A written method is read as a declaration that stands for it. -/
theorem takes_decl {t : Text} (ht : m.Writes t) (hrest : Solid rest) :
    Takes decl t rest (Decl.StandsFor m) := by
  obtain ⟨b, b', rows, hb, hb', hrows, rfl⟩ := ht
  obtain ⟨c, ts, hc, hts, heq⟩ := exists_writesItem hrows hb
  have htext : "method " ++ m.signature ++ " \x7b" ++ (b ++ rows.flatten) ++ "\x7d" ++ b' =
      "method" ++ (" " ++ (m.name ++ (("(" ++ (Text.join ", " (m.params.map Var.name) ++ ")")) ++
        (" " ++ ("\x7b" ++ (c ++ (ts.flatten ++ ("\x7d" ++ b')))))))) := by
    rw [heq, show Text.ofString "method " = "method" ++ Text.ofString " " from rfl,
      show Text.ofString " \x7b" = " " ++ Text.ofString "\x7b" from rfl]
    simp only [Method.signature, List.append_assoc]
  rw [htext]
  refine Takes.rule (Takes.bind (takes_token _) fun _ _ => ?_)
  refine Takes.bind (takes_gap (by decide) (List.cons_ne_nil _ _) ?_) fun _ _ => ?_
  · rw [List.append_assoc]
    exact hm.name.solid
  refine Takes.bind (hm.name.takes_name rfl) fun n hn => ?_
  refine Takes.bind_nil (takes_no_blanks rfl) fun _ _ => ?_
  refine Takes.bind (takes_params hm) fun ns hns => ?_
  refine Takes.bind (takes_blanks (by decide) rfl) fun _ _ => ?_
  refine Takes.bind (takes_token _) fun _ _ => ?_
  refine Takes.bind (takes_blanks hc ?_) fun _ _ => ?_
  · rw [List.append_assoc, List.append_assoc]
    exact good_flatten (oneMore_item hm hts) rfl
  refine Takes.bind (takes_many (oneMore_item hm hts) rfl (.inr fun off => rfl)) fun is his => ?_
  refine Takes.bind (takes_token _) fun _ _ => ?_
  exact (takes_blanks hb' hrest).map fun _ _ => ⟨hn, hns, his⟩

end

/-- A written program is read as declarations that stand for its methods. -/
theorem exists_readDecls {p : Program} (hp : ∀ m ∈ p.methods, m.Readable) {t : Text}
    (ht : p.Writes t) :
    ∃ ds, readDecls t = .ok ds ∧ List.Forall₂ Decl.StandsFor p.methods ds := by
  obtain ⟨b, ts, hb, hts, rfl⟩ := ht
  have hdecls : List.Forall₂ (OneMore Solid decl Decl.StandsFor) p.methods ts := by
    refine ((List.forall₂_and_left _ _).mpr ⟨hp, hts⟩).imp ?_
    rintro m t ⟨hm, ht⟩
    have htakes : ∀ more, Solid more → Takes decl t more (Decl.StandsFor m) :=
      fun more => takes_decl hm ht
    obtain ⟨b, b', rows, -, -, -, rfl⟩ := ht
    exact ⟨List.cons_ne_nil _ _, fun more => rfl, htakes⟩
  have hprogram : Takes program (b ++ (ts.flatten ++ [])) []
      (List.Forall₂ Decl.StandsFor p.methods) := by
    refine Takes.rule (Takes.bind (takes_blanks hb ?_) fun _ _ => ?_)
    · rw [List.append_nil]
      exact good_flatten hdecls rfl
    refine Takes.bind (takes_many hdecls rfl (.inl rfl)) fun ds hds => ?_
    have hend : Takes endOfText [] [] fun _ => True := fun off => ⟨(), rfl, trivial⟩
    exact hend.map fun _ _ => hds
  obtain ⟨ds, hfound, hds⟩ := hprogram 0
  rw [List.append_nil, List.append_nil] at hfound
  refine ⟨ds, ?_, hds⟩
  rw [readDecls, Cursor.start, hfound]

/-! ## Lowering -/

theorem filter_append_filter {es : List (Text × Nat)} {pos : Nat}
    (hordered : es.Pairwise fun l l' => l.2 ≤ l'.2) (hpos : ∀ l ∈ es, pos ≤ l.2) :
    (es.filter fun l => l.2 = pos) ++ (es.filter fun l => l.2 ≠ pos) = es := by
  induction es with
  | nil => rfl
  | cons e es ih =>
      rw [List.pairwise_cons] at hordered
      rw [List.forall_mem_cons] at hpos
      by_cases he : e.2 = pos
      · simpa [he] using ih hordered.2 hpos.2
      · -- The position is passed, so it does not come again.
        have hpassed : ∀ l ∈ es, l.2 ≠ pos := fun l hl => by
          have := hordered.1 l hl
          omega
        have hnone : (es.filter fun l => l.2 = pos) = [] := by simpa using hpassed
        have hall : (es.filter fun l => l.2 ≠ pos) = es := by simpa using hpassed
        rw [List.filter_cons_of_neg (by simpa using he),
          List.filter_cons_of_pos (by simpa using he), hnone, hall]
        rfl

/-- Labels that are listed by position are found position by position. -/
theorem gather_eq_self {es : List (Text × Nat)} {pos n : Nat}
    (hordered : es.Pairwise fun l l' => l.2 ≤ l'.2)
    (hrange : ∀ l ∈ es, pos ≤ l.2 ∧ l.2 < pos + n) :
    (List.range' pos n).flatMap (fun i => es.filter fun l => l.2 = i) = es := by
  induction n generalizing pos es with
  | zero =>
      cases es with
      | nil => rfl
      | cons e es =>
          have := hrange e List.mem_cons_self
          omega
  | succ n ih =>
      have hlater : (List.range' (pos + 1) n).flatMap (fun i =>
          (es.filter fun l => l.2 ≠ pos).filter fun l => l.2 = i) =
            es.filter fun l => l.2 ≠ pos := by
        refine ih (hordered.filter _) fun l hl => ?_
        obtain ⟨hmem, hne⟩ := List.mem_filter.mp hl
        have := hrange l hmem
        have : l.2 ≠ pos := by simpa using hne
        omega
      -- Further on it makes no difference whether the labels of the first position are there.
      have hsame : (List.range' (pos + 1) n).flatMap (fun i => es.filter fun l => l.2 = i) =
          (List.range' (pos + 1) n).flatMap fun i =>
            (es.filter fun l => l.2 ≠ pos).filter fun l => l.2 = i := by
        refine List.flatMap_congr fun i hi => ?_
        have hi := List.mem_range'_1.mp hi
        rw [List.filter_filter]
        refine List.filter_congr fun l _ => ?_
        have hne : i ≠ pos := by omega
        by_cases hl : l.2 = i <;> simp [hl, hne]
      rw [List.range'_succ, List.flatMap_cons, hsame, hlater]
      exact filter_append_filter hordered fun l hl => (hrange l hl).1

section

variable {m : Method} {text : Text}

theorem actions_lowerItems {ss : List (Stmt × Nat)} {is : List Item}
    (h : List.Forall₂ (Item.StandsFor m) ss is) (k : Nat) :
    (lowerItems text m.name k is).flatten.map Instr.action =
      (ss.map Prod.fst).map Stmt.action := by
  induction h with
  | nil => rfl
  | cons hi _ ih => simp [lowerItems, hi.statement.lowers, ih]

theorem Item.StandsFor.marks_eq {s : Stmt × Nat} {i : Item} (h : i.StandsFor m s) :
    i.labels.map (fun l => (l.text, s.2)) = m.marks s.2 := by
  calc i.labels.map (fun l => (l.text, s.2))
      = (i.labels.map Name.text).map (fun l => (l, s.2)) := by rw [List.map_map]; rfl
    _ = (m.marks s.2).map (fun l => (l.1, s.2)) := by rw [h.labels, List.map_map]; rfl
    _ = (m.marks s.2).map id := List.map_congr_left fun l hl => by
        have hpos : l.2 = s.2 := by simpa using (List.mem_filter.mp hl).2
        rw [← hpos]
        rfl
    _ = m.marks s.2 := List.map_id _

theorem labelPositions_lowerItems {body : List Stmt} {is : List Item} {pos : Nat}
    (h : List.Forall₂ (Item.StandsFor m) (body.zipIdx pos) is) (k : Nat) :
    labelPositions pos is (lowerItems text m.name k is) =
      (List.range' pos body.length).flatMap m.marks := by
  induction body generalizing pos is with
  | nil =>
      cases h
      rfl
  | cons s body ih =>
      cases h with
      | cons hi his =>
          simp [lowerItems, labelPositions, hi.statement.lowers, ih his, List.range'_succ,
            hi.marks_eq]

theorem labels_items {body : List Stmt} {is : List Item} {pos : Nat}
    (h : List.Forall₂ (Item.StandsFor m) (body.zipIdx pos) is) :
    (is.flatMap Item.labels).map Name.text =
      ((List.range' pos body.length).flatMap m.marks).map Prod.fst := by
  induction body generalizing pos is with
  | nil =>
      cases h
      rfl
  | cons s body ih =>
      cases h with
      | cons hi his => simp [ih his, hi.labels, List.range'_succ]

end

theorem firstRepeat_eq_none {seen : List Text} {ns : List Name} (h : (ns.map Name.text).Nodup)
    (hseen : ∀ n ∈ ns, n.text ∉ seen) : firstRepeat seen ns = none := by
  induction ns generalizing seen with
  | nil => rfl
  | cons n ns ih =>
      rw [List.map_cons, List.nodup_cons] at h
      rw [List.forall_mem_cons] at hseen
      rw [firstRepeat, if_neg hseen.1]
      refine ih h.2 fun n' hn' => ?_
      rw [List.mem_cons, not_or]
      exact ⟨fun he => h.1 (he ▸ List.mem_map_of_mem hn'), hseen.2 n' hn'⟩

theorem firstUndefined_eq_none {labels : List Text} {body : List Stmt}
    (h : ∀ s ∈ body, ∀ l ∈ s.action.jumpLabel?, l ∈ labels) :
    firstUndefined labels body = none := by
  induction body with
  | nil => rfl
  | cons s body ih =>
      rw [List.forall_mem_cons] at h
      rw [firstUndefined]
      split
      case h_1 l hl => rw [if_pos (h.1 l hl), ih h.2]
      case h_2 => exact ih h.2

theorem numerals_items {m : Method} {ss : List (Stmt × Nat)} {is : List Item}
    (h : List.Forall₂ (Item.StandsFor m) ss is) :
    ∀ n ∈ is.flatMap fun i => i.statement.numerals, n.tooLong = false := by
  induction h with
  | nil => simp
  | cons hi _ ih =>
      rw [List.flatMap_cons, List.forall_mem_append]
      exact ⟨hi.statement.short, ih⟩

theorem flatMap_marks {m : Method} (hm : m.Readable) :
    (List.range' 0 m.body.length).flatMap m.marks = m.labels.entries :=
  gather_eq_self hm.ordered fun l hl => ⟨Nat.zero_le _, by simpa using (hm.labels l hl).2⟩

section

variable {m : Method} {d : Decl} (hd : d.StandsFor m) (hm : m.Readable) (text file : Text)
include hd hm

/-- A declaration that stands for a method is lowered to it. -/
theorem Decl.StandsFor.sameButLines : m.SameButLines (d.method text) := by
  refine ⟨hd.name, ?_, ?_, ?_⟩
  · rw [Decl.method, hd.name]
    exact hd.params
  · rw [Decl.method, hd.name, Method.map_action_of]
    exact (actions_lowerItems hd.items 0).trans (by rw [List.zipIdx_map_fst])
  · rw [Decl.method, hd.name, labelPositions_lowerItems hd.items 0, flatMap_marks hm,
      Assoc.ofList_entries]
    rfl

theorem Decl.StandsFor.fault?_eq_none : d.fault? text file = none := by
  have hsame := hd.sameButLines hm text
  have hparams : (d.params.map Name.text).Nodup := by
    refine List.Nodup.of_map (Var.mk m.name) ?_
    rw [List.map_map]
    exact hd.params ▸ hm.distinct
  have hlabels : ((d.items.flatMap Item.labels).map Name.text).Nodup := by
    rw [labels_items hd.items, flatMap_marks hm]
    exact m.labels.nodup
  have htargets : ∀ s ∈ (d.method text).body, ∀ l ∈ s.action.jumpLabel?,
      l ∈ (d.method text).labels.keys := by
    intro s hs
    have hmem : s.action ∈ m.body.map Stmt.action := hsame.actions ▸ List.mem_map_of_mem hs
    obtain ⟨s', hs', heq⟩ := List.mem_map.mp hmem
    rw [← heq, hsame.labels]
    exact hm.targets s' hs'
  have hnoParam : firstRepeat [] d.params = none := firstRepeat_eq_none hparams (by simp)
  have hnoLabel : firstRepeat [] (d.items.flatMap Item.labels) = none :=
    firstRepeat_eq_none hlabels (by simp)
  simp only [Decl.fault?, hnoParam, hnoLabel, firstUndefined_eq_none htargets]

end

theorem exists_lowerDecls {ms : List Method} {ds : List Decl}
    (h : List.Forall₂ Decl.StandsFor ms ds) (hms : ∀ m ∈ ms, m.Readable) (text file : Text)
    {p : Program}
    (hp : (p.methods.map Method.name ++ ms.map Method.name).Nodup) :
    ∃ q ns, lowerDecls text file p ds = (q, none) ∧ q.methods = p.methods ++ ns ∧
      List.Forall₂ Method.SameButLines ms ns := by
  induction h generalizing p with
  | nil => exact ⟨p, [], rfl, (List.append_nil _).symm, .nil⟩
  | @cons m d ms ds hd _ ih =>
      rw [List.forall_mem_cons] at hms
      have hsame := hd.sameButLines hms.1 text
      have hnew : (d.method text).name ∉ p.methods.map Method.name := by
        rw [hsame.name]
        rw [List.map_cons, List.nodup_append] at hp
        exact fun hmem => hp.2.2 _ hmem _ List.mem_cons_self rfl
      obtain ⟨p', hadd, hmethods⟩ : ∃ p', p.add? (d.method text) = some p' ∧
          p'.methods = p.methods ++ [d.method text] := ⟨_, dif_neg hnew, rfl⟩
      have hp' : (p'.methods.map Method.name ++ ms.map Method.name).Nodup := by
        rw [hmethods, List.map_append, List.append_assoc, List.map_singleton, hsame.name]
        exact hp
      obtain ⟨q, ns, hlower, hq, hns⟩ := ih hms.2 hp'
      refine ⟨q, d.method text :: ns, ?_, ?_, .cons hsame hns⟩
      · simp only [lowerDecls, hd.fault?_eq_none hms.1 text file, hadd, hlower]
      · rw [hq, hmethods, List.append_assoc]
        rfl

theorem short_decls {ms : List Method} {ds : List Decl} (h : List.Forall₂ Decl.StandsFor ms ds) :
    (ds.any fun d => d.numerals.any Numeral.tooLong) = false := by
  induction h with
  | nil => rfl
  | cons hd _ ih =>
      rw [List.any_cons, ih, Bool.or_false, List.any_eq_false]
      intro n hn
      simp [numerals_items hd.items n hn]

end Source

/-- A program whose names can be read is read back from any text of it: the same methods in the
same order, with the same parameters, statements and labels. What `render` gives is such a text. -/
theorem parse_of_writes (p : Program) (hp : ∀ m ∈ p.methods, m.Readable) (file : Text) :
    p.Writes p.render ∧ ∀ t, p.Writes t →
      ∃ q, Source.parse t file = .ok q ∧ List.Forall₂ Method.SameButLines p.methods q.methods := by
  refine ⟨p.writes_render, fun t ht => ?_⟩
  obtain ⟨ds, hread, hds⟩ := exists_readDecls hp ht
  obtain ⟨q, ns, hlower, hq, hns⟩ := exists_lowerDecls hds hp t file (p := .empty) p.distinct
  obtain rfl : q.methods = ns := hq
  refine ⟨q, ?_, hns⟩
  simp only [Source.parse, Source.read, hread, short_decls hds, hlower]
  rfl

/-- Names that start with keywords, operators that start like others or like a comment, negative
numbers, several labels on one statement, and a method without parameters and statements. -/
def trickyNames : Program :=
  let f : Text := "method_"
  let v := fun name : Text => Var.mk f name
  ⟨[.of f [v "iffy", v "_"]
      [⟨7, .literal (v "return1") (-120)⟩, ⟨7, .binary (v "x") .div (v "iffy") (v "_")⟩,
        ⟨0, .branch .lt (v "x") (v "return1") "gotoEnd"⟩,
        ⟨0, .binary (v "nope") .shl (v "x") (v "x")⟩, ⟨0, .jump "nop2"⟩,
        ⟨0, .call "ret" [v "nope", v "_"] (some (v "x"))⟩, ⟨0, .call "ret" [] none⟩,
        ⟨0, .copy (v "_") (v "x")⟩, ⟨0, .nop "nop"⟩, ⟨0, .ret none⟩, ⟨0, .ret (some (v "x"))⟩]
      ⟨[("nop2", 1), ("L", 8), ("gotoEnd", 8)], by decide⟩,
    .of "ret" [] [] .empty], by decide⟩

theorem parse_of_writes_sample :
    (∀ m ∈ trickyNames.methods, m.Readable) ∧
      ∃ q, Source.parse trickyNames.render "" = .ok q ∧
        List.Forall₂ Method.SameButLines trickyNames.methods q.methods := by
  have hreadable : ∀ m ∈ trickyNames.methods, m.Readable := by decide +kernel
  have h := parse_of_writes trickyNames hreadable ""
  exact ⟨hreadable, h.2 _ h.1⟩

end ConstFlow
