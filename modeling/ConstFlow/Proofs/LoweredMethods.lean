import Mathlib.Data.List.Forall2
import Mathlib.Data.List.Nodup
import ConstFlow.Proofs.SourceTrees

/-!
# What methods are lowered to

The body of a method is made of blocks, one for each item. A block has a temporary assigned for each
literal operand of its statement, and then one action that does the work, reading variables only
(`exists_lowerStatement`). Which action that is, once the operands are in variables, is the relation
`Statement.Reads`; it knows nothing of temporaries.

A label marks the start of the block of its item (`mem_labelPositions_iff`), and the methods of a
text that is accepted passed all checks (`of_parse`).
-/

namespace ConstFlow.Source

/-! ## Statements -/

/-- The operands of a statement that have to be in variables. -/
def Statement.operands : Statement → List Operand
  | .pass | .jump _ | .ret none | .assign _ (.operand _) => []
  | .ret (some o) => [o]
  | .branch _ l r _ | .assign _ (.binary _ l r) => [l, r]
  | .assign _ (.call c) | .call c => c.args

/-- What a statement of a method does, when its operands are in these variables. -/
inductive Statement.Reads (method : Text) : Statement → List Var → Action → Prop where
  | pass : Reads method .pass [] .pass
  | jump (l : Name) : Reads method (.jump l) [] (.jump l.text)
  | bareRet : Reads method (.ret none) [] (.ret none)
  | ret (o : Operand) (x : Var) : Reads method (.ret (some o)) [x] (.ret (some x))
  | branch (op : Operator) (l r : Operand) (label : Name) (x y : Var) :
      Reads method (.branch op l r label) [x, y] (.branch op x y label.text)
  | literal (target : Name) (n : Numeral) :
      Reads method (.assign target (.operand (.literal n))) []
        (.literal ⟨method, target.text⟩ n.value)
  | copy (target n : Name) :
      Reads method (.assign target (.operand (.name n))) []
        (.copy ⟨method, target.text⟩ ⟨method, n.text⟩)
  | binary (target : Name) (op : Operator) (l r : Operand) (x y : Var) :
      Reads method (.assign target (.binary op l r)) [x, y] (.binary ⟨method, target.text⟩ op x y)
  | assignCall (target : Name) (c : Call) (xs : List Var) :
      Reads method (.assign target (.call c)) xs
        (.call c.callee.text xs (some ⟨method, target.text⟩))
  | call (c : Call) (xs : List Var) :
      Reads method (.call c) xs (.call c.callee.text xs none)

section

variable {method : Text} {k : Nat}

theorem spillAll_one (o : Operand) : spillAll method k [o] =
    ((spill method k o).1, [(spill method k o).2.1], (spill method k o).2.2) := by
  simp [spillAll]

theorem spillAll_two (l r : Operand) : spillAll method k [l, r] =
    let x := spill method k l
    let y := spill method x.2.2 r
    (x.1 ++ y.1, [x.2.1, y.2.1], y.2.2) := by
  simp [spillAll]

/-- A statement is lowered to assignments for its literal operands, and one action. -/
theorem exists_lowerStatement (method : Text) (k : Nat) (s : Statement) :
    ∃ last, s.Reads method (spillAll method k s.operands).2.1 last ∧
      lowerStatement method k s =
        ((spillAll method k s.operands).1 ++ [last], (spillAll method k s.operands).2.2) := by
  cases s with
  | pass => exact ⟨_, .pass, rfl⟩
  | jump l => exact ⟨_, .jump l, rfl⟩
  | ret value =>
      cases value with
      | none => exact ⟨_, .bareRet, rfl⟩
      | some o =>
          rw [Statement.operands, spillAll_one]
          exact ⟨_, .ret o _, rfl⟩
  | branch op l r label =>
      rw [Statement.operands, spillAll_two]
      exact ⟨_, .branch op l r label _ _, rfl⟩
  | assign target rhs =>
      cases rhs with
      | call c => exact ⟨_, .assignCall target c _, rfl⟩
      | binary op l r =>
          rw [Statement.operands, spillAll_two]
          exact ⟨_, .binary target op l r _ _, rfl⟩
      | operand o =>
          cases o with
          | name n => exact ⟨_, .copy target n, rfl⟩
          | literal n => exact ⟨_, .literal target n, rfl⟩
  | call c => exact ⟨_, .call c _, rfl⟩

/-! ## Temporaries -/

/-- The literals among operands. -/
def literals (os : List Operand) : List Numeral := os.flatMap Operand.numerals

theorem spillAll_actions (os : List Operand) (k : Nat) :
    (spillAll method k os).1 =
      ((literals os).zipIdx k).map fun n => .literal (temp method n.2) n.1.value := by
  induction os generalizing k with
  | nil => rfl
  | cons o os ih =>
      cases o with
      | name n => exact ih k
      | literal n => exact congrArg (Action.literal (temp method k) n.value :: ·) (ih (k + 1))

theorem spillAll_next (os : List Operand) (k : Nat) :
    (spillAll method k os).2.2 = k + (literals os).length := by
  induction os generalizing k with
  | nil => rfl
  | cons o os ih =>
      cases o with
      | name n => exact ih k
      | literal n =>
          refine (ih (k + 1)).trans ?_
          rw [Nat.add_right_comm]
          rfl

/-- Operands are read from variables of the source and from the temporaries of this statement. -/
theorem mem_spillAll_vars {os : List Operand} {k : Nat} {x : Var}
    (h : x ∈ (spillAll method k os).2.1) :
    (∃ n ∈ os.flatMap Operand.variables, x = ⟨method, n.text⟩) ∨
      ∃ j, k ≤ j ∧ j < k + (literals os).length ∧ x = temp method j := by
  induction os generalizing k with
  | nil => cases h
  | cons o os ih =>
      cases o with
      | name n =>
          rcases List.mem_cons.mp h with rfl | h
          · exact Or.inl ⟨n, List.mem_cons_self, rfl⟩
          · rcases ih h with ⟨n', hn', rfl⟩ | hj
            · exact Or.inl ⟨n', List.mem_cons_of_mem n hn', rfl⟩
            · exact Or.inr hj
      | literal n =>
          have hlen : (literals (.literal n :: os)).length = (literals os).length + 1 := rfl
          rcases List.mem_cons.mp h with rfl | h
          · exact Or.inr ⟨k, Nat.le_refl k, by omega, rfl⟩
          · rcases ih h with hn | ⟨j, hkj, hj, rfl⟩
            · exact Or.inl hn
            · exact Or.inr ⟨j, by omega, by omega, rfl⟩

/-- The variables that an action mentions. -/
def mentioned (a : Action) : List Var := a.target?.toList ++ a.uses

theorem Statement.Reads.mentioned {s : Statement} {xs : List Var} {a : Action}
    (h : s.Reads method xs a) {x : Var} (hx : x ∈ Source.mentioned a) :
    (∃ n ∈ s.variables, x = ⟨method, n.text⟩) ∨ x ∈ xs := by
  cases h <;> simp only [Source.mentioned, Action.target?, Action.uses, Action.pass,
    Option.toList_some, Option.toList_none, List.nil_append, List.cons_append, List.mem_cons,
    List.not_mem_nil, or_false] at hx
  case ret => exact Or.inr (List.mem_singleton.mpr hx)
  case branch => exact Or.inr (by simpa using hx)
  case literal target n => exact Or.inl ⟨target, List.mem_cons_self, hx⟩
  case copy target n =>
    rcases hx with rfl | rfl
    · exact Or.inl ⟨target, List.mem_cons_self, rfl⟩
    · exact Or.inl ⟨n, List.mem_cons_of_mem _ List.mem_cons_self, rfl⟩
  case binary target op l r x y =>
    rcases hx with rfl | hx
    · exact Or.inl ⟨target, List.mem_cons_self, rfl⟩
    · exact Or.inr (by simpa using hx)
  case assignCall target c =>
    rcases hx with rfl | hx
    · exact Or.inl ⟨target, List.mem_cons_self, rfl⟩
    · exact Or.inr hx
  case call => exact Or.inr hx

theorem variables_operands (s : Statement) :
    ∀ n ∈ s.operands.flatMap Operand.variables, n ∈ s.variables := by
  intro n hn
  cases s with
  | ret value =>
      cases value with
      | none => exact hn
      | some o => simpa [Statement.operands, Statement.variables] using hn
  | assign target rhs =>
      cases rhs with
      | operand o => simp [Statement.operands] at hn
      | binary op l r =>
          refine List.mem_cons_of_mem target ?_
          simpa [Statement.operands, Rhs.variables] using hn
      | call c => exact List.mem_cons_of_mem target hn
  | pass => exact hn
  | jump l => exact hn
  | branch op l r label => simpa [Statement.operands, Statement.variables] using hn
  | call c => exact hn

/-- What a lowered statement mentions are the variables of the statement, and its temporaries. -/
theorem mentioned_lowerStatement {s : Statement} {a : Action}
    (ha : a ∈ (lowerStatement method k s).1) {x : Var} (hx : x ∈ mentioned a) :
    (∃ n ∈ s.variables, x = ⟨method, n.text⟩) ∨
      ∃ j, k ≤ j ∧ j < k + (literals s.operands).length ∧ x = temp method j := by
  obtain ⟨last, hreads, hlower⟩ := exists_lowerStatement method k s
  rw [hlower, List.mem_append, List.mem_singleton] at ha
  rcases ha with ha | rfl
  · rw [spillAll_actions] at ha
    obtain ⟨n, hn, rfl⟩ := List.mem_map.mp ha
    obtain rfl : x = temp method n.2 := by simpa [mentioned, Action.target?, Action.uses] using hx
    exact Or.inr ⟨n.2, List.le_snd_of_mem_zipIdx hn, by
      simpa [Nat.add_comm] using List.snd_lt_of_mem_zipIdx hn, rfl⟩
  · rcases hreads.mentioned hx with h | h
    · exact Or.inl h
    · rcases mem_spillAll_vars h with ⟨n, hn, rfl⟩ | h
      · exact Or.inl ⟨n, variables_operands s n hn, rfl⟩
      · exact Or.inr h

end

/-! ## Items -/

/-- A block that an item is lowered to, for some number of the first temporary. -/
def Item.LowersTo (text method : Text) (i : Item) (block : List Instr) : Prop :=
  ∃ k, block = (lowerStatement method k i.statement).1.map (⟨Text.lineAt text i.offset, ·⟩)

/-- Every statement of a block stands on the line of an item. -/
def LinedUp (text : Text) (i : Item) (block : List Instr) : Prop :=
  ∀ s ∈ block, s.line = Text.lineAt text i.offset

theorem exists_left_of_mem {α β : Type} {R : α → β → Prop} {as : List α} {bs : List β}
    (h : List.Forall₂ R as bs) {b : β} (hb : b ∈ bs) : ∃ a ∈ as, R a b := by
  induction h with
  | nil => cases hb
  | @cons a b' as bs hab _ ih =>
      rcases List.mem_cons.mp hb with rfl | hb
      · exact ⟨a, List.mem_cons_self, hab⟩
      · obtain ⟨a', ha', hr⟩ := ih hb
        exact ⟨a', List.mem_cons_of_mem a ha', hr⟩

theorem lowersTo_lowerItems (text method : Text) (k : Nat) (items : List Item) :
    List.Forall₂ (Item.LowersTo text method) items (lowerItems text method k items) := by
  induction items generalizing k with
  | nil => exact .nil
  | cons i items ih => exact .cons ⟨k, rfl⟩ (ih _)

namespace Item.LowersTo

variable {text method : Text} {i : Item} {block : List Instr} (h : i.LowersTo text method block)
include h

theorem ne_nil : block ≠ [] := by
  obtain ⟨k, rfl⟩ := h
  obtain ⟨last, -, hlower⟩ := exists_lowerStatement method k i.statement
  rw [hlower]
  simp

theorem linedUp : LinedUp text i block := by
  intro s hs
  obtain ⟨k, rfl⟩ := h
  obtain ⟨a, -, rfl⟩ := List.mem_map.mp hs
  rfl

end Item.LowersTo

/-! ## Labels -/

/-- The position at which a block starts, in the body that the blocks make up. -/
def start (blocks : List (List Instr)) (j : Nat) : Nat := (blocks.take j).flatten.length

theorem start_succ (block : List Instr) (blocks : List (List Instr)) (j : Nat) :
    start (block :: blocks) (j + 1) = block.length + start blocks j := by
  simp [start]

theorem start_mono {blocks : List (List Instr)} {i j : Nat} (h : i ≤ j) :
    start blocks i ≤ start blocks j := by
  obtain ⟨n, rfl⟩ := Nat.exists_eq_add_of_le h
  simp [start, List.take_add]

theorem start_next {blocks : List (List Instr)} {j : Nat} {block : List Instr}
    (h : blocks[j]? = some block) : start blocks (j + 1) = start blocks j + block.length := by
  simp [start, List.take_add_one, h]

theorem start_length (blocks : List (List Instr)) :
    start blocks blocks.length = blocks.flatten.length := by
  rw [start, List.take_length]

/-- A label that is recorded stands in front of an item, and marks the start of its block. -/
theorem mem_labelPositions_iff {items : List Item} {blocks : List (List Instr)} {pos q : Nat}
    {l : Text} :
    (l, q) ∈ labelPositions pos items blocks ↔
      ∃ j i block, items[j]? = some i ∧ blocks[j]? = some block ∧ l ∈ i.labels.map Name.text ∧
        q = pos + start blocks j := by
  induction items generalizing blocks pos with
  | nil => simp [labelPositions]
  | cons i items ih =>
      cases blocks with
      | nil => simp [labelPositions]
      | cons block blocks =>
          rw [labelPositions, List.mem_append, ih]
          constructor
          · rintro (h | ⟨j, i', block', hi', hb', hl, rfl⟩)
            · obtain ⟨n, hn, he⟩ := List.mem_map.mp h
              obtain ⟨rfl, rfl⟩ := Prod.mk.inj he
              exact ⟨0, i, block, rfl, rfl, List.mem_map_of_mem hn, rfl⟩
            · exact ⟨j + 1, i', block', hi', hb', hl, by rw [start_succ, Nat.add_assoc]⟩
          · rintro ⟨j, i', block', hi', hb', hl, rfl⟩
            cases j with
            | zero =>
                obtain rfl := Option.some.inj hi'
                obtain ⟨n, hn, rfl⟩ := List.mem_map.mp hl
                exact Or.inl (List.mem_map.mpr ⟨n, hn, rfl⟩)
            | succ j =>
                exact Or.inr ⟨j, i', block', hi', hb', hl, by rw [start_succ, Nat.add_assoc]⟩

theorem map_fst_labelPositions {items : List Item} {blocks : List (List Instr)} {pos : Nat}
    (h : items.length = blocks.length) :
    (labelPositions pos items blocks).map Prod.fst = (items.flatMap Item.labels).map Name.text := by
  induction items generalizing blocks pos with
  | nil => rfl
  | cons i items ih =>
      cases blocks with
      | nil => cases h
      | cons block blocks =>
          rw [labelPositions, List.map_append, List.flatMap_cons, List.map_append, List.map_map,
            ih (Nat.succ.inj h)]
          rfl

/-- The blocks of a method. -/
def Decl.blocks (text : Text) (d : Decl) : List (List Instr) :=
  lowerItems text d.name.text 0 d.items

theorem Decl.lowersTo_blocks (text : Text) (d : Decl) :
    List.Forall₂ (Item.LowersTo text d.name.text) d.items (d.blocks text) :=
  lowersTo_lowerItems text d.name.text 0 d.items

theorem Decl.map_instr_body (text : Text) (d : Decl) :
    (d.method text).body.map Stmt.instr = (d.blocks text).flatten := Method.map_instr_of ..

theorem Decl.length_body (text : Text) (d : Decl) :
    (d.method text).body.length = (d.blocks text).flatten.length := by
  rw [← d.map_instr_body text, List.length_map]

section

variable {text : Text} {d : Decl}

/-- Every statement of a body comes from an item. -/
theorem exists_item_of_mem_body {s : Stmt} (hs : s ∈ (d.method text).body) :
    ∃ i ∈ d.items, ∃ k, s.line = Text.lineAt text i.offset ∧
      s.action ∈ (lowerStatement d.name.text k i.statement).1 := by
  have hs : s.instr ∈ (d.blocks text).flatten := d.map_instr_body text ▸ List.mem_map_of_mem hs
  obtain ⟨block, hblock, hs⟩ := List.mem_flatten.mp hs
  obtain ⟨i, hi, k, rfl⟩ := exists_left_of_mem (d.lowersTo_blocks text) hblock
  obtain ⟨a, ha, hinstr⟩ := List.mem_map.mp hs
  obtain ⟨hline, rfl⟩ := Instr.mk.inj hinstr
  exact ⟨i, hi, k, hline.symm, ha⟩

theorem Decl.blocks_ne_nil (text : Text) (d : Decl) : ∀ b ∈ d.blocks text, b ≠ [] := by
  intro b hb
  obtain ⟨i, -, hlowers⟩ := exists_left_of_mem (d.lowersTo_blocks text) hb
  exact hlowers.ne_nil

end

/-! ## Accepted texts -/

theorem nodup_of_firstRepeat {seen : List Text} {ns : List Name} (h : firstRepeat seen ns = none) :
    (ns.map Name.text).Nodup ∧ ∀ n ∈ ns, n.text ∉ seen := by
  induction ns generalizing seen with
  | nil => exact ⟨.nil, by simp⟩
  | cons n ns ih =>
      rw [firstRepeat] at h
      split at h
      · cases h
      · rename_i hn
        obtain ⟨hnd, hseen⟩ := ih h
        rw [List.map_cons, List.nodup_cons, List.forall_mem_cons]
        refine ⟨⟨fun hmem => ?_, hnd⟩, hn, fun n' hn' hmem => ?_⟩
        · obtain ⟨n', hn', he⟩ := List.mem_map.mp hmem
          exact hseen n' hn' (he ▸ List.mem_cons_self)
        · exact hseen n' hn' (List.mem_cons_of_mem _ hmem)

theorem mem_of_firstUndefined {labels : List Text} {body : List Stmt}
    (h : firstUndefined labels body = none) :
    ∀ s ∈ body, ∀ l ∈ s.action.jumpLabel?, l ∈ labels := by
  induction body with
  | nil => simp
  | cons s body ih =>
      rw [firstUndefined] at h
      rw [List.forall_mem_cons]
      split at h
      · rename_i l hl
        split at h
        · rename_i hmem
          refine ⟨fun l' hl' => ?_, ih h⟩
          rw [hl] at hl'
          exact Option.some.inj hl' ▸ hmem
        · cases h
      · rename_i hnone
        refine ⟨fun l hl => ?_, ih h⟩
        rw [hnone] at hl
        cases hl

/-- A method that passes all checks that it has to pass by itself. -/
structure Decl.Passes (text : Text) (d : Decl) : Prop where
  params : (d.params.map Name.text).Nodup
  labels : ((d.items.flatMap Item.labels).map Name.text).Nodup
  targets : ∀ s ∈ (d.method text).body, ∀ l ∈ s.action.jumpLabel?,
    l ∈ (d.method text).labels.keys

theorem Decl.passes_of_fault? {text file : Text} {d : Decl} (h : d.fault? text file = none) :
    d.Passes text := by
  unfold Decl.fault? at h
  split at h
  · cases h
  · rename_i hparams
    split at h
    · cases h
    · rename_i hlabels
      simp only at h
      split at h
      · cases h
      · rename_i htargets
        exact ⟨(nodup_of_firstRepeat hparams).1, (nodup_of_firstRepeat hlabels).1,
          mem_of_firstUndefined htargets⟩

/-- Where no label is repeated, all are kept. -/
theorem Decl.entries_labels {d : Decl} (text : Text)
    (h : ((d.items.flatMap Item.labels).map Name.text).Nodup) :
    (d.method text).labels.entries = labelPositions 0 d.items (d.blocks text) := by
  refine Assoc.entries_foldl_set _ Assoc.empty ?_
  have hlen := (d.lowersTo_blocks text).length_eq
  rw [Assoc.empty, List.nil_append]
  exact (map_fst_labelPositions hlen).symm ▸ h

theorem Decl.Passes.entries_labels {text : Text} {d : Decl} (h : d.Passes text) :
    (d.method text).labels.entries = labelPositions 0 d.items (d.blocks text) :=
  d.entries_labels text h.labels

theorem of_lowerDecls {text file : Text} {ds : List Decl} {p q : Program}
    (h : lowerDecls text file p ds = (q, none)) :
    q.methods = p.methods ++ ds.map (Decl.method text) ∧
      ∀ d ∈ ds, d.fault? text file = none := by
  induction ds generalizing p with
  | nil =>
      obtain ⟨rfl, -⟩ := Prod.mk.inj h
      exact ⟨by simp, by simp⟩
  | cons d ds ih =>
      rw [lowerDecls] at h
      split at h
      · cases h
      · rename_i hfault
        split at h
        · cases h
        · rename_i p' hadd
          obtain ⟨hmethods, hall⟩ := ih h
          have hp' : p'.methods = p.methods ++ [d.method text] := by
            unfold Program.add? at hadd
            split at hadd
            · cases hadd
            · rw [← Option.some.inj hadd]
          rw [hmethods, hp', List.append_assoc]
          exact ⟨rfl, List.forall_mem_cons.mpr ⟨hfault, hall⟩⟩

/-- An accepted text is read as methods that pass all checks, and its program has what these are
lowered to, in the same order. -/
theorem of_parse {text file : Text} {p : Program} (h : parse text file = .ok p) :
    ∃ ds, readDecls text = .ok ds ∧ p.methods = ds.map (Decl.method text) ∧
      ∀ d ∈ ds, d.Passes text := by
  unfold parse read at h
  split at h
  · cases h
  · rename_i ds hread
    split at h
    · cases h
    · split at h
      · rename_i q hlower
        obtain rfl := Except.ok.inj h
        obtain ⟨hmethods, hall⟩ := of_lowerDecls hlower
        exact ⟨ds, hread, hmethods, fun d hd => Decl.passes_of_fault? (hall d hd)⟩
      · cases h

end ConstFlow.Source

namespace ConstFlow.Sample

/-- A loop back to a label whose item has a literal, with literals before it and after it. -/
def counting : Text :=
  "method main(n) {
     i = 0;
     top: again: if i >= 10 goto done;
     i = step(i, 2, -1); goto top;
     done: r = 0 - n;
     return r;
   }
   method step(x, y, z) { z = x + y; return 1; }"

theorem parse_counting : ∃ p, Source.parse counting "counting.ir" = .ok p ∧
    p.methods.map Method.name = ["main", "step"] := by
  have h : (Source.parse counting "counting.ir").toOption.map
      (fun p => p.methods.map Method.name) = some (["main", "step"] : List Text) := by
    decide +kernel
  cases hp : Source.parse counting "counting.ir" with
  | error e =>
      rw [hp] at h
      cases h
  | ok p =>
      rw [hp] at h
      exact ⟨p, rfl, Option.some.inj h⟩

end ConstFlow.Sample
