import Mathlib.Data.List.Nodup
import ConstFlow.Proofs.MethodRuns
import ConstFlow.Proofs.VisitBound

/-!
# Literals in temporaries

A literal operand is put in a temporary first, so a method has more statements than items, and all
positions after the first literal shift. This changes nothing that can be seen. The proof is a
simulation: a run of the source before an item and a run of the lowered method at the start of the
block of that item `Match` if they have shown the same and agree on the variables of the source. One
step of the source is then as many steps of the lowered method as the block is long: temporaries
are assigned first, which no variable of the source notices (`spillAll_run`), and then the same move
is made (`Statement.Reads.move_eq`).
-/

namespace ConstFlow.Source

/-! ## Temporaries -/

theorem temp_injective (method : Text) : Function.Injective (temp method) := by
  intro j k h
  have htext : Text.ofString "%intconst" ++ Text.ofString (toString j) =
      Text.ofString "%intconst" ++ Text.ofString (toString k) := congrArg Var.name h
  exact Text.eq_of_ofString_toString_eq (List.append_cancel_left htext)

/-- A percent sign tells temporaries from the variables of the source. -/
def isTemp (x : Var) : Bool := x.name.head? = some (.scalar '%')

theorem isTemp_temp (method : Text) (k : Nat) : isTemp (temp method k) = true := by
  simp [isTemp, temp, Text.ofString, Text.ofChars]

theorem Name.Lettered.not_isTemp {n : Name} (h : n.Lettered) (method : Text) :
    isTemp ⟨method, n.text⟩ = false := by
  obtain ⟨c, t, ht, hc⟩ := h
  have hne : c ≠ '%' := by
    rintro rfl
    cases hc
  simpa [isTemp, ht] using hne

theorem Name.Lettered.ne_temp {n : Name} (h : n.Lettered) (method : Text) (k : Nat) :
    (⟨method, n.text⟩ : Var) ≠ temp method k := by
  intro he
  have hnot := h.not_isTemp method
  rw [he, isTemp_temp] at hnot
  cases hnot

/-! ## Values of operands -/

section

variable {method : Text}

theorem map_value_congr {os : List Operand} {env env' : Env}
    (h : ∀ n ∈ os.flatMap Operand.variables, env ⟨method, n.text⟩ = env' ⟨method, n.text⟩) :
    os.map (Operand.value method env) = os.map (Operand.value method env') := by
  refine List.map_congr_left fun o ho => ?_
  cases o with
  | literal n => rfl
  | name n => exact h n (List.mem_flatMap.mpr ⟨_, ho, List.mem_cons_self⟩)

/-- After the assignments that come first, the operands are in their variables, and only temporaries
from the next one on have changed. -/
theorem spillAll_run (method : Text) {os : List Operand}
    (hos : ∀ n ∈ os.flatMap Operand.variables, n.Lettered) (k : Nat) (env : Env) :
    (spillAll method k os).2.1.map ((spillAll method k os).1.foldl (fun e a => a.run e) env) =
        os.map (Operand.value method env) ∧
      ∀ x, (∀ j, k ≤ j → x ≠ temp method j) →
        (spillAll method k os).1.foldl (fun e a => a.run e) env x = env x := by
  induction os generalizing k env with
  | nil => exact ⟨rfl, fun _ _ => rfl⟩
  | cons o os ih =>
      rw [List.flatMap_cons, List.forall_mem_append] at hos
      cases o with
      | name n =>
          obtain ⟨hvalues, hother⟩ := ih hos.2 k env
          have hn := hos.1 n List.mem_cons_self
          exact ⟨congrArg₂ List.cons (hother _ fun j _ => hn.ne_temp method j) hvalues, hother⟩
      | literal n =>
          let env₁ := Function.update env (temp method k) (some (.wrap n.value))
          obtain ⟨hvalues, hother⟩ := ih hos.2 (k + 1) env₁
          have hself : env₁ (temp method k) = some (.wrap n.value) := Function.update_self ..
          have hsame : os.map (Operand.value method env₁) = os.map (Operand.value method env) :=
            map_value_congr fun n' hn' =>
              Function.update_of_ne ((hos.2 n' hn').ne_temp method k) ..
          refine ⟨congrArg₂ List.cons ((hother _ fun j hj he => ?_).trans hself)
            (hvalues.trans hsame), fun x hx => ?_⟩
          · have := temp_injective method he
            omega
          · rw [← Function.update_of_ne (hx k (Nat.le_refl k)) (some (.wrap n.value)) env]
            exact hother x fun j hj => hx j (by omega)

/-- An action that reads the operands of a statement from variables does what the statement does. -/
theorem Statement.Reads.move_eq {s : Statement} {xs : List Var} {a : Action}
    (h : s.Reads method xs a) {env env' : Env}
    (hxs : xs.map env' = s.operands.map (Operand.value method env))
    (hvars : ∀ n ∈ s.variables, env' ⟨method, n.text⟩ = env ⟨method, n.text⟩) :
    a.move env' = s.move method env := by
  cases h with
  | pass => rfl
  | jump l => rfl
  | bareRet => rfl
  | literal target n => rfl
  | ret o x =>
      have hx : env' x = o.value method env := (List.cons.inj hxs).1
      simp [Action.move, Statement.move, hx]
  | branch op l r label x y =>
      obtain ⟨hx, hxs⟩ := List.cons.inj hxs
      have hy : env' y = r.value method env := (List.cons.inj hxs).1
      simp [Action.move, Statement.move, hx, hy]
  | copy target n =>
      have hn := hvars n (List.mem_cons_of_mem _ List.mem_cons_self)
      simp [Action.move, Statement.move, Operand.value, hn]
  | binary target op l r x y =>
      obtain ⟨hx, hxs⟩ := List.cons.inj hxs
      have hy : env' y = r.value method env := (List.cons.inj hxs).1
      simp [Action.move, Statement.move, hx, hy]
  | assignCall target c xs => exact congrArg (Move.call c.callee.text · _) hxs
  | call c xs => exact congrArg (Move.call c.callee.text · _) hxs

end

/-! ## Positions of blocks -/

section

variable {blocks : List (List Instr)} {j : Nat} {block : List Instr}

theorem getElem?_flatten (h : blocks[j]? = some block) {q : Nat} (hq : q < block.length) :
    blocks.flatten[start blocks j + q]? = block[q]? := by
  obtain ⟨hj, rfl⟩ := List.getElem?_eq_some_iff.mp h
  have hflatten : blocks.flatten =
      (blocks.take j).flatten ++ (blocks[j] ++ (blocks.drop (j + 1)).flatten) := by
    rw [← List.flatten_cons, ← List.drop_eq_getElem_cons hj, ← List.flatten_append,
      List.take_append_drop]
  rw [hflatten, start, List.getElem?_append_right (Nat.le_add_right _ _),
    Nat.add_sub_cancel_left, List.getElem?_append_left hq]

/-- A place inside a block is the start of none. -/
theorem blockAt_inside (h : blocks[j]? = some block) {q : Nat} (hpos : 0 < q)
    (hq : q < block.length) : blockAt blocks (start blocks j + q) = none := by
  refine List.find?_eq_none.mpr fun i _ hi => ?_
  have hi := of_decide_eq_true hi
  have hnext := start_next h
  rcases Nat.lt_or_ge j i with hlt | hge
  · have : start blocks (j + 1) ≤ start blocks i := start_mono hlt
    omega
  · have : start blocks i ≤ start blocks j := start_mono hge
    omega

theorem blockAt_start (hne : ∀ b ∈ blocks, b ≠ []) (hj : j ≤ blocks.length) :
    blockAt blocks (start blocks j) = some j := by
  refine List.find?_range_eq_some.mpr ⟨decide_eq_true rfl, List.mem_range.mpr (by omega), ?_⟩
  intro i hi
  have hblock : blocks[i]? = some (blocks[i]) := List.getElem?_eq_getElem (by omega)
  have hpos := List.length_pos_iff.mpr (hne _ (List.mem_of_getElem? hblock))
  have hlt := start_next hblock
  have : start blocks (i + 1) ≤ start blocks j := start_mono hi
  simp
  omega

end

/-! ## The simulation -/

section

variable {text : Text} {d : Decl} {w : World} {s t : Code.State}

/-- Two runs that have shown the same, and agree on the variables of the source. -/
structure Alike (d : Decl) (s t : Code.State) : Prop where
  env : ∀ x ∈ d.vars, t.env x = s.env x
  shown : t.shown = s.shown

/-- A run of the source before an item, and a run of the lowered method before its block. -/
structure Match (text : Text) (d : Decl) (s t : Code.State) : Prop extends Alike d s t where
  pos : t.pos = s.pos.map (start (d.blocks text))
  bound : ∀ j ∈ s.pos, j ≤ d.items.length

theorem Decl.length_blocks (text : Text) (d : Decl) : (d.blocks text).length = d.items.length :=
  (d.lowersTo_blocks text).length_eq.symm

/-- Labels lead to the starts of the items that they stand in front of. -/
theorem Decl.Passes.target?_eq (hd : d.Passes text) (l : Text) :
    (d.lowered text).target? l = (d.code.target? l).map (start (d.blocks text)) := by
  show (d.method text).labels.get? l = _
  cases hj : d.code.target? l with
  | none =>
      cases hq : (d.method text).labels.get? l with
      | none => rfl
      | some q =>
          rw [← Assoc.mem_entries_iff, hd.entries_labels, mem_labelPositions_iff] at hq
          obtain ⟨j, i, block, hi, -, hl, -⟩ := hq
          have hnot := List.findIdx?_eq_none_iff.mp hj i (List.mem_of_getElem? hi)
          exact absurd hl (of_decide_eq_false hnot)
  | some j =>
      obtain ⟨hlt, hl, -⟩ := List.findIdx?_eq_some_iff_getElem.mp hj
      have hlen : j < (d.blocks text).length := (d.length_blocks text).symm ▸ hlt
      rw [Option.map_some, ← Assoc.mem_entries_iff, hd.entries_labels, mem_labelPositions_iff]
      exact ⟨j, _, _, List.getElem?_eq_getElem hlt, List.getElem?_eq_getElem hlen,
        of_decide_eq_true hl, (Nat.zero_add _).symm⟩

theorem Alike.arrive (h : Alike d s t) {j : Nat} (hj : j ≤ d.items.length) :
    Match text d (d.code.arrive s j) ((d.lowered text).arrive t (start (d.blocks text) j)) := by
  have hmark : (d.lowered text).mark? (start (d.blocks text) j) = d.code.mark? j := by
    have hlen : j ≤ (d.blocks text).length := d.length_blocks text ▸ hj
    exact (blockAt_start (d.blocks_ne_nil text) hlen).trans (if_pos hj).symm
  have hvalues : (d.lowered text).watched.map t.env = d.code.watched.map s.env :=
    List.map_congr_left h.env
  refine ⟨⟨h.env, ?_⟩, rfl, ?_⟩
  · simp only [Code.arrive, hmark, hvalues, h.shown]
  · rintro j' hj'
    exact Option.some.inj hj' ▸ hj

theorem Alike.follow (hd : d.Passes text) (h : Alike d s t) (l : Text) :
    Match text d (d.code.follow s l) ((d.lowered text).follow t l) := by
  have htarget := hd.target?_eq l
  cases hj : d.code.target? l with
  | none =>
      rw [hj] at htarget
      simp only [Code.follow, hj, htarget, Option.map_none]
      exact ⟨⟨h.env, h.shown⟩, rfl, by simp⟩
  | some j =>
      rw [hj] at htarget
      simp only [Code.follow, hj, htarget, Option.map_some]
      have hlt := (List.findIdx?_eq_some_iff_getElem.mp hj).1
      exact h.arrive hlt.le

theorem Alike.perform (hd : d.Passes text) (h : Alike d s t) {i j : Nat} (hj : j < d.items.length)
    (hi : i + 1 = start (d.blocks text) (j + 1)) (m : Move) :
    Match text d (d.code.perform w s j m) ((d.lowered text).perform w t i m) := by
  have hset : ∀ x v, ∀ y ∈ d.vars, Function.update t.env x v y = Function.update s.env x v y := by
    intro x v y hy
    by_cases hyx : y = x
    · subst hyx
      rw [Function.update_self, Function.update_self]
    · rw [Function.update_of_ne hyx, Function.update_of_ne hyx, h.env y hy]
  cases m with
  | skip =>
      rw [Code.perform, Code.perform, hi]
      exact h.arrive hj
  | assign x v =>
      have h' : Alike d { s with env := Function.update s.env x v }
          { t with env := Function.update t.env x v } := ⟨hset x v, h.shown⟩
      rw [Code.perform, Code.perform, hi]
      exact h'.arrive hj
  | call f args receiver =>
      let v := w.result s.shown f args
      have h' : Alike d ⟨s.pos, s.env.receive receiver v, s.shown ++ [.call f args v]⟩
          ⟨t.pos, t.env.receive receiver v, t.shown ++ [.call f args v]⟩ := by
        refine ⟨?_, congrArg (· ++ [_]) h.shown⟩
        cases receiver with
        | none => exact h.env
        | some x => exact hset x v
      simp only [Code.perform, h.shown, hi]
      simpa only [h.shown] using h'.arrive hj
  | ret v => exact ⟨⟨h.env, congrArg (· ++ [_]) h.shown⟩, rfl, by simp [Code.perform]⟩
  | branch v l =>
      simp only [Code.perform, h.shown]
      split
      · exact h.follow hd l
      · exact hi ▸ h.arrive hj
  | jump l => exact h.follow hd l

/-- Assignments to temporaries, one after another inside a block, show nothing. -/
theorem iterate_literals {before : List Action} (hlit : ∀ a ∈ before, ∃ x v, a = .literal x v)
    {i : Nat} {t : Code.State} (hpos : t.pos = some i)
    (hbody : ∀ q a, before[q]? = some a →
      ((d.method text).body[i + q]?).map Stmt.action = some a)
    (hmark : ∀ q < before.length, blockAt (d.blocks text) (i + q + 1) = none) :
    ((d.lowered text).step w)^[before.length] t =
      ⟨some (i + before.length), before.foldl (fun e a => a.run e) t.env, t.shown⟩ := by
  induction before generalizing i t with
  | nil => cases t; simpa using hpos
  | cons a before ih =>
      rw [List.forall_mem_cons] at hlit
      obtain ⟨⟨x, v, rfl⟩, hlit⟩ := hlit
      have hstep : (d.lowered text).step w t =
          ⟨some (i + 1), (Action.literal x v).run t.env, t.shown⟩ := by
        obtain ⟨s, hs, hs'⟩ := Option.map_eq_some_iff.mp (hbody 0 _ rfl)
        have hmove : (d.lowered text).move? i t.env = some (.assign x (some (.wrap v))) := by
          simp only [Nat.add_zero] at hs
          simp [Decl.lowered, Method.code, hs, hs', Action.move]
        have hnone : (d.lowered text).mark? (i + 1) = none := hmark 0 (Nat.succ_pos _)
        simp [Code.step, hpos, hmove, Code.perform, Code.arrive, hnone, Action.run]
      rw [List.length_cons, Function.iterate_succ_apply, hstep, ih hlit rfl]
      · rw [Nat.add_assoc, Nat.add_comm 1]
        rfl
      · intro q a ha
        rw [Nat.add_assoc, Nat.add_comm 1]
        exact hbody (q + 1) a ha
      · intro q hq
        rw [Nat.add_assoc i 1 q, Nat.add_comm 1]
        exact hmark (q + 1) (Nat.succ_lt_succ hq)

theorem spillAll_literals (method : Text) (k : Nat) (os : List Operand) :
    ∀ a ∈ (spillAll method k os).1, ∃ x v, a = .literal x v := by
  intro a ha
  rw [spillAll_actions] at ha
  obtain ⟨n, -, rfl⟩ := List.mem_map.mp ha
  exact ⟨_, _, rfl⟩

/-- The block of an item, taken apart. -/
theorem Decl.exists_block (text : Text) (d : Decl) {j : Nat} (hj : j < d.items.length) :
    ∃ k last, (d.blocks text)[j]? =
        some (((spillAll d.name.text k d.items[j].statement.operands).1 ++ [last]).map
          (⟨Text.lineAt text d.items[j].offset, ·⟩)) ∧
      d.items[j].statement.Reads d.name.text
        (spillAll d.name.text k d.items[j].statement.operands).2.1 last := by
  have hlen : j < (d.blocks text).length := (d.length_blocks text).symm ▸ hj
  obtain ⟨k, hk⟩ := (d.lowersTo_blocks text).get hj hlen
  obtain ⟨last, hreads, hlower⟩ := exists_lowerStatement d.name.text k d.items[j].statement
  rw [List.get_eq_getElem, List.get_eq_getElem, hlower] at hk
  exact ⟨k, last, by rw [List.getElem?_eq_getElem hlen, hk], hreads⟩

theorem getElem?_body {j : Nat} {as : List Action} {line : Int}
    (h : (d.blocks text)[j]? = some (as.map (⟨line, ·⟩))) {q : Nat} {a : Action}
    (ha : as[q]? = some a) :
    ((d.method text).body[start (d.blocks text) j + q]?).map Stmt.action = some a := by
  obtain ⟨hq, -⟩ := List.getElem?_eq_some_iff.mp ha
  have hinstr := getElem?_flatten h (q := q) (by rwa [List.length_map])
  rw [List.getElem?_map, ha, ← d.map_instr_body text, List.getElem?_map] at hinstr
  obtain ⟨s, hs, hsa⟩ := Option.map_eq_some_iff.mp hinstr
  rw [hs]
  exact congrArg (fun i => some i.action) hsa

/-- Temporaries are assigned until only the move of the item is left to be made. -/
theorem Match.spill (hnames : ∀ n ∈ d.variables, n.Lettered) (h : Match text d s t) {j : Nat}
    (hs : s.pos = some j) (hj : j < d.items.length) :
    ∃ n i env, ((d.lowered text).step w)^[n] t = ⟨some i, env, t.shown⟩ ∧
      Alike d s ⟨some i, env, t.shown⟩ ∧ i + 1 = start (d.blocks text) (j + 1) ∧
      (d.lowered text).move? i env = some (d.items[j].statement.move d.name.text s.env) := by
  obtain ⟨k, last, hblock, hreads⟩ := d.exists_block text hj
  generalize hst : d.items[j].statement = st at hblock hreads ⊢
  have hvars : ∀ n ∈ st.variables, n ∈ d.variables := fun n hn =>
    List.mem_append_right _ (List.mem_flatMap.mpr ⟨_, List.getElem_mem hj, hst ▸ hn⟩)
  have hoperands := fun n hn => hvars n (variables_operands st n hn)
  obtain ⟨hvalues, hother⟩ :=
    spillAll_run d.name.text (fun n hn => hnames n (hoperands n hn)) k t.env
  have hliteral := spillAll_literals d.name.text k st.operands
  generalize (spillAll d.name.text k st.operands).1 = before at hblock hvalues hother hliteral
  generalize henv : before.foldl (fun e a => a.run e) t.env = env at hvalues hother
  -- no variable of the source is a temporary, so it still has the value that it has in the source
  have hsame : ∀ x ∈ d.vars, env x = s.env x := by
    intro x hx
    obtain ⟨n, hn, rfl⟩ := List.mem_map.mp hx
    exact (hother _ fun _ _ => (hnames n hn).ne_temp _ _).trans (h.env _ hx)
  have hxs := hvalues.trans (map_value_congr fun n hn =>
    h.env _ (List.mem_map_of_mem (hoperands n hn)))
  have hmove := hreads.move_eq hxs fun n hn => hsame _ (List.mem_map_of_mem (hvars n hn))
  obtain ⟨r, hr, rfl⟩ := Option.map_eq_some_iff.mp
    (getElem?_body hblock (show (before ++ [last])[before.length]? = some last by simp))
  refine ⟨before.length, start (d.blocks text) j + before.length, env, ?_, ⟨hsame, h.shown⟩, ?_, ?_⟩
  · rw [← henv]
    refine iterate_literals hliteral (by rw [h.pos, hs, Option.map_some]) (fun q a ha => ?_)
      fun q hq => blockAt_inside hblock (Nat.succ_pos q) (by simpa using hq)
    obtain ⟨hq, -⟩ := List.getElem?_eq_some_iff.mp ha
    exact getElem?_body hblock ((List.getElem?_append_left hq).trans ha)
  · rw [start_next hblock, List.length_map, List.length_append, Nat.add_assoc]
    rfl
  · simp only [Decl.lowered, Method.code, hr, Option.map_some, hmove]

/-- One step of the source is one or more steps of the lowered method. -/
theorem Match.step (hd : d.Passes text) (hnames : ∀ n ∈ d.variables, n.Lettered)
    (h : Match text d s t) :
    ∃ k, 1 ≤ k ∧ Match text d (d.code.step w s) (((d.lowered text).step w)^[k] t) := by
  have hpos := h.pos
  cases hs : s.pos with
  | none =>
      rw [hs] at hpos
      refine ⟨1, Nat.le_refl 1, ?_⟩
      simpa [Code.step, hs, hpos] using h
  | some j =>
      rcases Nat.lt_or_ge j d.items.length with hj | hj
      · obtain ⟨n, i, env, hspill, halike, hi, hlowered⟩ := h.spill hnames hs hj
        have hsource : d.code.move? j s.env =
            some (d.items[j].statement.move d.name.text s.env) := by simp [Decl.code, hj]
        refine ⟨n + 1, Nat.succ_pos n, ?_⟩
        rw [Function.iterate_succ_apply', hspill]
        simp only [Code.step, hs, hsource, hlowered, Option.getD_some]
        exact halike.perform hd hj hi _
      · -- both are at the end, and return nothing
        obtain rfl : j = d.items.length := Nat.le_antisymm (h.bound j hs) hj
        rw [hs, Option.map_some, ← d.length_blocks text, start_length] at hpos
        have hsource : d.code.move? d.items.length s.env = none := by simp [Decl.code]
        have hlowered : (d.lowered text).move? (d.blocks text).flatten.length t.env = none := by
          rw [← d.length_body text]
          simp [Decl.lowered, Method.code]
        refine ⟨1, Nat.le_refl 1, ?_⟩
        simp only [Function.iterate_one, Code.step, hs, hpos, hsource, hlowered, Option.getD_none,
          Code.perform]
        exact ⟨⟨h.env, congrArg (· ++ [_]) h.shown⟩, rfl, by simp⟩

theorem Match.iterate (hd : d.Passes text) (hnames : ∀ n ∈ d.variables, n.Lettered)
    (h : Match text d s t) (n : Nat) :
    ∃ k, n ≤ k ∧ Match text d ((d.code.step w)^[n] s) (((d.lowered text).step w)^[k] t) := by
  induction n with
  | zero => exact ⟨0, Nat.le_refl 0, h⟩
  | succ n ih =>
      obtain ⟨k, hk, hmatch⟩ := ih
      obtain ⟨k', hk', hmatch'⟩ := hmatch.step (w := w) hd hnames
      refine ⟨k' + k, by omega, ?_⟩
      rw [Function.iterate_succ_apply', Function.iterate_add_apply]
      exact hmatch'

theorem match_start (text : Text) (d : Decl) (env : Env) :
    Match text d (d.code.start env) ((d.lowered text).start env) :=
  Alike.arrive ⟨fun _ _ => rfl, rfl⟩ (Nat.zero_le _)

/-- A method shows the same as it is written and as it is lowered. -/
theorem shows_iff (hd : d.Passes text) (hnames : ∀ n ∈ d.variables, n.Lettered) (env : Env)
    (events : List Event) :
    d.code.Shows w env events ↔ (d.lowered text).Shows w env events := by
  constructor
  · rintro ⟨n, hn⟩
    obtain ⟨k, -, hmatch⟩ := (match_start text d env).iterate (w := w) hd hnames n
    exact ⟨k, hmatch.shown ▸ hn⟩
  · -- the lowered method may be inside a block; it has not shown more than when the block is over
    rintro ⟨n, hn⟩
    obtain ⟨k, hk, hmatch⟩ := (match_start text d env).iterate (w := w) hd hnames n
    exact ⟨n, hmatch.shown ▸ hn.trans (Code.shown_iterate_mono _ w _ hk)⟩

end

/-! ## Counting temporaries -/

/-- The number of literals of an item that need a temporary. -/
def Item.spilled (i : Item) : Nat := (literals i.statement.operands).length

/-- The number of temporaries of a method. -/
def Decl.spilled (d : Decl) : Nat := (d.items.map Item.spilled).sum

section

variable {method : Text}

theorem filter_isTemp_temps (method : Text) (k n : Nat) :
    ((List.range' k n).map (temp method)).filter isTemp = (List.range' k n).map (temp method) := by
  refine List.filter_eq_self.mpr fun x hx => ?_
  obtain ⟨j, -, rfl⟩ := List.mem_map.mp hx
  exact isTemp_temp method j

theorem filter_isTemp_vars {os : List Operand} (k : Nat)
    (hos : ∀ n ∈ os.flatMap Operand.variables, n.Lettered) :
    (spillAll method k os).2.1.filter isTemp =
      (List.range' k (literals os).length).map (temp method) := by
  induction os generalizing k with
  | nil => rfl
  | cons o os ih =>
      rw [List.flatMap_cons, List.forall_mem_append] at hos
      cases o with
      | name n =>
          have hn := (hos.1 n List.mem_cons_self).not_isTemp method
          exact (List.filter_cons_of_neg (by simpa using hn)).trans (ih k hos.2)
      | literal n =>
          refine (List.filter_cons_of_pos (isTemp_temp method k)).trans ?_
          rw [ih (k + 1) hos.2]
          rfl

/-- The temporaries that a lowered statement assigns. -/
theorem filter_isTemp_targets {s : Statement} (hs : ∀ n ∈ s.variables, n.Lettered) (k : Nat) :
    ((lowerStatement method k s).1.flatMap fun a => a.target?.toList).filter isTemp =
      (List.range' k (literals s.operands).length).map (temp method) := by
  obtain ⟨last, hreads, hlower⟩ := exists_lowerStatement method k s
  have hbefore : ((spillAll method k s.operands).1.flatMap fun a => a.target?.toList) =
      (List.range' k (literals s.operands).length).map (temp method) := by
    rw [spillAll_actions, ← List.zipIdx_map_snd k, List.flatMap_map, List.map_map,
      List.map_eq_flatMap]
    rfl
  have hlast : last.target?.toList.filter isTemp = [] := by
    refine List.filter_eq_nil_iff.mpr fun x hx => ?_
    have hnot : ∀ n ∈ s.variables, isTemp ⟨method, n.text⟩ = false := fun n hn =>
      (hs n hn).not_isTemp method
    cases hreads <;> simp [Action.target?, Action.pass] at hx <;> subst hx <;>
      simpa using hnot _ List.mem_cons_self
  rw [hlower, List.flatMap_append, List.filter_append, hbefore, filter_isTemp_temps,
    List.flatMap_singleton, hlast, List.append_nil]

/-- The temporaries that a lowered statement reads. -/
theorem filter_isTemp_uses {s : Statement} (hs : ∀ n ∈ s.variables, n.Lettered) (k : Nat) :
    ((lowerStatement method k s).1.flatMap Action.uses).filter isTemp =
      (List.range' k (literals s.operands).length).map (temp method) := by
  obtain ⟨last, hreads, hlower⟩ := exists_lowerStatement method k s
  have hbefore : (spillAll method k s.operands).1.flatMap Action.uses = [] := by
    refine List.flatMap_eq_nil_iff.mpr fun a ha => ?_
    obtain ⟨x, v, rfl⟩ := spillAll_literals method k s.operands a ha
    rfl
  have hlast : last.uses.filter isTemp = (spillAll method k s.operands).2.1.filter isTemp := by
    cases hreads with
    | copy target n =>
        have hn := (hs n (List.mem_cons_of_mem _ List.mem_cons_self)).not_isTemp method
        exact List.filter_cons_of_neg (by simpa using hn)
    | _ => rfl
  rw [hlower, List.flatMap_append, List.filter_append, hbefore, List.flatMap_singleton, hlast,
    filter_isTemp_vars k fun n hn => hs n (variables_operands s n hn)]
  rfl

/-- If each statement has its temporaries in order, then so has a body. -/
theorem filter_isTemp_lowerItems {f : Action → List Var} {text : Text} {items : List Item} (k : Nat)
    (h : ∀ i ∈ items, ∀ k, ((lowerStatement method k i.statement).1.flatMap f).filter isTemp =
      (List.range' k i.spilled).map (temp method)) :
    ((lowerItems text method k items).flatten.flatMap fun s => f s.action).filter isTemp =
      (List.range' k (items.map Item.spilled).sum).map (temp method) := by
  induction items generalizing k with
  | nil => rfl
  | cons i items ih =>
      rw [List.forall_mem_cons] at h
      have hnext : (lowerStatement method k i.statement).2 = k + i.spilled := by
        obtain ⟨last, -, hlower⟩ := exists_lowerStatement method k i.statement
        rw [hlower, spillAll_next]
        rfl
      have hhere : ((lowerStatement method k i.statement).1.map
          fun a => (⟨Text.lineAt text i.offset, a⟩ : Instr)).flatMap (fun s => f s.action) =
          (lowerStatement method k i.statement).1.flatMap f := List.flatMap_map ..
      rw [lowerItems, List.flatten_cons, List.flatMap_append, List.filter_append, hhere, h.1 k,
        hnext, ih _ h.2, ← List.map_append, List.map_cons, List.sum_cons, List.range'_append_1]

end

section

variable {text : Text} {d : Decl}

theorem Decl.lettered_of_item (hnames : ∀ n ∈ d.variables, n.Lettered) {i : Item}
    (hi : i ∈ d.items) : ∀ n ∈ i.statement.variables, n.Lettered := fun n hn =>
  hnames n (List.mem_append_right _ (List.mem_flatMap.mpr ⟨i, hi, hn⟩))

theorem flatMap_body (text : Text) (d : Decl) (f : Action → List Var) :
    ((d.method text).body.flatMap fun s => f s.action) =
      (d.blocks text).flatten.flatMap fun i => f i.action := by
  rw [← d.map_instr_body text, List.flatMap_map]
  rfl

theorem filter_targets (text : Text) (hnames : ∀ n ∈ d.variables, n.Lettered) :
    ((d.method text).body.filterMap fun s => s.action.target?).filter isTemp =
      (List.range' 0 d.spilled).map (temp d.name.text) := by
  rw [List.filterMap_eq_flatMap_toList, flatMap_body text d fun a => a.target?.toList]
  exact filter_isTemp_lowerItems 0 fun _ hi => filter_isTemp_targets (d.lettered_of_item hnames hi)

theorem filter_uses (text : Text) (hnames : ∀ n ∈ d.variables, n.Lettered) :
    ((d.method text).body.flatMap fun s => s.action.uses).filter isTemp =
      (List.range' 0 d.spilled).map (temp d.name.text) := by
  rw [flatMap_body]
  exact filter_isTemp_lowerItems 0 fun _ hi => filter_isTemp_uses (d.lettered_of_item hnames hi)

section

variable {l : List Var} (h : l.filter isTemp = (List.range' 0 d.spilled).map (temp d.name.text))
include h

theorem count_temp {k : Nat} (hk : k < d.spilled) : l.count (temp d.name.text k) = 1 := by
  rw [← List.count_filter (isTemp_temp d.name.text k), h]
  refine List.count_eq_one_of_mem (List.Nodup.map (temp_injective _) List.nodup_range') ?_
  exact List.mem_map_of_mem (List.mem_range'_1.mpr ⟨Nat.zero_le k, by omega⟩)

theorem exists_temp {x : Var} (hx : x ∈ l) (ht : isTemp x = true) :
    ∃ k < d.spilled, x = temp d.name.text k := by
  have hmem := h ▸ List.mem_filter.mpr ⟨hx, ht⟩
  obtain ⟨k, hk, rfl⟩ := List.mem_map.mp hmem
  have := (List.mem_range'_1.mp hk).2
  exact ⟨k, by omega, rfl⟩

end

/-- Lowering adds no variables but temporaries. -/
theorem mem_vars_method (hnames : ∀ n ∈ d.variables, n.Lettered) {x : Var}
    (hx : x ∈ (d.method text).vars) : x ∈ d.vars ∨ ∃ k < d.spilled, x = temp d.name.text k := by
  rcases List.mem_append.mp hx with hx | hx
  · obtain ⟨n, hn, rfl⟩ := List.mem_map.mp hx
    exact Or.inl (List.mem_map_of_mem (List.mem_append_left _ hn))
  · obtain ⟨s, hs, hx⟩ := List.mem_flatMap.mp hx
    obtain ⟨i, hi, k, -, ha⟩ := exists_item_of_mem_body hs
    rcases mentioned_lowerStatement ha hx with ⟨n, hn, rfl⟩ | ⟨j, -, -, rfl⟩
    · exact Or.inl (List.mem_map_of_mem
        (List.mem_append_right _ (List.mem_flatMap.mpr ⟨i, hi, hn⟩)))
    · -- it is one of those that are assigned or read somewhere in the body
      refine Or.inr ?_
      rcases List.mem_append.mp hx with hx | hx
      · exact exists_temp (filter_targets text hnames)
          (List.mem_filterMap.mpr ⟨s, hs, Option.mem_toList.mp hx⟩) (isTemp_temp _ _)
      · exact exists_temp (filter_uses text hnames) (List.mem_flatMap.mpr ⟨s, hs, hx⟩)
          (isTemp_temp _ _)

/-! ## Spilled methods -/

/-- What becomes of a method whose literals are put in temporaries. -/
structure Decl.Spilled (text : Text) (d : Decl) : Prop where
  /-- It shows the same as before, in any world and from any values on. -/
  shows : ∀ w env events, d.code.Shows w env events ↔ (d.lowered text).Shows w env events
  fresh : ∀ k, temp d.name.text k ∉ d.vars
  assigned : ∀ k < d.spilled,
    ((d.method text).body.filterMap fun s => s.action.target?).count (temp d.name.text k) = 1
  read : ∀ k < d.spilled,
    ((d.method text).body.flatMap fun s => s.action.uses).count (temp d.name.text k) = 1
  vars : ∀ x ∈ (d.method text).vars, x ∈ d.vars ∨ ∃ k < d.spilled, x = temp d.name.text k
  /-- A label marks the first statement that its item became. -/
  labels : ∀ l q, (d.method text).labels.get? l = some q →
    ∃ j i, d.items[j]? = some i ∧ l ∈ i.labels.map Name.text ∧ q = start (d.blocks text) j

theorem Decl.Passes.spilled (hd : d.Passes text) (hnames : ∀ n ∈ d.variables, n.Lettered) :
    d.Spilled text where
  shows := fun w env events => shows_iff hd hnames env events
  fresh := by
    intro k hk
    obtain ⟨n, hn, he⟩ := List.mem_map.mp hk
    exact (hnames n hn).ne_temp d.name.text k he
  assigned := fun k => count_temp (filter_targets text hnames)
  read := fun k => count_temp (filter_uses text hnames)
  vars := fun x => mem_vars_method hnames
  labels := by
    intro l q hq
    rw [← Assoc.mem_entries_iff, hd.entries_labels, mem_labelPositions_iff] at hq
    obtain ⟨j, i, block, hi, -, hl, rfl⟩ := hq
    exact ⟨j, i, hi, hl, Nat.zero_add _⟩

end

/-- **Putting literals in temporaries preserves meaning.** For every text that is accepted, each of
its methods shows the same as it is written and as it is lowered: the items that it comes to, with
the values of its variables, its calls, and what it returns. -/
theorem parse_spilled {text file : Text} {p : Program} (h : parse text file = .ok p) :
    ∃ ds, readDecls text = .ok ds ∧ p.methods = ds.map (Decl.method text) ∧
      ∀ d ∈ ds, d.Spilled text := by
  obtain ⟨ds, hread, hmethods, hpass⟩ := of_parse h
  exact ⟨ds, hread, hmethods, fun d hd => (hpass d hd).spilled ((of_readDecls hread).2 d hd)⟩

theorem parse_spilled_sample :
    ∃ p ds, parse Sample.counting "counting.ir" = .ok p ∧ readDecls Sample.counting = .ok ds ∧
      p.methods = ds.map (Decl.method Sample.counting) ∧ ds.map Decl.spilled = [4, 1] ∧
      ∀ d ∈ ds, d.Spilled Sample.counting := by
  obtain ⟨p, hp, -⟩ := Sample.parse_counting
  obtain ⟨ds, hread, hmethods, hspilled⟩ := parse_spilled hp
  have hcount : (readDecls Sample.counting).toOption.map (fun ds => ds.map Decl.spilled) =
      some [4, 1] := by decide +kernel
  rw [hread] at hcount
  exact ⟨p, ds, hp, hread, hmethods, Option.some.inj hcount, hspilled⟩

end ConstFlow.Source
