import ConstFlow.Analysis.Transfer
import ConstFlow.Proofs.FactOrder

/-!
# Facts as a join-semilattice

Combining a fact into another leaves their least upper bound there, and says truly whether anything
changed.

Facts are rewritten in place. One pass goes through the bindings of a source, sets those variables
of the target one after another, and notes on the way whether one of them changed (`Fact.sweep`). No
variable is bound twice by the source, so nothing that the pass writes is read by it later. This is
why the flag may as well be read off the target as it was before the pass (`sweep_eq`), and that is
how combining and copying are defined. What there is to say of the flag is said of every pass
(`sweep_of_unchanged`, `sweep_changed_iff`).

A pass that changes nothing leaves the very same bindings, in the same order. In all other respects
facts are compared by their views, where the order is that of a product of flat lattices.
-/

namespace ConstFlow

namespace Assoc

variable {α β : Type} [DecidableEq α] {m : Assoc α β} {k : α}

theorem set_of_get? {v : β} (h : m.get? k = some v) : m.set k v = m := by
  have hk : k ∈ m.keys := by
    by_contra hn
    rw [(m.get?_eq_none_iff k).mpr hn] at h
    cases h
  have hsame : replaceAt k v m.entries = m.entries := by
    refine (List.map_congr_left fun e he => ?_).trans (List.map_id _)
    split
    · rename_i hek
      have hget := (m.mem_entries_iff e.1 e.2).mp he
      rw [hek, h] at hget
      rw [Option.some.inj hget]
      rfl
    · rfl
  unfold set
  rw [dif_pos hk]
  obtain ⟨entries, nodup⟩ := m
  exact (mk.injEq ..).mpr hsame

theorem erase_of_not_mem (h : k ∉ m.keys) : m.erase k = m := by
  obtain ⟨entries, nodup⟩ := m
  refine (mk.injEq ..).mpr (List.filter_eq_self.mpr fun e he => decide_eq_true fun hek => h ?_)
  exact hek ▸ List.mem_map_of_mem he

end Assoc

namespace Fact

/-! ## Passes -/

theorem update_get (f : Fact) (x : Var) : f.update x (f.get x) = f := by
  unfold update
  split
  · rename_i hx
    have herase : f.bindings.erase x = f.bindings :=
      Assoc.erase_of_not_mem fun hmem => (f.mem_vars_iff x).mp hmem hx
    obtain ⟨bindings, defined⟩ := f
    exact (mk.injEq ..).mpr herase
  · rename_i hx
    have hget : f.bindings.get? x = some (f.get x) :=
      (f.bindings.mem_entries_iff x _).mp ((f.mem_entries_iff x _).mpr ⟨rfl, hx⟩)
    have hset := Assoc.set_of_get? hget
    obtain ⟨bindings, defined⟩ := f
    exact (mk.injEq ..).mpr hset

/-- One pass over the bindings of a source. Each is put together with what its variable has by then,
and the flag says whether a variable has changed so far. -/
def sweep (op : Value → Value → Value) (f src : Fact) : Recomputed :=
  src.entries.foldl (fun r b =>
    ⟨r.fact.update b.1 (op b.2 (r.fact.get b.1)),
      r.changed || r.fact.changes b.1 (op b.2 (r.fact.get b.1))⟩) ⟨f, false⟩

section Sweep

variable (op : Value → Value → Value)

theorem sweep_eq (f src : Fact) :
    f.sweep op src =
      ⟨src.entries.foldl (fun f b => f.update b.1 (op b.2 (f.get b.1))) f,
        src.entries.any fun b => f.changes b.1 (op b.2 (f.get b.1))⟩ := by
  unfold sweep
  suffices hs : ∀ (es : List (Var × Value)) (f : Fact) (c : Bool), (es.map Prod.fst).Nodup →
      es.foldl (fun (r : Recomputed) b =>
        ⟨r.fact.update b.1 (op b.2 (r.fact.get b.1)),
          r.changed || r.fact.changes b.1 (op b.2 (r.fact.get b.1))⟩) ⟨f, c⟩ =
      ⟨es.foldl (fun f b => f.update b.1 (op b.2 (f.get b.1))) f,
        c || es.any fun b => f.changes b.1 (op b.2 (f.get b.1))⟩ from
    hs _ f false src.bindings.nodup
  intro es
  induction es with
  | nil => exact fun f c _ => by simp
  | cons b es ih =>
      intro f c hnodup
      rw [List.map_cons, List.nodup_cons] at hnodup
      -- What comes after `b` is about other variables, and reads the same before `b` and after it.
      have hlater : (es.any fun e => (f.update b.1 (op b.2 (f.get b.1))).changes e.1
          (op e.2 ((f.update b.1 (op b.2 (f.get b.1))).get e.1))) =
          es.any fun e => f.changes e.1 (op e.2 (f.get e.1)) := by
        refine Bool.eq_iff_iff.mpr ?_
        rw [List.any_eq_true, List.any_eq_true]
        refine exists_congr fun e => and_congr_right fun he => ?_
        have hne : e.1 ≠ b.1 := fun h => hnodup.1 (h ▸ List.mem_map_of_mem he)
        simp only [changes, get_update, if_neg hne]
      rw [List.foldl_cons, ih _ _ hnodup.2, List.foldl_cons, List.any_cons, hlater, Bool.or_assoc]

/-- What a pass leaves of a variable that it sets. -/
theorem get_sweep {f src : Fact} {x : Var} {v : Value} (h : (x, v) ∈ src.entries) :
    (f.sweep op src).fact.get x = op v (f.get x) := by
  rw [sweep_eq]
  -- The pass comes to `x` once, between bindings of other variables.
  obtain ⟨before, after, hes⟩ := List.append_of_mem h
  have hnodup : (src.entries.map Prod.fst).Nodup := src.bindings.nodup
  rw [hes, List.map_append, List.map_cons, List.nodup_append] at hnodup
  obtain ⟨-, hafter, hbefore⟩ := hnodup
  have hxb : x ∉ before.map Prod.fst := fun hmem => hbefore x hmem x List.mem_cons_self rfl
  have hxa : x ∉ after.map Prod.fst := (List.nodup_cons.mp hafter).1
  have hkeep := get_foldl_update_of_not_mem (fun f b => op b.2 (f.get b.1)) x
  rw [hes, List.foldl_append, List.foldl_cons, hkeep after _ hxa, get_update, if_pos rfl,
    hkeep before f hxb]

theorem sweep_of_unchanged (f src : Fact) (h : (f.sweep op src).changed = false) :
    (f.sweep op src).fact = f := by
  rw [sweep_eq] at h ⊢
  have hsame : ∀ b ∈ src.entries, op b.2 (f.get b.1) = f.get b.1 := by
    intro b hb
    have hb' := List.any_eq_false.mp h b hb
    simp only [changes, decide_eq_true_eq, not_not] at hb'
    exact hb'.symm
  generalize src.entries = es at hsame
  induction es with
  | nil => rfl
  | cons b es ih =>
      rw [List.forall_mem_cons] at hsame
      rw [List.foldl_cons, hsame.1, update_get]
      exact ih hsame.2

/-- The flag of a pass is set exactly if the fact says something else than before. -/
theorem sweep_changed_iff (f src : Fact) :
    (f.sweep op src).changed = true ↔ (f.sweep op src).fact.agrees f = false := by
  constructor
  · intro h
    have hany : (src.entries.any fun b => f.changes b.1 (op b.2 (f.get b.1))) = true := by
      rw [sweep_eq] at h
      exact h
    obtain ⟨b, hb, hne⟩ := List.any_eq_true.mp hany
    rw [← Bool.not_eq_true, agrees_iff]
    intro heq
    have hget := get_sweep op (f := f) hb
    rw [heq] at hget
    exact of_decide_eq_true hne hget
  · intro h
    by_contra hchanged
    rw [Bool.not_eq_true] at hchanged
    rw [sweep_of_unchanged op f src hchanged, agrees_iff.mpr rfl] at h
    cases h

end Sweep

theorem sweep_meet (f src : Fact) : f.sweep .meet src = ⟨f.meet src, f.meetChanges src⟩ :=
  sweep_eq .meet f src

/-- Copying is a pass that ignores what was there. -/
theorem sweep_copy (f src : Fact) : f.sweep (fun v _ => v) src = f.absorb src :=
  sweep_eq (fun v _ => v) f src

section Flags

variable {f src : Fact}

theorem meetChanges_iff_differs : f.meetChanges src = true ↔ (f.meet src).agrees f = false := by
  have hsweep := sweep_changed_iff .meet f src
  rw [sweep_meet] at hsweep
  exact hsweep

theorem meet_of_unchanged (h : f.meetChanges src = false) : f.meet src = f := by
  have hsweep := sweep_of_unchanged .meet f src
  rw [sweep_meet] at hsweep
  exact hsweep h

theorem copyChanges_iff_differs : f.copyChanges src = true ↔ (f.copyFrom src).agrees f = false := by
  have hsweep := sweep_changed_iff (fun v _ => v) f src
  rw [sweep_copy] at hsweep
  exact hsweep

theorem copyFrom_of_unchanged (h : f.copyChanges src = false) : f.copyFrom src = f := by
  have hsweep := sweep_of_unchanged (fun v _ => v) f src
  rw [sweep_copy] at hsweep
  exact hsweep h

end Flags

/-! ## The order -/

theorem foldl_meet_mono {fs gs : List Fact} (hfg : ∀ f ∈ fs, ∃ g ∈ gs, f.agrees g = true)
    (t : Fact) : (fs.foldl meet t).get ≤ (gs.foldl meet t).get := by
  obtain ⟨htarget, hall⟩ := foldl_meet_le_iff.mp (le_refl (gs.foldl meet t).get)
  refine foldl_meet_le_iff.mpr ⟨htarget, fun f hf => ?_⟩
  obtain ⟨g, hg, hagree⟩ := hfg f hf
  rw [agrees_iff.mp hagree]
  exact hall g hg

/-- Comparing facts is a partial order, up to facts that say the same. Combining a fact into a
target leaves the least upper bound of both there, stored without `unset`; this is what the pass in
place computes, and its flag is set exactly if the target changed. So a target that takes in many
facts ends up the same whatever their order, and however often one of them comes. -/
theorem meet_is_join :
    (∀ f : Fact, f.leq f = true) ∧
    (∀ f g h : Fact, f.leq g = true → g.leq h = true → f.leq h = true) ∧
    (∀ f g : Fact, f.leq g = true ∧ g.leq f = true ↔ f.agrees g = true) ∧
    (∀ f t : Fact,
      t.sweep .meet f = ⟨t.meet f, t.meetChanges f⟩ ∧
      f.leq (t.meet f) = true ∧ t.leq (t.meet f) = true ∧
      (∀ u : Fact, f.leq u = true → t.leq u = true → (t.meet f).leq u = true) ∧
      (∀ x v, (x, v) ∈ (t.meet f).entries ↔ v = (f.get x).meet (t.get x) ∧ v ≠ .unset) ∧
      (t.meetChanges f = true ↔ (t.meet f).agrees t = false) ∧
      (t.meetChanges f = false → t.meet f = t)) ∧
    ∀ (fs gs : List Fact) (t : Fact), (∀ f ∈ fs, ∃ g ∈ gs, f.agrees g = true) →
      (∀ g ∈ gs, ∃ f ∈ fs, g.agrees f = true) →
      (fs.foldl meet t).agrees (gs.foldl meet t) = true := by
  refine ⟨fun f => leq_iff.mpr le_rfl, fun f g h hfg hgh => ?_, fun f g => ?_, fun f t => ?_,
    fun fs gs t hfg hgf => ?_⟩
  · exact leq_iff.mpr ((leq_iff.mp hfg).trans (leq_iff.mp hgh))
  · rw [leq_iff, leq_iff, agrees_iff]
    exact le_antisymm_iff.symm
  · refine ⟨sweep_meet t f, ?_, ?_, fun u hf ht => ?_, fun x v => ?_, meetChanges_iff_differs,
      meet_of_unchanged⟩
    · rw [leq_iff, get_meet_eq]
      exact le_sup_left
    · rw [leq_iff, get_meet_eq]
      exact le_sup_right
    · rw [leq_iff] at hf ht ⊢
      rw [get_meet_eq]
      exact sup_le hf ht
    · rw [mem_entries_iff, get_meet, eq_comm]
  · exact agrees_iff.mpr (le_antisymm (foldl_meet_mono hfg t) (foldl_meet_mono hgf t))

/-- In the sample, `y` rises to `nac` and `z` is new. The second list has one of the facts again,
bound in another order. -/
theorem meet_is_join_sample :
    let x : Var := ⟨"m", "x"⟩
    let y : Var := ⟨"m", "y"⟩
    let z : Var := ⟨"m", "z"⟩
    let f := ofList [(z, .const 4), (y, .const 3), (x, .const 1)]
    let t := ofList [(x, .const 1), (y, .const 2)]
    let u := ofList [(y, .nac), (x, .const 1), (z, .nac)]
    f.leq u = true ∧ t.leq u = true ∧ (t.meet f).leq u = true ∧
      t.meetChanges f = true ∧ (t.meet f).agrees t = false ∧
      ([f, t, f].foldl meet u).agrees ([t, ofList (f.entries.reverse)].foldl meet u) = true := by
  intro x y z f t u
  obtain ⟨-, -, -, hjoin, hfold⟩ := meet_is_join
  obtain ⟨-, -, -, hleast, -, hflag, -⟩ := hjoin f t
  have hf : f.leq u = true := by decide
  have ht : t.leq u = true := by decide
  have hchanges : t.meetChanges f = true := by decide
  exact ⟨hf, ht, hleast u hf ht, hchanges, hflag.mp hchanges,
    hfold _ _ u (by decide) (by decide)⟩

end Fact

end ConstFlow
