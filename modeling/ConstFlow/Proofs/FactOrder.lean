import Mathlib.Data.List.Perm.Subperm
import Mathlib.Order.Lattice
import ConstFlow.Fact

/-!
# The order of values and facts

The flat lattice of values as an order, and facts as functions into it. `meet` is the join of that
order, with `unset` at the bottom and `nac` at the top.

A fact keeps its bindings in the order in which they came, so two facts that say the same need not
be equal. Everything about what a fact says goes through its view `get : Var → Value`, which lives
in a product of lattices: `leq_iff` and `agrees_iff` turn the two computed comparisons into `≤` and
`=` of views, and `get_meet_eq` turns combining into the join of views. From here on, facts are
compared as views only.

The last section is about ranges. Folding is total only on 32-bit constants, so every operation on
facts has to stay among them.
-/

namespace ConstFlow

namespace Value

/-! ## Values -/

instance : LE Value := ⟨fun v w => v.leq w = true⟩

instance (v w : Value) : Decidable (v ≤ w) := inferInstanceAs (Decidable (v.leq w = true))

theorem le_iff_leq {v w : Value} : v ≤ w ↔ v.leq w = true := Iff.rfl

/-- The order is flat: below a value are `unset` and the value itself, and below `nac` is
everything. -/
theorem le_iff {v w : Value} : v ≤ w ↔ v = unset ∨ w = nac ∨ v = w := by
  rw [le_iff_leq]
  cases v <;> cases w <;> simp [leq]

theorem le_meet_left (v w : Value) : v ≤ v.meet w := by
  rw [le_iff]
  cases v <;> cases w <;> simp [meet]
  exact (em _).symm

theorem le_meet_right (v w : Value) : w ≤ v.meet w := by
  rw [le_iff]
  cases v <;> cases w <;> simp [meet]
  split <;> simp_all

instance : SemilatticeSup Value where
  le_refl v := le_iff.mpr (Or.inr (Or.inr rfl))
  le_trans u v w huv hvw := by
    rw [le_iff] at huv hvw ⊢
    rcases huv with rfl | rfl | rfl
    · exact Or.inl rfl
    · rcases hvw with h | h | h
      · cases h
      · exact Or.inr (Or.inl h)
      · exact Or.inr (Or.inl h.symm)
    · exact hvw
  le_antisymm v w hvw hwv := by
    rw [le_iff] at hvw hwv
    rcases hvw with rfl | rfl | rfl
    · rcases hwv with h | h | h
      · exact h.symm
      · cases h
      · exact h.symm
    · rcases hwv with h | h | h
      · cases h
      · exact h
      · exact h.symm
    · rfl
  sup := meet
  le_sup_left := le_meet_left
  le_sup_right := le_meet_right
  sup_le u v w huw hvw := by
    rw [le_iff] at huw hvw
    rcases huw with rfl | rfl | rfl
    · rw [unset_meet]
      exact le_iff.mpr hvw
    · exact le_iff.mpr (Or.inr (Or.inl rfl))
    · rcases hvw with rfl | rfl | rfl
      · rw [meet_unset]
        exact le_iff.mpr (Or.inr (Or.inr rfl))
      · exact le_iff.mpr (Or.inr (Or.inl rfl))
      · cases v <;> simp [le_iff_leq, meet, leq]

theorem sup_eq_meet (v w : Value) : v ⊔ w = v.meet w := rfl

@[simp] theorem unset_le (v : Value) : unset ≤ v := le_iff.mpr (Or.inl rfl)

@[simp] theorem le_nac (v : Value) : v ≤ nac := le_iff.mpr (Or.inr (Or.inl rfl))

theorem eq_unset_of_le {v : Value} (h : v ≤ unset) : v = unset := le_antisymm h (unset_le v)

theorem eq_nac_of_le {v : Value} (h : nac ≤ v) : v = nac := le_antisymm (le_nac v) h

/-- Above a constant are the constant and `nac`. -/
theorem const_le_iff {c : Int} {v : Value} : const c ≤ v ↔ v = const c ∨ v = nac := by
  rw [le_iff]
  constructor
  · rintro (h | h | h)
    · cases h
    · exact Or.inr h
    · exact Or.inl h.symm
  · rintro (rfl | rfl)
    · exact Or.inr (Or.inr rfl)
    · exact Or.inr (Or.inl rfl)

end Value

namespace Fact

/-! ## Facts, by their views -/

/-- A fact is below another if and only if its view is. -/
theorem leq_iff {f g : Fact} : f.leq g = true ↔ f.get ≤ g.get := by
  simp only [leq, List.all_eq_true]
  constructor
  · intro h x
    by_cases hx : f.get x = .unset
    · rw [hx]
      exact Value.unset_le _
    · exact h (x, f.get x) ((f.mem_entries_iff x _).mpr ⟨rfl, hx⟩)
  · rintro h ⟨x, v⟩ hb
    obtain ⟨rfl, -⟩ := (f.mem_entries_iff x v).mp hb
    exact h x

theorem vars_nodup (f : Fact) : f.vars.Nodup := f.bindings.nodup

theorem length_vars (f : Fact) : f.vars.length = f.size := List.length_map ..

/-- Facts agree if and only if they have the same view. -/
theorem agrees_iff {f g : Fact} : f.agrees g = true ↔ f.get = g.get := by
  simp only [agrees, Bool.and_eq_true, decide_eq_true_eq, List.all_eq_true]
  constructor
  · rintro ⟨hsize, hall⟩
    have hsame : ∀ x ∈ f.vars, x ∈ g.vars ∧ g.get x = f.get x := by
      intro x hx
      have hb := (f.mem_entries_iff x _).mpr ⟨rfl, (f.mem_vars_iff x).mp hx⟩
      obtain ⟨hc, hg⟩ := hall _ hb
      exact ⟨of_decide_eq_true hc, hg⟩
    -- `f` binds as many variables as `g`, all of them bound in `g`: so it binds the same ones.
    have hperm : f.vars.Perm g.vars :=
      (List.subperm_of_subset f.vars_nodup fun x hx => (hsame x hx).1).perm_of_length_le
        (by rw [length_vars, length_vars, hsize])
    funext x
    by_cases hx : x ∈ f.vars
    · exact (hsame x hx).2.symm
    · have hf : f.get x = .unset := not_not.mp fun h => hx ((f.mem_vars_iff x).mpr h)
      have hg : g.get x = .unset := not_not.mp fun h =>
        hx (hperm.mem_iff.mpr ((g.mem_vars_iff x).mpr h))
      rw [hf, hg]
  · intro h
    have hmem : ∀ x, x ∈ f.vars ↔ x ∈ g.vars := fun x => by
      rw [mem_vars_iff, mem_vars_iff, h]
    have hperm : f.vars.Perm g.vars :=
      (List.perm_ext_iff_of_nodup f.vars_nodup g.vars_nodup).mpr hmem
    refine ⟨by rw [← length_vars, ← length_vars, hperm.length_eq], ?_⟩
    rintro ⟨x, v⟩ hb
    obtain ⟨rfl, hv⟩ := (f.mem_entries_iff x v).mp hb
    exact ⟨decide_eq_true ((hmem x).mp ((f.mem_vars_iff x).mpr hv)), (congrFun h x).symm⟩

theorem empty_le (φ : Var → Value) : empty.get ≤ φ := fun x => Value.unset_le (φ x)

/-- Combining facts is the join of their views. -/
theorem get_meet_eq (f src : Fact) : (f.meet src).get = src.get ⊔ f.get :=
  funext fun x => f.get_meet src x

/-- The least view above a fact and all those that are combined into it, one after another. -/
theorem foldl_meet_le_iff {φ : Var → Value} :
    ∀ {fs : List Fact} {f : Fact},
      (fs.foldl meet f).get ≤ φ ↔ f.get ≤ φ ∧ ∀ h ∈ fs, h.get ≤ φ
  | [], f => by simp
  | h :: fs, f => by
      rw [List.foldl_cons, foldl_meet_le_iff, get_meet_eq, sup_le_iff, List.forall_mem_cons]
      tauto

theorem update_mono {f g : Fact} {v w : Value} (hf : f.get ≤ g.get) (hv : v ≤ w) (x : Var) :
    (f.update x v).get ≤ (g.update x w).get := by
  intro y
  rw [get_update, get_update]
  split
  · exact hv
  · exact hf y

theorem remove_mono {f g : Fact} (hf : f.get ≤ g.get) (x : Var) :
    (f.remove x).get ≤ (g.remove x).get := by
  intro y
  rw [get_remove, get_remove]
  split
  · exact le_rfl
  · exact hf y

/-! ## Copying one fact into another -/

theorem copyChanges_iff {f src : Fact} :
    f.copyChanges src = true ↔ ∃ x, src.get x ≠ .unset ∧ f.get x ≠ src.get x := by
  simp only [copyChanges, List.any_eq_true, changes, decide_eq_true_eq]
  constructor
  · rintro ⟨⟨x, v⟩, hb, hne⟩
    obtain ⟨rfl, hv⟩ := (src.mem_entries_iff x v).mp hb
    exact ⟨x, hv, hne⟩
  · rintro ⟨x, hv, hne⟩
    exact ⟨(x, src.get x), (src.mem_entries_iff x _).mpr ⟨rfl, hv⟩, hne⟩

theorem copyChanges_congr {src src' : Fact} (h : src.get = src'.get) (f : Fact) :
    f.copyChanges src = f.copyChanges src' := by
  rw [Bool.eq_iff_iff, copyChanges_iff, copyChanges_iff, h]

/-- Copying changes nothing exactly when the target says already what the source says. -/
theorem copyChanges_eq_false_iff {f src : Fact} :
    f.copyChanges src = false ↔ ∀ x, src.get x ≠ .unset → f.get x = src.get x := by
  rw [← Bool.not_eq_true, copyChanges_iff]
  push Not
  exact Iff.rfl

theorem get_copyFrom_of_unchanged {f src : Fact} (h : f.copyChanges src = false) :
    (f.copyFrom src).get = f.get := by
  funext x
  rw [get_copyFrom]
  split
  · rfl
  · exact (copyChanges_eq_false_iff.mp h x ‹_›).symm

/-- What was copied once does not change the fact a second time. -/
theorem copyChanges_copyFrom (f src : Fact) : (f.copyFrom src).copyChanges src = false := by
  rw [copyChanges_eq_false_iff]
  intro x hx
  rw [get_copyFrom, if_neg hx]

theorem le_copyFrom (f src : Fact) : src.get ≤ (f.copyFrom src).get := by
  intro x
  rw [get_copyFrom]
  split
  · rename_i h
    rw [h]
    exact Value.unset_le _
  · exact le_rfl

theorem copyFrom_le {f src : Fact} {φ : Var → Value} (hf : f.get ≤ φ) (hs : src.get ≤ φ) :
    (f.copyFrom src).get ≤ φ := by
  intro x
  rw [get_copyFrom]
  split
  · exact hf x
  · exact hs x

/-- Copying a fact over one below it leaves nothing of the old one. -/
theorem get_copyFrom_of_le {f src : Fact} (h : f.get ≤ src.get) :
    (f.copyFrom src).get = src.get :=
  le_antisymm (copyFrom_le h le_rfl) (le_copyFrom f src)

end Fact

/-! ## 32-bit constants -/

/-- A constant, if the value is one, is a 32-bit integer. -/
def Value.InRange : Value → Prop
  | .const c => Int32.InRange c
  | _ => True

theorem Value.InRange.sup {v w : Value} (hv : v.InRange) (hw : w.InRange) : (v ⊔ w).InRange := by
  rw [sup_eq_meet]
  cases v <;> cases w <;> simp only [meet] <;> try trivial
  split
  · exact hv
  · trivial

namespace Fact

/-- All constants of a fact are 32-bit integers. -/
def InRange (f : Fact) : Prop := ∀ x, (f.get x).InRange

theorem inRange_empty : empty.InRange := fun _ => trivial

theorem InRange.update {f : Fact} (hf : f.InRange) {v : Value} (hv : v.InRange) (x : Var) :
    (f.update x v).InRange := by
  intro y
  rw [get_update]
  split
  · exact hv
  · exact hf y

theorem InRange.remove {f : Fact} (hf : f.InRange) (x : Var) : (f.remove x).InRange := by
  intro y
  rw [get_remove]
  split
  · trivial
  · exact hf y

theorem InRange.meet {f src : Fact} (hf : f.InRange) (hs : src.InRange) :
    (f.meet src).InRange := by
  intro x
  rw [get_meet_eq]
  exact (hs x).sup (hf x)

theorem InRange.foldl_meet {fs : List Fact} {f : Fact} (hf : f.InRange)
    (hfs : ∀ h ∈ fs, h.InRange) : (fs.foldl Fact.meet f).InRange := by
  induction fs generalizing f with
  | nil => exact hf
  | cons h fs ih =>
      rw [List.forall_mem_cons] at hfs
      exact ih (hf.meet hfs.1) hfs.2

theorem InRange.copyFrom {f src : Fact} (hf : f.InRange) (hs : src.InRange) :
    (f.copyFrom src).InRange := by
  intro x
  rw [get_copyFrom]
  split
  · exact hf x
  · exact hs x

end Fact

end ConstFlow
