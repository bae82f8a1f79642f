import ConstFlow.Assoc
import ConstFlow.Program.Basic
import ConstFlow.Value

/-!
# Facts

A fact says what is known of the variables at one point. A variable that it does not bind reads as
`unset`, and `unset` is never stored: setting a variable to it removes the variable. The order of
the bindings is the order in which the variables came.

`get` is the view of a fact; `get_update`, `get_copyFrom` and `get_meet` say what the operations do
to it.
-/

namespace ConstFlow

/-- Bindings of variables to values other than `unset`. -/
structure Fact where
  bindings : Assoc Var Value
  defined : ∀ b ∈ bindings.entries, b.2 ≠ .unset

namespace Fact

/-- Nothing is known. -/
def empty : Fact := ⟨.empty, by simp [Assoc.empty]⟩

instance : Inhabited Fact := ⟨empty⟩

instance : DecidableEq Fact := fun f g =>
  decidable_of_iff (f.bindings = g.bindings) (by cases f; cases g; simp)

/-- The bindings, oldest first. -/
def entries (f : Fact) : List (Var × Value) := f.bindings.entries

/-- The bound variables, oldest first. -/
def vars (f : Fact) : List Var := f.bindings.keys

/-- The number of bound variables. -/
def size (f : Fact) : Nat := f.bindings.size

/-- Whether a variable is bound. -/
def contains (f : Fact) (x : Var) : Bool := f.bindings.contains x

/-- What is known of a variable. -/
def get (f : Fact) (x : Var) : Value := (f.bindings.get? x).getD .unset

/-- Forget a variable. -/
def remove (f : Fact) (x : Var) : Fact :=
  ⟨f.bindings.erase x, fun b hb => f.defined b (List.mem_filter.mp hb).1⟩

/-- Setting a key to a value other than `unset` stores no `unset`. -/
theorem defined_set (f : Fact) (x : Var) {v : Value} (hv : v ≠ .unset) :
    ∀ b ∈ (f.bindings.set x v).entries, b.2 ≠ .unset := by
  intro b hb
  unfold Assoc.set at hb
  split at hb
  · simp only [Assoc.replaceAt, List.mem_map] at hb
    obtain ⟨e, he, rfl⟩ := hb
    by_cases h : e.1 = x
    · simp [h, hv]
    · simpa [h] using f.defined e he
  · simp only [List.mem_append, List.mem_singleton] at hb
    rcases hb with hb | rfl
    · exact f.defined b hb
    · exact hv

/-- Set a variable to a value; `unset` forgets it. -/
def update (f : Fact) (x : Var) (v : Value) : Fact :=
  if h : v = .unset then f.remove x else ⟨f.bindings.set x v, f.defined_set x h⟩

/-- Whether an update would change what is known of the variable. -/
def changes (f : Fact) (x : Var) (v : Value) : Bool := f.get x ≠ v

/-- Set the variables of a list one after another. -/
def ofList (bs : List (Var × Value)) : Fact := bs.foldl (fun f b => f.update b.1 b.2) empty

/-- Set every variable that `src` binds to its value there; the others keep theirs. -/
def copyFrom (f src : Fact) : Fact := src.entries.foldl (fun f b => f.update b.1 b.2) f

/-- Whether copying from `src` would change anything. -/
def copyChanges (f src : Fact) : Bool := src.entries.any fun b => f.changes b.1 b.2

/-- Combine with another fact, variable by variable. -/
def meet (f src : Fact) : Fact :=
  src.entries.foldl (fun f b => f.update b.1 (b.2.meet (f.get b.1))) f

/-- Whether combining with `src` would change anything. -/
def meetChanges (f src : Fact) : Bool :=
  src.entries.any fun b => f.changes b.1 (b.2.meet (f.get b.1))

/-! ## The view -/

@[simp] theorem get_empty (x : Var) : empty.get x = .unset := rfl

theorem get_remove (f : Fact) (x y : Var) :
    (f.remove x).get y = if y = x then .unset else f.get y := by
  simp only [get, remove, Assoc.get?_erase]
  split <;> rfl

theorem get_update (f : Fact) (x : Var) (v : Value) (y : Var) :
    (f.update x v).get y = if y = x then v else f.get y := by
  unfold update
  split
  case isTrue h => subst h; exact f.get_remove x y
  case isFalse h =>
    simp only [get, Assoc.get?_set]
    split <;> rfl

/-- A variable reads as its value if and only if it is bound to it. -/
theorem mem_entries_iff (f : Fact) (x : Var) (v : Value) :
    (x, v) ∈ f.entries ↔ f.get x = v ∧ v ≠ .unset := by
  constructor
  · intro h
    have hv := f.defined (x, v) h
    have hx := (f.bindings.mem_entries_iff x v).mp h
    exact ⟨by simp [get, hx], hv⟩
  · rintro ⟨rfl, hv⟩
    refine (f.bindings.mem_entries_iff x _).mpr ?_
    cases hx : f.bindings.get? x with
    | none => simp [get, hx] at hv
    | some w => simp [get, hx]

/-- The bound variables are those that do not read as `unset`. -/
theorem mem_vars_iff (f : Fact) (x : Var) : x ∈ f.vars ↔ f.get x ≠ .unset := by
  constructor
  · intro h
    obtain ⟨⟨y, v⟩, hm, rfl⟩ := List.mem_map.mp h
    obtain ⟨hg, hv⟩ := (f.mem_entries_iff y v).mp hm
    exact hg ▸ hv
  · intro h
    exact List.mem_map.mpr ⟨(x, f.get x), (f.mem_entries_iff x _).mpr ⟨rfl, h⟩, rfl⟩

/-- Updates of variables other than `x` leave it alone. -/
theorem get_foldl_update_of_not_mem (step : Fact → Var × Value → Value) (x : Var) :
    ∀ (es : List (Var × Value)) (f : Fact), x ∉ es.map Prod.fst →
      (es.foldl (fun f b => f.update b.1 (step f b)) f).get x = f.get x
  | [], _, _ => rfl
  | b :: es, f, h => by
    simp only [List.map_cons, List.mem_cons, not_or] at h
    rw [List.foldl_cons, get_foldl_update_of_not_mem step x es _ h.2, get_update, if_neg h.1]

/-- One pass of updates, each from the value that the variable has by then. -/
theorem get_foldl_update (op : Value → Value → Value) (hop : ∀ v, op .unset v = v) (x : Var) :
    ∀ (es : List (Var × Value)) (f : Fact), (es.map Prod.fst).Nodup →
      (es.foldl (fun f b => f.update b.1 (op b.2 (f.get b.1))) f).get x =
        op ((es.lookup x).getD .unset) (f.get x)
  | [], f, _ => by simp [hop]
  | (y, v) :: es, f, h => by
    simp only [List.map_cons, List.nodup_cons] at h
    by_cases hx : x = y
    · subst hx
      rw [List.foldl_cons, get_foldl_update_of_not_mem (fun f b => op b.2 (f.get b.1)) x es _ h.1,
        get_update, if_pos rfl]
      simp
    · have hb : (x == y) = false := beq_false_of_ne hx
      rw [List.foldl_cons, get_foldl_update op hop x es _ h.2, get_update, if_neg hx]
      simp [List.lookup_cons, hb]

/-- Combining facts combines what they know, variable by variable. -/
theorem get_meet (f src : Fact) (x : Var) : (f.meet src).get x = (src.get x).meet (f.get x) :=
  get_foldl_update Value.meet Value.unset_meet x src.entries f src.bindings.nodup

/-- Where nothing is `unset`, it makes no difference to keep the old value for it. -/
theorem foldl_update_eq :
    ∀ (es : List (Var × Value)) (f : Fact), (∀ b ∈ es, b.2 ≠ .unset) →
      es.foldl (fun f b => f.update b.1 b.2) f =
        es.foldl (fun f b => f.update b.1 (if b.2 = .unset then f.get b.1 else b.2)) f
  | [], _, _ => rfl
  | b :: es, f, h => by
    rw [List.foldl_cons, List.foldl_cons, if_neg (h b List.mem_cons_self)]
    exact foldl_update_eq es _ fun c hc => h c (List.mem_cons_of_mem b hc)

/-- Copying takes what the source knows and keeps the rest. -/
theorem get_copyFrom (f src : Fact) (x : Var) :
    (f.copyFrom src).get x = if src.get x = .unset then f.get x else src.get x := by
  rw [copyFrom, foldl_update_eq src.entries f src.defined]
  exact get_foldl_update (fun v w => if v = .unset then w else v) (by simp) x src.entries f
    src.bindings.nodup

/-! ## Comparing and showing -/

/-- Whether every value of a fact is below the value in another. -/
def leq (f g : Fact) : Bool := f.entries.all fun b => b.2.leq (g.get b.1)

/-- Whether two facts bind the same variables to the same values, in whatever order. -/
def agrees (f g : Fact) : Bool :=
  f.size = g.size && f.entries.all fun b => g.contains b.1 && g.get b.1 = b.2

/-- The bindings by the names of the variables. Variables of one name stay in their order. -/
def sorted (f : Fact) : List (Var × Value) :=
  f.entries.mergeSort fun a b => !(b.1.name < a.1.name)

/-- A fact as one line of text. -/
def text (f : Fact) : Text :=
  "\x7b" ++ Text.join ", " (f.sorted.map fun b => b.1.name ++ "=" ++ b.2.text) ++ "\x7d"

end Fact

end ConstFlow
