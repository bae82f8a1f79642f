/-!
# Associations kept in insertion order

A finite map from keys to values that remembers the order in which its keys came. Setting a key
that is already bound keeps its place; a key that was erased and is set again goes to the end.
Facts, result tables and the labels of a method are associations.

`get?` is the view of an association as a map, `keys` the view as an order.
-/

namespace ConstFlow

/-- A list of bindings in which no key occurs twice. -/
structure Assoc (α β : Type) where
  entries : List (α × β)
  nodup : (entries.map Prod.fst).Nodup

namespace Assoc

variable {α β : Type}

/-- The association that binds nothing. -/
def empty : Assoc α β := ⟨[], by simp⟩

instance : Inhabited (Assoc α β) := ⟨empty⟩

/-- The keys, oldest first. -/
def keys (m : Assoc α β) : List α := m.entries.map Prod.fst

/-- The number of keys. -/
def size (m : Assoc α β) : Nat := m.entries.length

variable [DecidableEq α]

instance [DecidableEq β] : DecidableEq (Assoc α β) := fun a b =>
  decidable_of_iff (a.entries = b.entries) (by cases a; cases b; simp)

/-- What a key is bound to. -/
def get? (m : Assoc α β) (k : α) : Option β := m.entries.lookup k

/-- Whether a key is bound. -/
def contains (m : Assoc α β) (k : α) : Bool := decide (k ∈ m.keys)

/-- The bindings with the value at `k` replaced, in place. -/
def replaceAt (k : α) (v : β) (es : List (α × β)) : List (α × β) :=
  es.map fun e => if e.1 = k then (e.1, v) else e

theorem map_fst_replaceAt (k : α) (v : β) (es : List (α × β)) :
    (replaceAt k v es).map Prod.fst = es.map Prod.fst := by
  simp only [replaceAt, List.map_map]
  refine List.map_congr_left fun e _ => ?_
  by_cases h : e.1 = k <;> simp [h]

/-- Bind `k` to `v`: in place if `k` is bound already, at the end otherwise. -/
def set (m : Assoc α β) (k : α) (v : β) : Assoc α β :=
  if h : k ∈ m.keys then
    ⟨replaceAt k v m.entries, by rw [map_fst_replaceAt]; exact m.nodup⟩
  else
    ⟨m.entries ++ [(k, v)], by
      have hk : ∀ a ∈ m.entries.map Prod.fst, a ≠ k := fun a ha he => h (he ▸ ha)
      rw [List.map_append, List.nodup_append]
      exact ⟨m.nodup, by simp, fun a ha b hb => by
        simp only [List.map_cons, List.map_nil, List.mem_singleton] at hb
        exact hb ▸ hk a ha⟩⟩

/-- Forget `k`. -/
def erase (m : Assoc α β) (k : α) : Assoc α β :=
  ⟨m.entries.filter fun e => decide (e.1 ≠ k),
    List.Sublist.nodup (List.filter_sublist.map Prod.fst) m.nodup⟩

/-! ## The view as a map -/

@[simp] theorem get?_empty (k : α) : (empty : Assoc α β).get? k = none := rfl

theorem lookup_eq_none_iff (es : List (α × β)) (k : α) :
    es.lookup k = none ↔ k ∉ es.map Prod.fst := by
  induction es with
  | nil => simp
  | cons e es ih =>
    obtain ⟨a, b⟩ := e
    by_cases h : k = a
    · simp [h]
    · have hb : (k == a) = false := beq_false_of_ne h
      simp [List.lookup_cons, hb, h, ih]

theorem lookup_replaceAt (k : α) (v : β) (es : List (α × β)) (x : α) :
    (replaceAt k v es).lookup x =
      if x = k then (es.lookup k).map (fun _ => v) else es.lookup x := by
  induction es with
  | nil => simp [replaceAt]
  | cons e es ih =>
    obtain ⟨a, b⟩ := e
    simp only [replaceAt, List.map_cons] at ih ⊢
    by_cases hx : x = k
    · subst hx
      by_cases h : a = x
      · subst h; simp
      · have hb : (x == a) = false := beq_false_of_ne (Ne.symm h)
        simp [List.lookup_cons, h, hb, ih]
    · by_cases h : a = k
      · subst h
        have hb : (x == a) = false := beq_false_of_ne hx
        simp [List.lookup_cons, hb, hx, ih]
      · simp [List.lookup_cons, h, hx, ih]

/-- A key is bound exactly if it is one of the keys. -/
theorem get?_eq_none_iff (m : Assoc α β) (k : α) : m.get? k = none ↔ k ∉ m.keys :=
  lookup_eq_none_iff m.entries k

theorem get?_set (m : Assoc α β) (k : α) (v : β) (x : α) :
    (m.set k v).get? x = if x = k then some v else m.get? x := by
  unfold set
  split
  case isTrue h =>
    have hk : m.entries.lookup k ≠ none := fun hn => (m.get?_eq_none_iff k).mp hn h
    obtain ⟨b, hb⟩ := Option.ne_none_iff_exists'.mp hk
    simp [get?, lookup_replaceAt, hb]
  case isFalse h =>
    simp only [get?, List.lookup_append]
    by_cases hx : x = k
    · subst hx
      simp [(lookup_eq_none_iff m.entries x).mpr h]
    · have hb : (x == k) = false := beq_false_of_ne hx
      simp [List.lookup_cons, hb, hx]

theorem get?_erase (m : Assoc α β) (k x : α) :
    (m.erase k).get? x = if x = k then none else m.get? x := by
  simp only [erase, get?]
  induction m.entries with
  | nil => simp
  | cons e es ih =>
    obtain ⟨a, b⟩ := e
    by_cases h : a = k
    · subst h
      by_cases hx : x = a
      · simpa [hx] using ih
      · have hb : (x == a) = false := beq_false_of_ne hx
        simpa [List.lookup_cons, hb, hx] using ih
    · by_cases hx : x = a
      · subst hx
        simp [h]
      · have hb : (x == a) = false := beq_false_of_ne hx
        simpa [List.lookup_cons, hb, h] using ih

/-- The bindings are what `get?` finds. -/
theorem mem_entries_iff (m : Assoc α β) (k : α) (v : β) :
    (k, v) ∈ m.entries ↔ m.get? k = some v := by
  obtain ⟨es, nd⟩ := m
  simp only [get?]
  induction es with
  | nil => simp
  | cons e es ih =>
    obtain ⟨a, b⟩ := e
    simp only [List.map_cons, List.nodup_cons] at nd
    by_cases h : k = a
    · subst h
      have : (k, v) ∉ es := fun hm => nd.1 (List.mem_map.mpr ⟨(k, v), hm, rfl⟩)
      simp [this, eq_comm]
    · have hb : (k == a) = false := beq_false_of_ne h
      simp [List.lookup_cons, hb, h, ih nd.2]

/-! ## The view as an order -/

/-- Setting a key that is bound keeps all places; a new key goes to the end. -/
theorem keys_set (m : Assoc α β) (k : α) (v : β) :
    (m.set k v).keys = if k ∈ m.keys then m.keys else m.keys ++ [k] := by
  unfold set
  split <;> simp [keys, map_fst_replaceAt]

/-- Set the bindings one after another. -/
def ofList (es : List (α × β)) : Assoc α β :=
  es.foldl (fun m e => m.set e.1 e.2) empty

/-- The bindings of one association, and those of another set on top of them. -/
def update (m n : Assoc α β) : Assoc α β := n.entries.foldl (fun m e => m.set e.1 e.2) m

theorem entries_foldl_set (es : List (α × β)) (m : Assoc α β)
    (h : ((m.entries ++ es).map Prod.fst).Nodup) :
    (es.foldl (fun m e => m.set e.1 e.2) m).entries = m.entries ++ es := by
  induction es generalizing m with
  | nil => simp
  | cons e es ih =>
    have hnew : e.1 ∉ m.keys := by
      rw [List.map_append, List.map_cons, List.nodup_append] at h
      exact fun he => h.2.2 _ he _ List.mem_cons_self rfl
    have hset : (m.set e.1 e.2).entries = m.entries ++ [e] := by simp [set, hnew]
    rw [List.foldl_cons, ih, hset, List.append_assoc]
    · rfl
    · rw [hset, List.append_assoc]
      exact h

/-- The bindings of an association give it back. -/
theorem ofList_entries (m : Assoc α β) : ofList m.entries = m := by
  have h : (ofList m.entries).entries = m.entries := entries_foldl_set m.entries empty m.nodup
  cases hm : ofList m.entries
  cases m
  simp_all

/-! ## Lists under keys

A key may stand for any number of values, which are kept in the order in which they came.
-/

/-- The values under a key; there are none if it is not bound. -/
def listAt (m : Assoc α (List β)) (k : α) : List β := (m.get? k).getD []

/-- Append a value to those under a key. -/
def push (m : Assoc α (List β)) (k : α) (v : β) : Assoc α (List β) := m.set k (m.listAt k ++ [v])

@[simp] theorem listAt_empty (k : α) : (empty : Assoc α (List β)).listAt k = [] := rfl

theorem listAt_push (m : Assoc α (List β)) (k : α) (v : β) (x : α) :
    (m.push k v).listAt x = if x = k then m.listAt x ++ [v] else m.listAt x := by
  unfold listAt push
  rw [get?_set]
  by_cases h : x = k
  · subst h
    simp [listAt]
  · simp [h]

/-- If each key has the values of a list that belong to it, then so it is with one more. -/
theorem listAt_push_filter {ε : Type} {key : ε → α} {val : ε → β} {es : List ε}
    {m : Assoc α (List β)}
    (h : ∀ k, m.listAt k = (es.filter fun e => key e = k).map val) (e : ε) (k : α) :
    (m.push (key e) (val e)).listAt k =
      ((es ++ [e]).filter fun e => key e = k).map val := by
  rw [listAt_push, h k, List.filter_append, List.map_append]
  by_cases hk : k = key e
  · simp [hk]
  · simp [hk, Ne.symm hk]

/-- The number of values under keys that are not in a list. -/
def sizeOutside (m : Assoc α (List β)) (ks : List α) : Nat :=
  ((m.entries.filter fun e => decide (e.1 ∉ ks)).flatMap fun e => e.2).length

/-- One more key leaves out the values under it. -/
theorem sizeOutside_cons (m : Assoc α (List β)) {ks : List α} {k : α} (h : k ∉ ks) :
    m.sizeOutside (k :: ks) + (m.listAt k).length = m.sizeOutside ks := by
  obtain ⟨es, nd⟩ := m
  simp only [sizeOutside, listAt, get?]
  induction es with
  | nil => rfl
  | cons e es ih =>
    obtain ⟨a, vs⟩ := e
    simp only [List.map_cons, List.nodup_cons] at nd
    have ih := ih nd.2
    by_cases hk : k = a
    · subst hk
      have hnone : es.lookup k = none := (lookup_eq_none_iff es k).mpr nd.1
      simp [hnone, h] at ih ⊢
      omega
    · have hb : (k == a) = false := beq_false_of_ne hk
      by_cases ha : a ∈ ks <;> simp [List.lookup_cons, hb, ha, Ne.symm hk] at ih ⊢ <;> omega

theorem sizeOutside_set (m : Assoc α (List β)) {ks : List α} {k : α} (h : k ∈ ks) (vs : List β) :
    (m.set k vs).sizeOutside ks = m.sizeOutside ks := by
  have hreplace : ∀ es : List (α × List β),
      (replaceAt k vs es).filter (fun e => decide (e.1 ∉ ks)) =
        es.filter fun e => decide (e.1 ∉ ks) := by
    intro es
    induction es with
    | nil => rfl
    | cons e es ih =>
      simp only [replaceAt, List.map_cons, List.filter_cons] at ih ⊢
      rw [ih]
      by_cases he : e.1 = k <;> simp [he, h]
  unfold set sizeOutside
  split
  · rw [hreplace]
  · simp [List.filter_append, h]

/-- One more value makes one more in all. -/
theorem sizeOutside_push (m : Assoc α (List β)) (k : α) (v : β) :
    (m.push k v).sizeOutside [] = m.sizeOutside [] + 1 := by
  have hk : k ∉ ([] : List α) := List.not_mem_nil
  rw [← sizeOutside_cons _ hk, ← sizeOutside_cons m hk, listAt_push, if_pos rfl, push,
    sizeOutside_set m List.mem_cons_self]
  simp only [List.length_append, List.length_cons, List.length_nil]
  omega

end Assoc

end ConstFlow
