import Mathlib.Data.List.Induction
import Mathlib.Data.List.Nodup
import ConstFlow.Analysis.Worklist

/-!
# Worklists as lists

A worklist behaves like the list of its items, oldest first, in which none occurs twice. It looks up
in its set of members what it queues in two lists, so everything rests on the set and the queue
being in step (`InStep`). Each request keeps them so: an item enters both or neither, and since it
is queued only once, taking it from the queue and out of the set leaves the same others in both.

`Serves` says what each request does to the list and what the answer is, and a worklist in step does
just that (`InStep.serves_iff`). Over a sequence of requests, an item that was added is pending, or
it was popped after the request that last made it pending. Where the set and the queue went out of
step, an item would be lost here.
-/

namespace ConstFlow.Worklist

variable {α : Type} [DecidableEq α]

/-! ## Taking items -/

theorem of_popOldest? {w rest : Worklist α} {a : α} (h : w.popOldest? = some (a, rest)) :
    w.toList = a :: rest.toList ∧ rest.members = w.discard a := by
  have hw := w.popOldest?_eq
  rw [h] at hw
  split at hw
  · cases hw
  · rename_i b bs hl
    obtain ⟨rfl, hrest⟩ := Prod.mk.inj (Option.some.inj hw)
    obtain ⟨rfl, hmembers⟩ := Prod.mk.inj hrest
    exact ⟨hl, hmembers⟩

theorem of_popNewest? {w rest : Worklist α} {a : α} (h : w.popNewest? = some (a, rest)) :
    w.toList = rest.toList ++ [a] ∧ rest.members = w.discard a := by
  have hw := w.popNewest?_eq
  rw [h] at hw
  split at hw
  · cases hw
  · rename_i b bs hl
    obtain ⟨rfl, hrest⟩ := Prod.mk.inj (Option.some.inj hw)
    obtain ⟨rfl, hmembers⟩ := Prod.mk.inj hrest
    refine ⟨?_, hmembers⟩
    rw [← List.reverse_reverse w.toList, hl, List.reverse_cons, List.reverse_reverse]

/-- Whatever the strategy, an item is taken out and the others stay. -/
theorem perm_of_pop? {w rest : Worklist α} {s : Strategy} {a : α}
    (h : w.pop? s = some (a, rest)) : w.toList.Perm (a :: rest.toList) := by
  cases s with
  | fifo => rw [(of_popOldest? h).1]
  | lifo =>
      rw [(of_popNewest? h).1]
      exact List.perm_append_singleton a rest.toList

theorem members_of_pop? {w rest : Worklist α} {s : Strategy} {a : α}
    (h : w.pop? s = some (a, rest)) : rest.members = w.discard a := by
  cases s with
  | fifo => exact (of_popOldest? h).2
  | lifo => exact (of_popNewest? h).2

theorem exists_pop? {w : Worklist α} (h : w.size ≠ 0) (s : Strategy) :
    ∃ a rest, w.pop? s = some (a, rest) := by
  have hne : w.toList ≠ [] := fun hn => h (by rw [← length_toList, hn]; rfl)
  cases hp : w.pop? s with
  | some p => exact ⟨p.1, p.2, rfl⟩
  | none =>
      exfalso
      cases s with
      | fifo =>
          have hw := w.popOldest?_eq
          rw [show w.popOldest? = none from hp] at hw
          split at hw
          · exact hne ‹_›
          · cases hw
      | lifo =>
          have hw := w.popNewest?_eq
          rw [show w.popNewest? = none from hp] at hw
          split at hw
          · exact hne (List.reverse_eq_nil_iff.mp ‹_›)
          · cases hw

theorem toList_eq_nil_of_pop? {w : Worklist α} {s : Strategy} (h : w.pop? s = none) :
    w.toList = [] := by
  by_contra hne
  have hsize : w.size ≠ 0 := by rwa [← length_toList, Ne, List.length_eq_zero_iff]
  obtain ⟨a, rest, hp⟩ := exists_pop? hsize s
  cases h.symm.trans hp

/-! ## Adding items -/

theorem add_of_mem {w : Worklist α} {a : α} (h : a ∈ w.members) : w.add a = w :=
  if_pos ((w.contains_iff a).mpr h)

theorem add_of_not_mem {w : Worklist α} {a : α} (h : a ∉ w.members) :
    w.add a = ⟨w.front, a :: w.back, a :: w.members⟩ :=
  if_neg fun hc => h ((w.contains_iff a).mp hc)

theorem toList_add_of_not_mem {w : Worklist α} {a : α} (h : a ∉ w.members) :
    (w.add a).toList = w.toList ++ [a] := by
  simp [add_of_not_mem h, toList]

theorem size_add (w : Worklist α) (a : α) :
    w.size ≤ (w.add a).size ∧ (w.add a).size ≤ w.size + 1 := by
  by_cases h : a ∈ w.members
  · rw [add_of_mem h]
    exact ⟨Nat.le_refl _, Nat.le_succ _⟩
  · rw [← length_toList, ← length_toList, toList_add_of_not_mem h]
    simp

/-- Adding takes nothing away, and adds no more than what is given. -/
theorem size_addAll {as : List α} : ∀ (w : Worklist α),
    w.size ≤ (w.addAll as).size ∧ (w.addAll as).size ≤ w.size + as.length := by
  induction as with
  | nil => exact fun w => ⟨Nat.le_refl _, Nat.le_refl _⟩
  | cons a as ih =>
      intro w
      have h1 := ih (w.add a)
      have h2 := w.size_add a
      rw [show w.addAll (a :: as) = (w.add a).addAll as from rfl, List.length_cons]
      omega

/-! ## The set and the queue -/

/-- The set and the queue are in step: the members are the queued items, and none of these is queued
twice. -/
structure InStep (w : Worklist α) : Prop where
  nodup : w.toList.Nodup
  mem_members : ∀ {a : α}, a ∈ w.members ↔ a ∈ w.toList

omit [DecidableEq α] in
theorem inStep_empty : (empty : Worklist α).InStep := ⟨List.nodup_nil, Iff.rfl⟩

namespace InStep

variable {w : Worklist α} (hw : w.InStep)
include hw

/-- A new item comes last; one that is pending keeps its place. -/
theorem toList_add (a : α) :
    (w.add a).toList = if a ∈ w.toList then w.toList else w.toList ++ [a] := by
  by_cases h : a ∈ w.members
  · rw [add_of_mem h, if_pos (hw.mem_members.mp h)]
  · rw [toList_add_of_not_mem h, if_neg (mt hw.mem_members.mpr h)]

theorem add (a : α) : (w.add a).InStep := by
  by_cases h : a ∈ w.members
  · rw [add_of_mem h]
    exact hw
  · constructor
    · rw [toList_add_of_not_mem h]
      refine hw.nodup.append (List.nodup_singleton a) (List.disjoint_singleton.mpr ?_)
      exact mt hw.mem_members.mpr h
    · intro b
      rw [toList_add_of_not_mem h, add_of_not_mem h, List.mem_append, List.mem_singleton,
        List.mem_cons, hw.mem_members, or_comm]

/-- An item leaves the set when it leaves the queue. Were it queued a second time, it would be
pending and yet no member. -/
theorem pop? {rest : Worklist α} {s : Strategy} {a : α} (h : w.pop? s = some (a, rest)) :
    rest.InStep := by
  have hperm := perm_of_pop? h
  obtain ⟨hfresh, hnodup⟩ := List.nodup_cons.mp (hperm.nodup_iff.mp hw.nodup)
  refine ⟨hnodup, ?_⟩
  intro b
  rw [members_of_pop? h, mem_discard, hw.mem_members, hperm.mem_iff, List.mem_cons]
  constructor
  · rintro ⟨hba | hb, hne⟩
    · exact absurd hba hne
    · exact hb
  · intro hb
    exact ⟨.inr hb, fun hba => hfresh (hba ▸ hb)⟩

theorem mem_add {a b : α} : b ∈ (w.add a).toList ↔ b ∈ w.toList ∨ b = a := by
  rw [hw.toList_add]
  split
  · rename_i h
    exact ⟨Or.inl, fun hb => hb.elim id fun hba => hba ▸ h⟩
  · rw [List.mem_append, List.mem_singleton]

end InStep

theorem InStep.addAll {as : List α} : ∀ {w : Worklist α}, w.InStep → (w.addAll as).InStep := by
  induction as with
  | nil => exact fun hw => hw
  | cons a as ih => exact fun hw => ih (hw.add a)

theorem InStep.mem_addAll {b : α} :
    ∀ {as : List α} {w : Worklist α}, w.InStep →
      (b ∈ (w.addAll as).toList ↔ b ∈ w.toList ∨ b ∈ as)
  | [], w, _ => by simp [Worklist.addAll]
  | a :: as, w, hw => by
      rw [show w.addAll (a :: as) = (w.add a).addAll as from rfl, (hw.add a).mem_addAll,
        hw.mem_add, List.mem_cons, or_assoc]

theorem inStep_ofList (as : List α) : (ofList as).InStep := inStep_empty.addAll

/-- Distinct items are queued as they come. -/
theorem toList_ofList {as : List α} (h : as.Nodup) : (ofList as).toList = as := by
  suffices hs : ∀ (bs : List α) (w : Worklist α), w.InStep → (w.toList ++ bs).Nodup →
      (w.addAll bs).toList = w.toList ++ bs from hs as empty inStep_empty h
  intro bs
  induction bs with
  | nil => exact fun w _ _ => (List.append_nil _).symm
  | cons b bs ih =>
      intro w hw hnodup
      have hb : b ∉ w.toList := fun hm =>
        (List.disjoint_of_nodup_append hnodup) hm List.mem_cons_self
      have hadd : (w.add b).toList = w.toList ++ [b] := by rw [hw.toList_add, if_neg hb]
      rw [show w.addAll (b :: bs) = (w.add b).addAll bs from rfl, ih _ (hw.add b)]
      · rw [hadd, List.append_assoc, List.singleton_append]
      · rw [hadd, List.append_assoc, List.singleton_append]
        exact hnodup

/-! ## Requests -/

/-- What a request does to a list of items, oldest first, and what is answered. -/
inductive Serves : List α → Request α → Reply α → List α → Prop where
  | added {l : List α} {a : α} (new : a ∉ l) : Serves l (.add a) (.added true) (l ++ [a])
  | kept {l : List α} {a : α} (pending : a ∈ l) : Serves l (.add a) (.added false) l
  | addedNone (l : List α) : Serves l (.addAll []) .done l
  | addedAll {l l' l'' as : List α} {a : α} {reply : Reply α} (first : Serves l (.add a) reply l')
      (rest : Serves l' (.addAll as) .done l'') : Serves l (.addAll (a :: as)) .done l''
  | oldest {l rest : List α} {a : α} (starts : l = a :: rest) :
      Serves l (.pop .fifo) (.popped a) rest
  | newest {l rest : List α} {a : α} (ends : l = rest ++ [a]) :
      Serves l (.pop .lifo) (.popped a) rest
  | nothing (s : Strategy) : Serves [] (.pop s) .nothing []

omit [DecidableEq α] in
theorem Serves.unique {l l' : List α} {r : Request α} {reply : Reply α} (h : Serves l r reply l') :
    ∀ {reply' l''}, Serves l r reply' l'' → reply' = reply ∧ l'' = l' := by
  induction h with
  | added new =>
      intro _ _ h
      cases h with
      | added => exact ⟨rfl, rfl⟩
      | kept pending => exact absurd pending new
  | kept pending =>
      intro _ _ h
      cases h with
      | added new => exact absurd pending new
      | kept => exact ⟨rfl, rfl⟩
  | addedNone l =>
      intro _ _ h
      cases h with
      | addedNone => exact ⟨rfl, rfl⟩
  | addedAll _ _ ihFirst ihRest =>
      intro _ _ h
      cases h with
      | addedAll first rest =>
          obtain ⟨-, rfl⟩ := ihFirst first
          exact ihRest rest
  | oldest starts =>
      intro _ _ h
      cases h with
      | oldest starts' =>
          obtain ⟨rfl, rfl⟩ := List.cons.inj (starts.symm.trans starts')
          exact ⟨rfl, rfl⟩
      | nothing => cases starts
  | newest ends =>
      intro _ _ h
      cases h with
      | newest ends' =>
          obtain ⟨rfl, hlast⟩ := List.append_inj' (ends.symm.trans ends') rfl
          obtain rfl := List.singleton_injective hlast
          exact ⟨rfl, rfl⟩
      | nothing => simp at ends
  | nothing s =>
      intro _ _ h
      cases h with
      | oldest starts => cases starts
      | newest ends => simp at ends
      | nothing => exact ⟨rfl, rfl⟩

theorem serve_of_pop?_eq_none {w : Worklist α} {s : Strategy} (h : w.pop? s = none) :
    w.serve (.pop s) = (.nothing, w) := by
  simp [serve, h]

theorem serve_of_pop?_eq_some {w rest : Worklist α} {s : Strategy} {a : α}
    (h : w.pop? s = some (a, rest)) : w.serve (.pop s) = (.popped a, rest) := by
  simp [serve, h]

/-- The items that a request asks to add. -/
def Request.items : Request α → List α
  | .add a => [a]
  | .addAll as => as
  | .pop _ => []

theorem items_eq_nil_of_popped {w : Worklist α} {r : Request α} {a : α}
    (h : (w.serve r).1 = .popped a) : r.items = [] := by
  cases r with
  | add b => cases h
  | addAll as => cases h
  | pop s => rfl

/-- A request that finds nothing to take changes nothing. -/
theorem serve_eq_of_nothing {w : Worklist α} {r : Request α} (h : (w.serve r).1 = .nothing) :
    (w.serve r).2 = w := by
  cases r with
  | add b => cases h
  | addAll as => cases h
  | pop s =>
      cases hp : w.pop? s with
      | none => rw [serve_of_pop?_eq_none hp]
      | some p =>
          rw [serve_of_pop?_eq_some hp] at h
          cases h

namespace InStep

theorem serve {w : Worklist α} (hw : w.InStep) (r : Request α) : (w.serve r).2.InStep := by
  cases r with
  | add a => exact hw.add a
  | addAll as => exact hw.addAll
  | pop s =>
      cases hp : w.pop? s with
      | none =>
          rw [serve_of_pop?_eq_none hp]
          exact hw
      | some p =>
          rw [serve_of_pop?_eq_some hp]
          exact hw.pop? hp

theorem serves_add {w : Worklist α} (hw : w.InStep) (a : α) :
    Serves w.toList (.add a) (.added !w.contains a) (w.add a).toList := by
  have hcontains : w.contains a = true ↔ a ∈ w.toList := (w.contains_iff a).trans hw.mem_members
  rw [hw.toList_add]
  by_cases h : a ∈ w.toList
  · rw [if_pos h, hcontains.mpr h]
    exact .kept h
  · rw [if_neg h, Bool.eq_false_iff.mpr (mt hcontains.mp h)]
    exact .added h

theorem serves_addAll (as : List α) :
    ∀ {w : Worklist α}, w.InStep → Serves w.toList (.addAll as) .done (w.addAll as).toList := by
  induction as with
  | nil => exact fun {w} _ => .addedNone w.toList
  | cons a as ih => exact fun hw => .addedAll (hw.serves_add a) (ih (hw.add a))

theorem serves {w : Worklist α} (hw : w.InStep) (r : Request α) :
    Serves w.toList r (w.serve r).1 (w.serve r).2.toList := by
  cases r with
  | add a => exact hw.serves_add a
  | addAll as => exact hw.serves_addAll as
  | pop s =>
      cases hp : w.pop? s with
      | none =>
          rw [serve_of_pop?_eq_none hp, toList_eq_nil_of_pop? hp]
          exact .nothing s
      | some p =>
          rw [serve_of_pop?_eq_some hp]
          cases s with
          | fifo => exact .oldest (of_popOldest? hp).1
          | lifo => exact .newest (of_popNewest? hp).1

/-- The worklist does to its items what `Serves` allows, and nothing else. -/
theorem serves_iff {w : Worklist α} (hw : w.InStep) (r : Request α) {reply : Reply α}
    {l : List α} :
    Serves w.toList r reply l ↔ reply = (w.serve r).1 ∧ l = (w.serve r).2.toList := by
  constructor
  · exact (hw.serves r).unique
  · rintro ⟨rfl, rfl⟩
    exact hw.serves r

/-- What is pending after a request was asked for, or was pending before and not taken. -/
theorem mem_serve {w : Worklist α} (hw : w.InStep) {r : Request α} {a : α} :
    a ∈ (w.serve r).2.toList ↔
      a ∈ r.items ∨ a ∈ w.toList ∧ (w.serve r).1 ≠ .popped a := by
  cases r with
  | add b => simp [Worklist.serve, Request.items, hw.mem_add, or_comm]
  | addAll as => simp [Worklist.serve, Request.items, hw.mem_addAll, or_comm]
  | pop s =>
      cases hp : w.pop? s with
      | none => simp [serve_of_pop?_eq_none hp, Request.items]
      | some p =>
          obtain ⟨b, rest⟩ := p
          rw [serve_of_pop?_eq_some hp]
          have hperm := perm_of_pop? hp
          have hb : b ∉ rest.toList := (List.nodup_cons.mp (hperm.nodup_iff.mp hw.nodup)).1
          have hmem : a ∈ w.toList ↔ a = b ∨ a ∈ rest.toList := by
            rw [hperm.mem_iff, List.mem_cons]
          simp only [Request.items, List.not_mem_nil, false_or, hmem, ne_eq, Reply.popped.injEq]
          constructor
          · intro ha
            exact ⟨.inr ha, fun hba => hb (hba ▸ ha)⟩
          · rintro ⟨rfl | ha, hne⟩
            · exact absurd rfl hne
            · exact ha

end InStep

/-! ## Sequences of requests -/

/-- The worklist after some requests. -/
def after (w : Worklist α) (rs : List (Request α)) : Worklist α :=
  rs.foldl (fun w r => (w.serve r).2) w

/-- A request that was served: the worklist before it, and the answer. -/
structure Served (α : Type) where
  before : Worklist α
  request : Request α
  reply : Reply α

/-- Requests as they are served, one after another. -/
def history (w : Worklist α) : List (Request α) → List (Served α)
  | [] => []
  | r :: rs => ⟨w, r, (w.serve r).1⟩ :: (w.serve r).2.history rs

/-- An item becomes pending. -/
def Served.Adds (s : Served α) (a : α) : Prop := a ∈ s.request.items ∧ a ∉ s.before.toList

/-- What was served since the request by which an item became pending for the last time. -/
def SinceLastAdded (a : α) (served since : List (Served α)) : Prop :=
  ∃ earlier s, served = earlier ++ s :: since ∧ s.Adds a ∧ ∀ t ∈ since, ¬ t.Adds a

/-- Whatever is asked for, the set and the queue stay in step. -/
theorem InStep.after {rs : List (Request α)} :
    ∀ {w : Worklist α}, w.InStep → (w.after rs).InStep := by
  induction rs with
  | nil => exact fun hw => hw
  | cons r rs ih => exact fun hw => ih (hw.serve r)

theorem inStep_after_empty (rs : List (Request α)) : ((empty : Worklist α).after rs).InStep :=
  inStep_empty.after

theorem after_concat (w : Worklist α) (rs : List (Request α)) (r : Request α) :
    w.after (rs ++ [r]) = ((w.after rs).serve r).2 := List.foldl_concat ..

theorem history_concat (rs : List (Request α)) (r : Request α) :
    ∀ w : Worklist α, w.history (rs ++ [r]) =
      w.history rs ++ [⟨w.after rs, r, ((w.after rs).serve r).1⟩] := by
  induction rs with
  | nil => exact fun w => rfl
  | cons q rs ih => exact fun w => congrArg (_ :: ·) (ih (w.serve q).2)

/-- What is pending was asked for. -/
theorem exists_request_of_mem_after {a : α} {rs : List (Request α)}
    (h : a ∈ ((empty : Worklist α).after rs).toList) :
    ∃ s ∈ (empty : Worklist α).history rs, a ∈ s.request.items := by
  induction rs using List.reverseRecOn with
  | nil => cases h
  | append_singleton rs r ih =>
      rw [after_concat, (inStep_after_empty rs).mem_serve] at h
      rw [history_concat]
      rcases h with hr | ⟨hpending, -⟩
      · exact ⟨_, List.mem_append_right _ (List.mem_singleton_self _), hr⟩
      · obtain ⟨s, hs, ha⟩ := ih hpending
        exact ⟨s, List.mem_append_left _ hs, ha⟩

omit [DecidableEq α] in
theorem SinceLastAdded.concat {a : α} {served since : List (Served α)} {s : Served α}
    (h : SinceLastAdded a served since) (hs : ¬ s.Adds a) :
    SinceLastAdded a (served ++ [s]) (since ++ [s]) := by
  obtain ⟨earlier, t, rfl, ht, hsince⟩ := h
  refine ⟨earlier, t, by simp, ht, ?_⟩
  intro u hu
  rcases List.mem_append.mp hu with hu | hu
  · exact hsince u hu
  · exact List.mem_singleton.mp hu ▸ hs

/-- An item that was asked for became pending at some time, and is pending unless it was taken since
the last time. -/
theorem exists_sinceLastAdded {a : α} {rs : List (Request α)}
    (h : ∃ s ∈ (empty : Worklist α).history rs, a ∈ s.request.items) :
    ∃ since, SinceLastAdded a (empty.history rs) since ∧
      (a ∈ (empty.after rs).toList ↔ ¬ ∃ t ∈ since, t.reply = .popped a) := by
  induction rs using List.reverseRecOn with
  | nil =>
      obtain ⟨s, hs, -⟩ := h
      cases hs
  | append_singleton rs r ih =>
      rw [history_concat] at h ⊢
      rw [after_concat, (inStep_after_empty rs).mem_serve]
      by_cases hadds : Served.Adds ⟨empty.after rs, r, ((empty.after rs).serve r).1⟩ a
      · exact ⟨[], ⟨_, _, rfl, hadds, by simp⟩, by simp [hadds.1]⟩
      · have hkept : a ∈ r.items → a ∈ ((empty : Worklist α).after rs).toList := fun ha =>
          not_not.mp fun hno => hadds ⟨ha, hno⟩
        have hasked : ∃ s ∈ (empty : Worklist α).history rs, a ∈ s.request.items := by
          obtain ⟨s, hs, ha⟩ := h
          rcases List.mem_append.mp hs with hs | hs
          · exact ⟨s, hs, ha⟩
          · obtain rfl := List.mem_singleton.mp hs
            exact exists_request_of_mem_after (hkept ha)
        obtain ⟨since, hsince, hpending⟩ := ih hasked
        refine ⟨_, hsince.concat hadds, ?_⟩
        have hitems : a ∈ r.items → ((empty.after rs).serve r).1 ≠ .popped a := fun ha hp =>
          List.not_mem_nil (items_eq_nil_of_popped hp ▸ ha)
        calc (a ∈ r.items ∨ a ∈ (empty.after rs).toList ∧ ((empty.after rs).serve r).1 ≠ .popped a)
          _ ↔ a ∈ (empty.after rs).toList ∧ ((empty.after rs).serve r).1 ≠ .popped a :=
              or_iff_right_of_imp fun ha => ⟨hkept ha, hitems ha⟩
          _ ↔ (¬ ∃ t ∈ since, t.reply = .popped a) ∧
                ((empty.after rs).serve r).1 ≠ .popped a := by rw [hpending]
          _ ↔ _ := by simp

/-- **A worklist is a list without repetitions.** After any requests, whatever the ends that items
are taken from, the set of members holds just the items in the queue, and none is queued twice. The
next request does to the queue what `Serves` says: an item is appended, and the answer is yes,
exactly if it is not pending; the oldest or the newest item is taken and the others keep their
order; nothing is taken from an empty queue, and the worklist stays as it is then. An item that was
ever asked for has been made pending, and since the last time it was, either it has been taken or it
is pending still. -/
theorem serves_without_repetition (rs : List (Request α)) :
    let w := (empty : Worklist α).after rs
    (∀ a, a ∈ w.members ↔ a ∈ w.toList) ∧ w.toList.Nodup ∧
      (∀ r reply l, Serves w.toList r reply l ↔
        reply = (w.serve r).1 ∧ l = (w.serve r).2.toList) ∧
      (∀ r, (w.serve r).1 = .nothing → (w.serve r).2 = w) ∧
      ∀ a, (∃ s ∈ (empty : Worklist α).history rs, a ∈ s.request.items) →
        ∃ since, SinceLastAdded a (empty.history rs) since ∧
          (a ∈ w.toList ↔ ¬ ∃ t ∈ since, t.reply = .popped a) := by
  intro w
  have hw : w.InStep := inStep_after_empty rs
  refine ⟨fun a => hw.mem_members, hw.nodup, ?_, ?_, ?_⟩
  · intro r reply l
    exact hw.serves_iff r
  · intro r h
    exact serve_eq_of_nothing h
  · intro a ha
    exact exists_sinceLastAdded ha

end ConstFlow.Worklist
