import ConstFlow.Text.Basic

/-!
# Worklists

A queue of pending items that never holds the same item twice. It is read from either end, so it
is kept as two lists: `front`, oldest first, and `back`, newest first. `toList` is the queue that
they stand for, oldest item first.

Whether an item is pending is not looked up in the queue but in `members`, a set beside it. Every
operation changes the two together.
-/

namespace ConstFlow

/-- Which end of a worklist the next item is taken from. -/
inductive Strategy where
  | fifo
  | lifo
  deriving DecidableEq, Repr, Inhabited

namespace Strategy

/-- Both strategies. -/
def all : List Strategy := [fifo, lifo]

/-- The name of a strategy. -/
def name : Strategy → String
  | fifo => "fifo"
  | lifo => "lifo"

/-- The strategy of that name. -/
def ofName? (t : Text) : Option Strategy := all.find? fun s => s.name = t

end Strategy

/-- Pending items: the older ones oldest first, the newer ones newest first, and the set of them. -/
structure Worklist (α : Type) where
  front : List α
  back : List α
  members : List α
  deriving Repr

namespace Worklist

variable {α : Type}

/-- Nothing pending. -/
def empty : Worklist α := ⟨[], [], []⟩

/-- The pending items, oldest first. -/
def toList (w : Worklist α) : List α := w.front ++ w.back.reverse

/-- The number of pending items. -/
def size (w : Worklist α) : Nat := w.front.length + w.back.length

theorem length_toList (w : Worklist α) : w.toList.length = w.size := by simp [toList, size]

variable [DecidableEq α]

/-- Whether an item is pending. -/
def contains (w : Worklist α) (a : α) : Bool := w.members.contains a

/-- The members without an item. -/
def discard (w : Worklist α) (a : α) : List α := w.members.filter (· ≠ a)

/-- Take the oldest pending item. -/
def popOldest? (w : Worklist α) : Option (α × Worklist α) :=
  match w.front with
  | a :: rest => some (a, ⟨rest, w.back, w.discard a⟩)
  | [] =>
    match w.back.reverse with
    | a :: rest => some (a, ⟨rest, [], w.discard a⟩)
    | [] => none

/-- Take the newest pending item. -/
def popNewest? (w : Worklist α) : Option (α × Worklist α) :=
  match w.back with
  | a :: rest => some (a, ⟨w.front, rest, w.discard a⟩)
  | [] =>
    match w.front.reverse with
    | a :: rest => some (a, ⟨[], rest, w.discard a⟩)
    | [] => none

/-- Take the next item by a strategy. There is none exactly when nothing is queued. -/
def pop? (w : Worklist α) : Strategy → Option (α × Worklist α)
  | .fifo => w.popOldest?
  | .lifo => w.popNewest?

/-- Make an item pending, as the newest one; nothing happens if it is pending already. -/
def add (w : Worklist α) (a : α) : Worklist α :=
  if w.contains a then w else ⟨w.front, a :: w.back, a :: w.members⟩

/-- Add items one after another. -/
def addAll (w : Worklist α) (as : List α) : Worklist α := as.foldl add w

/-- The worklist of some items. -/
def ofList (as : List α) : Worklist α := empty.addAll as

/-- The oldest item is the head of the queue, and leaves the set. -/
theorem popOldest?_eq (w : Worklist α) :
    w.popOldest?.map (fun p => (p.1, p.2.toList, p.2.members)) =
      match w.toList with
      | [] => none
      | a :: rest => some (a, rest, w.discard a) := by
  obtain ⟨front, back, members⟩ := w
  cases front with
  | cons a rest => rfl
  | nil => cases h : back.reverse <;> simp [popOldest?, toList, discard, h]

/-- The newest item is the last of the queue, and leaves the set. -/
theorem popNewest?_eq (w : Worklist α) :
    w.popNewest?.map (fun p => (p.1, p.2.toList.reverse, p.2.members)) =
      match w.toList.reverse with
      | [] => none
      | a :: rest => some (a, rest, w.discard a) := by
  obtain ⟨front, back, members⟩ := w
  cases back with
  | cons a rest => simp [popNewest?, toList, discard]
  | nil => cases h : front.reverse <;> simp [popNewest?, toList, discard, h]

theorem contains_iff (w : Worklist α) (a : α) : w.contains a = true ↔ a ∈ w.members := by
  simp [contains]

theorem mem_discard {w : Worklist α} {a b : α} : b ∈ w.discard a ↔ b ∈ w.members ∧ b ≠ a := by
  simp [discard]

/-! ## Requests -/

/-- What can be asked of a worklist. -/
inductive Request (α : Type) where
  | add (a : α)
  | addAll (as : List α)
  | pop (s : Strategy)
  deriving DecidableEq, Repr

/-- What a worklist answers. -/
inductive Reply (α : Type) where
  /-- Whether the item was not pending before. -/
  | added (new : Bool)
  | done
  | popped (a : α)
  /-- There is nothing to take. -/
  | nothing
  deriving DecidableEq, Repr

/-- Answer a request. -/
def serve (w : Worklist α) : Request α → Reply α × Worklist α
  | .add a => (.added !w.contains a, w.add a)
  | .addAll as => (.done, w.addAll as)
  | .pop s =>
    match w.pop? s with
    | some (a, rest) => (.popped a, rest)
    | none => (.nothing, w)

end Worklist

end ConstFlow
