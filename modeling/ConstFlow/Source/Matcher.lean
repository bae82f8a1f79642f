import ConstFlow.Text.Basic

/-!
# Matchers

The combinators in which the grammar is written. A matcher tries to match at a place of the text:
choice is ordered, repetition is greedy, and nothing that has matched is given up again.

A reply holds, beside the match, where attempts failed, inside a look-ahead as well. A syntax error
is reported at the greatest offset at which a grammar rule failed, or where the very first attempt
of all failed, if that is further on. Of later attempts only those count that are marked as a rule
by `rule`.
-/

namespace ConstFlow.Source

/-- A place in a text: the number of code points before it and the text from it on. -/
structure Cursor where
  offset : Nat
  rest : Text
  deriving DecidableEq, Repr, Inhabited

/-- The place at the start of a text. -/
def Cursor.start (text : Text) : Cursor := ⟨0, text⟩

/-- The place `n` code points on. -/
def Cursor.skip (c : Cursor) (n : Nat) : Cursor := ⟨c.offset + n, c.rest.drop n⟩

/-- Where attempts failed. -/
structure Failures where
  /-- The offset of the first one, of whatever kind. -/
  first? : Option Nat
  /-- The greatest offset at which a rule failed; zero if none did. -/
  furthest : Nat
  deriving DecidableEq, Repr, Inhabited

namespace Failures

/-- Nothing failed. -/
def none : Failures := ⟨.none, 0⟩

/-- An attempt that is no rule failed. -/
def single (offset : Nat) : Failures := ⟨some offset, 0⟩

/-- A rule failed. -/
def ofRule (offset : Nat) : Failures := ⟨some offset, offset⟩

/-- Failures, and then others. -/
def append (a b : Failures) : Failures := ⟨a.first?.or b.first?, max a.furthest b.furthest⟩

instance : Append Failures := ⟨append⟩

/-- Where a syntax error is reported. -/
def offset (f : Failures) : Nat := max (f.first?.getD 0) f.furthest

end Failures

/-- What comes of a matcher at a place. -/
structure Reply (α : Type) where
  /-- The value and the place after the match, if there is one. -/
  found? : Option (α × Cursor)
  /-- What failed on the way. -/
  failures : Failures

/-- Tries to match at a place. -/
def Matcher (α : Type) : Type := Cursor → Reply α

namespace Matcher

variable {α β : Type}

/-- Match nothing, and succeed. -/
def yield (a : α) : Matcher α := fun c => ⟨some (a, c), .none⟩

/-- Match one thing, then another that may depend on it. -/
def andThen (p : Matcher α) (f : α → Matcher β) : Matcher β := fun c =>
  match p c with
  | ⟨none, fs⟩ => ⟨none, fs⟩
  | ⟨some (a, c'), fs⟩ => ⟨(f a c').found?, fs ++ (f a c').failures⟩

instance : Monad Matcher where
  pure := yield
  bind := andThen

/-- A rule of the grammar: its failures count for where a syntax error is. -/
def rule (p : Matcher α) : Matcher α := fun c =>
  match p c with
  | ⟨none, fs⟩ => ⟨none, fs ++ .ofRule c.offset⟩
  | reply => reply

/-- Match as one step: whatever fails inside, the step fails at its start or not at all. -/
def step (p : Matcher α) : Matcher α := fun c =>
  match p c with
  | ⟨none, _⟩ => ⟨none, .single c.offset⟩
  | ⟨found, _⟩ => ⟨found, .none⟩

/-- The first of two that matches. -/
def orElse (p q : Matcher α) : Matcher α := fun c =>
  match p c with
  | ⟨none, fs⟩ => ⟨(q c).found?, fs ++ (q c).failures⟩
  | reply => reply

/-- The first of several that matches. -/
def oneOf : List (Matcher α) → Matcher α
  | [] => fun _ => ⟨none, .none⟩
  | p :: ps => orElse p (oneOf ps)

/-- One if it matches. At the end of the text it is not tried. -/
def optional (p : Matcher α) : Matcher (Option α) := fun c =>
  if c.rest.isEmpty then ⟨some (none, c), .none⟩
  else
    match p c with
    | ⟨none, fs⟩ => ⟨some (none, c), fs⟩
    | ⟨some (a, c'), fs⟩ => ⟨some (some a, c'), fs⟩

/-- As many as match one after another, at most `n`, until one is empty or the text ends. -/
def manyUpTo (p : Matcher α) : Nat → Matcher (List α)
  | 0, c => ⟨some ([], c), .none⟩
  | n + 1, c =>
    if c.rest.isEmpty then ⟨some ([], c), .none⟩
    else
      match p c with
      | ⟨none, fs⟩ => ⟨some ([], c), fs⟩
      | ⟨some (a, c'), fs⟩ =>
        if c.offset < c'.offset then
          let more := manyUpTo p n c'
          ⟨more.found?.map fun m => (a :: m.1, m.2), fs ++ more.failures⟩
        else ⟨some ([a], c'), fs⟩

/-- As many as match one after another. Each takes at least one code point, so there are no more of
them than there are code points left. -/
def many (p : Matcher α) : Matcher (List α) := fun c => manyUpTo p c.rest.length c

/-- Succeed, without moving, if the matcher does not match here. -/
def notAhead (p : Matcher α) : Matcher Unit := fun c =>
  match p c with
  | ⟨none, fs⟩ => ⟨some ((), c), fs⟩
  | ⟨some _, fs⟩ => ⟨none, fs ++ .single c.offset⟩

/-- The place where the match begins. -/
def here : Matcher Nat := fun c => ⟨some (c.offset, c), .none⟩

/-- This text. -/
def token (t : Text) : Matcher Unit := fun c =>
  if t.isPrefixOf c.rest then ⟨some ((), c.skip t.length), .none⟩ else ⟨none, .single c.offset⟩

/-- One code point. -/
def anything : Matcher CodePoint := fun c =>
  match c.rest with
  | x :: _ => ⟨some (x, c.skip 1), .none⟩
  | [] => ⟨none, .single c.offset⟩

/-- One character of a class. -/
def charOf (p : Char → Bool) : Matcher Char := fun c =>
  match c.rest with
  | .scalar x :: _ => if p x then ⟨some (x, c.skip 1), .none⟩ else ⟨none, .single c.offset⟩
  | _ => ⟨none, .single c.offset⟩

/-- The longest run of characters of a class, which may be empty. -/
def runOf (p : Char → Bool) : Matcher (List Char) := fun c =>
  let run := Text.leading p c.rest
  ⟨some (run, c.skip run.length), .none⟩

end Matcher

end ConstFlow.Source
