/-!
# Texts

In JSON an escape can name one half of a surrogate pair without the other. No string can hold that,
so a text is a list of code points: characters, and surrogates that stand alone. Every string is a
text, and is taken for one wherever a text is wanted.
-/

namespace ConstFlow

/-- A code point: a character, or a surrogate without its other half. -/
inductive CodePoint where
  | scalar (c : Char)
  /-- The surrogate that many places after `U+D800`. -/
  | surrogate (place : Fin 2048)
  deriving DecidableEq, Repr, Inhabited

namespace CodePoint

/-- The number of a code point. -/
def code : CodePoint → Nat
  | scalar c => c.toNat
  | surrogate place => 0xd800 + place.val

/-- The code point of a number; the replacement character if the number is too large for one. -/
def ofCode (n : Nat) : CodePoint :=
  if h : n.isValidChar then scalar (Char.ofNatAux n h)
  else if h : n - 0xd800 < 2048 then surrogate ⟨n - 0xd800, h⟩
  else scalar (Char.ofNat 0xfffd)

instance : LT CodePoint := ⟨fun a b => a.code < b.code⟩

instance : DecidableLT CodePoint := fun a b => inferInstanceAs (Decidable (a.code < b.code))

/-- Whether a code point is a surrogate. -/
def isSurrogate : CodePoint → Bool
  | scalar _ => false
  | surrogate _ => true

/-- Whether a code point is a character of a class. -/
def isIn (p : Char → Bool) : CodePoint → Bool
  | scalar c => p c
  | surrogate _ => false

end CodePoint

/-- A text. -/
abbrev Text : Type := List CodePoint

namespace Text

/-- The equality test of texts is equality. -/
instance : LawfulBEq Text := inferInstance

/-- Characters as a text. -/
def ofChars (cs : List Char) : Text := cs.map .scalar

/-- A string as a text. -/
def ofString (s : String) : Text := ofChars s.toList

instance : Coe String Text := ⟨ofString⟩

/-- The characters of a text, unless it holds a surrogate. -/
def chars? (t : Text) : Option (List Char) :=
  t.mapM fun
    | .scalar c => some c
    | .surrogate _ => none

/-- The characters of a class that a text starts with. -/
def leading (p : Char → Bool) : Text → List Char
  | .scalar c :: rest => if p c then c :: leading p rest else []
  | _ => []

/-- Texts one after another, with a separator between them. -/
def join (separator : Text) (parts : List Text) : Text := List.intercalate separator parts

/-- A text with the letters of ASCII in lower case. -/
def toLower (t : Text) : Text :=
  t.map fun
    | .scalar c => .scalar c.toLower
    | p => p

/-- The characters that a text is made of come back. -/
@[simp] theorem chars?_ofChars (cs : List Char) : chars? (ofChars cs) = some cs := by
  induction cs with
  | nil => rfl
  | cons c cs ih =>
    simp only [chars?, ofChars, List.map_cons, List.mapM_cons] at ih ⊢
    simp [ih]

@[simp] theorem chars?_ofString (s : String) : chars? (ofString s) = some s.toList :=
  chars?_ofChars s.toList

end Text

end ConstFlow
