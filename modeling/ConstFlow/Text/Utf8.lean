import ConstFlow.Text.Quoted

/-!
# Texts as bytes

Characters have a form in UTF-8, and surrogates have none. A path may hold surrogates all the same:
those from `U+DC80` to `U+DCFF` stand for the bytes of a file name that are no UTF-8.
-/

namespace ConstFlow.Text

/-- Surrogates that stand in the way, and the offset of the first. -/
structure EncodeError where
  offset : Nat
  surrogates : Text
  deriving DecidableEq, Repr, Inhabited

/-- An error in words. -/
def EncodeError.message (e : EncodeError) : String :=
  let which :=
    if e.surrogates.length = 1 then
      "character " ++ quote e.surrogates ++ " in position " ++ toString e.offset
    else
      "characters in position " ++ toString e.offset ++ "-" ++
        toString (e.offset + e.surrogates.length - 1)
  "'utf-8' codec can't encode " ++ which ++ ": surrogates not allowed"

/-- The first surrogate that is not allowed, with the surrogates that follow it. -/
def unencodable? (allowed : CodePoint → Bool) (t : Text) : Option EncodeError :=
  let fine := t.takeWhile fun p => !p.isSurrogate || allowed p
  match (t.drop fine.length).takeWhile CodePoint.isSurrogate with
  | [] => none
  | surrogates => some ⟨fine.length, surrogates⟩

/-- A text in UTF-8. -/
def encode (t : Text) : Except EncodeError ByteArray :=
  match unencodable? (fun _ => false) t with
  | some e => .error e
  | none => .ok (String.ofList ((chars? t).getD [])).toUTF8

/-- Whether a code point stands for a byte of a file name. -/
def standsForByte (p : CodePoint) : Bool := 0xdc80 ≤ p.code && p.code ≤ 0xdcff

end ConstFlow.Text
