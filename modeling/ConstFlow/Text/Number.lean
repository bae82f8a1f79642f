import ConstFlow.Text.Basic
import ConstFlow.Text.Blank

/-!
# Decimal numbers in texts

Numbers are written in decimal. No number of more than `maxDigits` digits is ever read, leading
zeros counted.
-/

namespace ConstFlow.Text

/-- The most digits that a number may have. -/
def maxDigits : Nat := 4300

/-- The number that a list of digits stands for. -/
def ofDigits (ds : List Nat) : Nat := ds.foldl (fun n d => 10 * n + d) 0

/-- The code points of the zeros of the decimal digit rows; the other nine digits of a row follow
its zero. -/
def zeroCodes : List Nat :=
  [0x30, 0x660, 0x6f0, 0x7c0, 0x966, 0x9e6, 0xa66, 0xae6, 0xb66, 0xbe6, 0xc66, 0xce6, 0xd66,
    0xde6, 0xe50, 0xed0, 0xf20, 0x1040, 0x1090, 0x17e0, 0x1810, 0x1946, 0x19d0, 0x1a80, 0x1a90,
    0x1b50, 0x1bb0, 0x1c40, 0x1c50, 0xa620, 0xa8d0, 0xa900, 0xa9d0, 0xa9f0, 0xaa50, 0xabf0, 0xff10,
    0x104a0, 0x10d30, 0x11066, 0x110f0, 0x11136, 0x111d0, 0x112f0, 0x11450, 0x114d0, 0x11650,
    0x116c0, 0x11730, 0x118e0, 0x11950, 0x11c50, 0x11d50, 0x11da0, 0x16a60, 0x16ac0, 0x16b50,
    0x1d7ce, 0x1d7d8, 0x1d7e2, 0x1d7ec, 0x1d7f6, 0x1e140, 0x1e2f0, 0x1e950, 0x1fbf0]

/-- The value of a digit of any of the rows. -/
def digit? (c : Char) : Option Nat :=
  (zeroCodes.find? fun z => z ≤ c.toNat && c.toNat ≤ z + 9).map (c.toNat - ·)

/-- Digits after a first one; a single underscore may stand between two of them. -/
def moreDigits : List Char → Option (List Nat)
  | [] => some []
  | '_' :: c :: rest => do return (← digit? c) :: (← moreDigits rest)
  | c :: rest => do return (← digit? c) :: (← moreDigits rest)

/-- The number that digits and single underscores between them stand for, unless it is empty or
too long. -/
def readNat? : List Char → Option Nat
  | [] => none
  | c :: rest => do
    let ds := (← digit? c) :: (← moreDigits rest)
    if ds.length ≤ maxDigits then return ofDigits ds else none

/-- Read an integer with an optional sign and blanks around it. -/
def readInt? (t : Text) : Option Int := do
  match trimBlanks (← chars? t) with
  | '-' :: rest => (readNat? rest).map fun n => -(n : Int)
  | '+' :: rest => (readNat? rest).map Int.ofNat
  | rest => (readNat? rest).map Int.ofNat

/-! ## Numbers as they are written -/

theorem ofString_toString (n : Nat) : ofString (toString n) = ofChars (Nat.toDigits 10 n) := by
  rw [Nat.toString_eq_ofList_toDigits, ofString, String.toList_ofList]

/-- A number is known by its digits. -/
theorem eq_of_ofString_toString_eq {j k : Nat}
    (h : ofString (toString j) = ofString (toString k)) : j = k := by
  rw [ofString_toString, ofString_toString] at h
  have hdigits : Nat.toDigits 10 j = Nat.toDigits 10 k :=
    (List.map_inj_right fun _ _ => CodePoint.scalar.inj).mp h
  rw [← Nat.ofDigitChars_ten_toDigits (n := j), hdigits, Nat.ofDigitChars_ten_toDigits]

end ConstFlow.Text
