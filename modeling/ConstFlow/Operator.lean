import ConstFlow.Int32
import ConstFlow.Text.Basic

/-!
# Binary operators

The sixteen operators of the language and their folding over concrete integers. Operands are
wrapped to 32 bits before the operation and its result after it; a shift takes its count modulo
32, a comparison gives one or zero, and division truncates toward zero.
-/

namespace ConstFlow

/-- A binary operator. -/
inductive Operator where
  | add | sub | mul | div | rem
  | eq | ne | lt | gt | le | ge
  | shl | shr | and | or | xor
  deriving DecidableEq, Repr, Inhabited

namespace Operator

/-- All operators. -/
def all : List Operator :=
  [add, sub, mul, div, rem, eq, ne, lt, gt, le, ge, shl, shr, and, or, xor]

/-- How an operator is written. -/
def symbol : Operator → String
  | add => "+" | sub => "-" | mul => "*" | div => "/" | rem => "%"
  | eq => "==" | ne => "!=" | lt => "<" | gt => ">" | le => "<=" | ge => ">="
  | shl => "<<" | shr => ">>" | and => "&" | or => "|" | xor => "^"

/-- The operator that is written so. -/
def ofSymbol? (t : Text) : Option Operator := all.find? fun op => op.symbol = t

/-- Whether an operator needs a divisor other than zero. -/
def isDivision : Operator → Bool
  | div | rem => true
  | _ => false

/-- Whether an operator compares. -/
def isComparison : Operator → Bool
  | eq | ne | lt | gt | le | ge => true
  | _ => false

/-- One for true, zero for false. -/
def truth (p : Bool) : Int := if p then 1 else 0

/-- The number of places by which a shift with count `b` moves. -/
def places (b : Int) : Nat := (b % 32).toNat

/-- The operation on two integers of any size. A zero divisor gives the quotient zero here; `apply`
rules it out. -/
def fold : Operator → Int → Int → Int
  | add, a, b => a + b
  | sub, a, b => a - b
  | mul, a, b => a * b
  | div, a, b => Int32.quotient a b
  | rem, a, b => Int32.remainder a b
  | eq, a, b => truth (a = b)
  | ne, a, b => truth (a ≠ b)
  | lt, a, b => truth (a < b)
  | gt, a, b => truth (a > b)
  | le, a, b => truth (a ≤ b)
  | ge, a, b => truth (a ≥ b)
  | shl, a, b => a * Nat.pow 2 (places b)
  | shr, a, b => a / Nat.pow 2 (places b)
  | and, a, b => Int32.bitAnd a b
  | or, a, b => Int32.bitOr a b
  | xor, a, b => Int32.bitXor a b

/-- Fold an operator over two integers, as 32-bit integers. There is no result exactly when a
division has a divisor that wraps to zero. -/
def apply (op : Operator) (a b : Int) : Option Int :=
  if op.isDivision && Int32.wrap b = 0 then none
  else some (Int32.wrap (op.fold (Int32.wrap a) (Int32.wrap b)))

end Operator

end ConstFlow
