import ConstFlow.Operator
import ConstFlow.Text.Number

/-!
# Source trees

What a program text says, before literals are given variables of their own: methods made of items,
an item being a statement with the labels in front of it. Names and statements remember the offset
at which they start.
-/

namespace ConstFlow.Source

/-- A name and where it stands. -/
structure Name where
  text : Text
  offset : Nat
  deriving DecidableEq, Repr, Inhabited

/-- A decimal numeral: its sign and its digits. -/
structure Numeral where
  negative : Bool
  digits : List Nat
  deriving DecidableEq, Repr, Inhabited

/-- The integer that a numeral stands for. -/
def Numeral.value (n : Numeral) : Int :=
  if n.negative then -(Text.ofDigits n.digits : Int) else Text.ofDigits n.digits

/-- Whether a numeral has more digits than are read. -/
def Numeral.tooLong (n : Numeral) : Bool := Text.maxDigits < n.digits.length

/-- A name or a literal. -/
inductive Operand where
  | name (n : Name)
  | literal (n : Numeral)
  deriving DecidableEq, Repr, Inhabited

/-- A call and its arguments. -/
structure Call where
  callee : Name
  args : List Operand
  deriving DecidableEq, Repr, Inhabited

/-- The right-hand side of an assignment. -/
inductive Rhs where
  | call (c : Call)
  | binary (op : Operator) (left right : Operand)
  | operand (o : Operand)
  deriving DecidableEq, Repr, Inhabited

/-- A statement as it is written. -/
inductive Statement where
  | pass
  | jump (label : Name)
  | ret (value : Option Operand)
  | branch (op : Operator) (left right : Operand) (label : Name)
  | assign (target : Name) (rhs : Rhs)
  | call (c : Call)
  deriving DecidableEq, Repr, Inhabited

/-- A statement, where it starts, and the labels in front of it. -/
structure Item where
  labels : List Name
  offset : Nat
  statement : Statement
  deriving DecidableEq, Repr, Inhabited

/-- A method as it is written. -/
structure Decl where
  name : Name
  params : List Name
  items : List Item
  deriving DecidableEq, Repr, Inhabited

/-! ## The literals of a tree -/

def Operand.numerals : Operand → List Numeral
  | .name _ => []
  | .literal n => [n]

def Call.numerals (c : Call) : List Numeral := c.args.flatMap Operand.numerals

def Rhs.numerals : Rhs → List Numeral
  | .call c => c.numerals
  | .binary _ l r => l.numerals ++ r.numerals
  | .operand o => o.numerals

def Statement.numerals : Statement → List Numeral
  | .pass | .jump _ | .ret none => []
  | .ret (some o) => o.numerals
  | .branch _ l r _ => l.numerals ++ r.numerals
  | .assign _ rhs => rhs.numerals
  | .call c => c.numerals

/-- The literals of a method, in the order in which they are written. -/
def Decl.numerals (d : Decl) : List Numeral := d.items.flatMap fun i => i.statement.numerals

end ConstFlow.Source
