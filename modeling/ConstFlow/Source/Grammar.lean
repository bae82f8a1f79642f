import ConstFlow.Source.Matcher
import ConstFlow.Source.Tree
import ConstFlow.Text.Blank

/-!
# The grammar of program texts

    program = blanks decl* end
    decl    = "method" gap name blanks "(" blanks params? ")" blanks "{" blanks item* "}" blanks
    params  = name blanks ("," blanks name blanks)*
    item    = label* statement
    label   = name blanks ":" blanks
    statement = (return / if / goto / nop / assignment / call) blanks ";" blanks
    return  = "return" !wordChar (blanks operand)?
    if      = "if" gap operand blanks operator blanks operand gap "goto" gap name
    goto    = "goto" gap name
    nop     = "nop" !wordChar
    assignment = name blanks "=" !"=" blanks rhs
    rhs     = call / binary / operand
    call    = name blanks "(" blanks args? ")"
    args    = operand blanks ("," blanks operand blanks)*
    binary  = operand blanks operator blanks operand
    operand = literal / name
    name    = !(keyword !wordChar) letter wordChar*
    literal = "-"? digit+

A gap is a run of blanks and comments that is not empty. A comment starts at `#` or `//` and ends
before the next line feed. Every line above is a rule, and so are the operator, the keyword, the
word character, the gap and the end of the text.
-/

namespace ConstFlow.Source

open Matcher

/-! ## Characters -/

/-- Whether a character may start a name. -/
def isLetter (c : Char) : Bool := c.isAlpha || c = '_'

/-- Whether a character may continue a name. -/
def isWordChar (c : Char) : Bool := c.isAlphanum || c = '_'

/-- The length of the blanks and comments that a text starts with; `comment` says that a comment is
under way. -/
def gapLength (comment : Bool) : Text → Nat
  | [] => 0
  | c :: rest =>
    if comment then gapLength (c ≠ .scalar '\n') rest + 1
    else if c.isIn Text.isBlank then gapLength false rest + 1
    else if c = .scalar '#' then gapLength true rest + 1
    else if c = .scalar '/' ∧ rest.head? = some (.scalar '/') then gapLength true rest + 1
    else 0

/-! ## Words -/

/-- Blanks and comments, if any. -/
def blanks : Matcher Unit := rule fun c =>
  ⟨some ((), c.skip (gapLength false c.rest)), .none⟩

/-- Blanks and comments, at least one of them. -/
def gap : Matcher Unit := rule fun c =>
  let n := gapLength false c.rest
  if n = 0 then ⟨none, .none⟩ else ⟨some ((), c.skip n), .none⟩

def wordChar : Matcher Char := rule (charOf isWordChar)

/-- The words that are no names. -/
def keywords : List Text := ["method", "return", "if", "goto", "nop"]

def keyword : Matcher Unit := rule (oneOf (keywords.map token))

def name : Matcher Name := rule do
  notAhead do
    keyword
    notAhead wordChar
  let offset ← here
  let first ← charOf isLetter
  let more ← runOf isWordChar
  return ⟨Text.ofChars (first :: more), offset⟩

/-- The value of a digit. -/
def digitValue (c : Char) : Nat := c.toNat - '0'.toNat

def literal : Matcher Numeral := rule <| step do
  let negative ← orElse (do token "-"; return true) (pure false)
  let first ← charOf Char.isDigit
  let more ← runOf Char.isDigit
  return ⟨negative, (first :: more).map digitValue⟩

def operand : Matcher Operand := rule <|
  orElse (do return .literal (← literal)) (do return .name (← name))

/-- The operators in the order in which they are tried: those with longer symbols first. -/
def operatorOrder : List Operator :=
  ["==", "!=", "<=", ">=", "<<", ">>", "<", ">", "+", "-", "*", "/", "%", "&", "|", "^"].filterMap
    fun s : String => Operator.ofSymbol? s

def operator : Matcher Operator := rule <|
  oneOf (operatorOrder.map fun op => do token op.symbol; return op)

/-- The end of the text. -/
def endOfText : Matcher Unit := rule (notAhead anything)

/-! ## Statements -/

/-- What follows the first member of a list: a comma, and another member. -/
def next {α : Type} (member : Matcher α) : Matcher α := do
  token ","
  blanks
  let a ← member
  blanks
  return a

/-- Members with commas between them. -/
def commaList {α : Type} (member : Matcher α) : Matcher (List α) := rule do
  let first ← member
  blanks
  let more ← many (next member)
  return first :: more

/-- A list between parentheses, which may be empty. -/
def parenList {α : Type} (member : Matcher α) : Matcher (List α) := do
  token "("
  blanks
  let members ← optional (commaList member)
  token ")"
  return members.getD []

def call : Matcher Call := rule do
  let callee ← name
  blanks
  let args ← parenList operand
  return ⟨callee, args⟩

def binary : Matcher Rhs := rule do
  let left ← operand
  blanks
  let op ← operator
  blanks
  let right ← operand
  return .binary op left right

def rhs : Matcher Rhs := rule <|
  oneOf [do return .call (← call), binary, do return .operand (← operand)]

def returnStatement : Matcher Statement := rule do
  token "return"
  notAhead wordChar
  let value ← optional do
    blanks
    operand
  return .ret value

def ifStatement : Matcher Statement := rule do
  token "if"
  gap
  let left ← operand
  blanks
  let op ← operator
  blanks
  let right ← operand
  gap
  token "goto"
  gap
  let label ← name
  return .branch op left right label

def gotoStatement : Matcher Statement := rule do
  token "goto"
  gap
  let label ← name
  return .jump label

def nopStatement : Matcher Statement := rule do
  token "nop"
  notAhead wordChar
  return .pass

def assignment : Matcher Statement := rule do
  let target ← name
  blanks
  token "="
  notAhead (token "=")
  blanks
  let value ← rhs
  return .assign target value

def statement : Matcher Statement := rule do
  let s ← oneOf [returnStatement, ifStatement, gotoStatement, nopStatement, assignment,
    do return .call (← call)]
  blanks
  token ";"
  blanks
  return s

/-! ## Methods -/

def label : Matcher Name := rule do
  let n ← name
  blanks
  token ":"
  blanks
  return n

def item : Matcher Item := rule do
  let labels ← many label
  let offset ← here
  let s ← statement
  return ⟨labels, offset, s⟩

def decl : Matcher Decl := rule do
  token "method"
  gap
  let n ← name
  blanks
  let params ← parenList name
  blanks
  token "\x7b"
  blanks
  let items ← many item
  token "\x7d"
  blanks
  return ⟨n, params, items⟩

def program : Matcher (List Decl) := rule do
  blanks
  let decls ← many decl
  endOfText
  return decls

end ConstFlow.Source
