import ConstFlow.Program.Basic
import ConstFlow.Source.Rejection
import ConstFlow.Source.Tree
import ConstFlow.Text.Position

/-!
# Lowering

From source trees to programs. Statements of a program read variables only, so a literal operand
is first assigned to a temporary of its own; the assignment stands right before the statement that
reads it, on the same line. A plain assignment of a literal needs no temporary.

A method is refused, in this order, for a repeated parameter, a repeated label, a jump to a label
that it does not define, and a name that an earlier method has.
-/

namespace ConstFlow.Source

/-! ## Statements -/

/-- The `k`-th temporary of a method. No name in a text starts with a percent sign. -/
def temp (method : Text) (k : Nat) : Var := ⟨method, "%intconst" ++ toString k⟩

/-- The variable that an operand is read from, the statements that have to come before, and the
number of the next temporary. -/
def spill (method : Text) (k : Nat) : Operand → List Action × Var × Nat
  | .name n => ([], ⟨method, n.text⟩, k)
  | .literal n => ([.literal (temp method k) n.value], temp method k, k + 1)

/-- The same for operands from left to right. -/
def spillAll (method : Text) (k : Nat) : List Operand → List Action × List Var × Nat
  | [] => ([], [], k)
  | o :: os =>
    let (before, x, k₁) := spill method k o
    let (more, xs, k₂) := spillAll method k₁ os
    (before ++ more, x :: xs, k₂)

/-- A call with its receiver. -/
def lowerCall (method : Text) (k : Nat) (receiver : Option Var) (c : Call) : List Action × Nat :=
  let (before, args, k') := spillAll method k c.args
  (before ++ [.call c.callee.text args receiver], k')

/-- A statement as the statements that it stands for, the last of which does its work, and the
number of the next temporary. -/
def lowerStatement (method : Text) (k : Nat) : Statement → List Action × Nat
  | .pass => ([.pass], k)
  | .jump l => ([.jump l.text], k)
  | .ret none => ([.ret none], k)
  | .ret (some o) =>
    let (before, x, k') := spill method k o
    (before ++ [.ret (some x)], k')
  | .branch op l r target =>
    let (before, x, k₁) := spill method k l
    let (more, y, k₂) := spill method k₁ r
    (before ++ more ++ [.branch op x y target.text], k₂)
  | .assign target (.operand (.literal n)) => ([.literal ⟨method, target.text⟩ n.value], k)
  | .assign target (.operand (.name n)) => ([.copy ⟨method, target.text⟩ ⟨method, n.text⟩], k)
  | .assign target (.binary op l r) =>
    let (before, x, k₁) := spill method k l
    let (more, y, k₂) := spill method k₁ r
    (before ++ more ++ [.binary ⟨method, target.text⟩ op x y], k₂)
  | .assign target (.call c) => lowerCall method k (some ⟨method, target.text⟩) c
  | .call c => lowerCall method k none c

/-- Items as the blocks of a body: `k` numbers the next temporary. -/
def lowerItems (text : Text) (method : Text) (k : Nat) : List Item → List (List Instr)
  | [] => []
  | i :: rest =>
    let (actions, k') := lowerStatement method k i.statement
    actions.map (⟨Text.lineAt text i.offset, ·⟩) :: lowerItems text method k' rest

/-- The labels of items, each with the position of the first statement of its item; `pos` is where
the first item starts. -/
def labelPositions (pos : Nat) : List Item → List (List Instr) → List (Text × Nat)
  | i :: rest, block :: more =>
    i.labels.map (fun l => (l.text, pos)) ++ labelPositions (pos + block.length) rest more
  | _, _ => []

/-! ## Methods -/

/-- The first name that repeats an earlier one or one of `seen`. -/
def firstRepeat (seen : List Text) : List Name → Option Name
  | [] => none
  | n :: rest => if n.text ∈ seen then some n else firstRepeat (n.text :: seen) rest

/-- The first jump of a body to a label that is not defined, with its line. -/
def firstUndefined (labels : List Text) : List Stmt → Option (Text × Int)
  | [] => none
  | s :: rest =>
    match s.action.jumpLabel? with
    | some l => if l ∈ labels then firstUndefined labels rest else some (l, s.line)
    | none => firstUndefined labels rest

/-- A method, without any check. -/
def Decl.method (text : Text) (d : Decl) : Method :=
  let blocks := lowerItems text d.name.text 0 d.items
  .of d.name.text (d.params.map fun p => ⟨d.name.text, p.text⟩) blocks.flatten
    (.ofList (labelPositions 0 d.items blocks))

/-- A complaint about the place of a name. -/
def complainAt (text : Text) (file : Text) (offset : Nat) (c : Complaint) : Rejection :=
  ⟨c, file, Text.lineAt text offset, some (Text.columnAt text offset)⟩

/-- What is wrong with a method by itself. -/
def Decl.fault? (text : Text) (file : Text) (d : Decl) : Option Rejection :=
  match firstRepeat [] d.params with
  | some p => some (complainAt text file p.offset (.duplicateParameter p.text d.name.text))
  | none =>
    match firstRepeat [] (d.items.flatMap Item.labels) with
    | some l => some (complainAt text file l.offset (.duplicateLabel l.text d.name.text))
    | none =>
      let m := d.method text
      match firstUndefined m.labels.keys m.body with
      | some (l, line) => some ⟨.undefinedLabel l d.name.text, file, line, none⟩
      | none => none

/-! ## Programs -/

/-- Add methods to a program until one is refused. -/
def lowerDecls (text : Text) (file : Text) (p : Program) :
    List Decl → Program × Option Rejection
  | [] => (p, none)
  | d :: rest =>
    match d.fault? text file with
    | some r => (p, some r)
    | none =>
      match p.add? (d.method text) with
      | none => (p, some (complainAt text file d.name.offset (.duplicateMethod d.name.text)))
      | some p' => lowerDecls text file p' rest

end ConstFlow.Source
