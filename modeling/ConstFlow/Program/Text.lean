import ConstFlow.Program.Basic
import ConstFlow.Text.Quoted

/-!
# Programs as text

How statements, methods and programs are shown. `Program.render` writes a whole program in the
form that is read back as the same program.
-/

namespace ConstFlow

namespace Action

/-- A statement as it is written, without the semicolon. -/
def text : Action → Text
  | nop t => t
  | literal x v => x.name ++ " = " ++ toString v
  | copy x y => x.name ++ " = " ++ y.name
  | binary x op y z => x.name ++ " = " ++ y.name ++ " " ++ op.symbol ++ " " ++ z.name
  | call f args r =>
    let invocation := f ++ "(" ++ Text.join ", " (args.map Var.name) ++ ")"
    match r with
    | none => invocation
    | some x => x.name ++ " = " ++ invocation
  | ret none => "return"
  | ret (some x) => "return " ++ x.name
  | branch op a b l => "if " ++ a.name ++ " " ++ op.symbol ++ " " ++ b.name ++ " goto " ++ l
  | jump l => "goto " ++ l

end Action

namespace Method

/-- The head of a method: its name and its parameters. -/
def signature (m : Method) : Text :=
  m.name ++ "(" ++ Text.join ", " (m.params.map Var.name) ++ ")"

/-- A method as one line of text. -/
def summary (m : Method) : Text :=
  "<Method " ++ m.signature ++ " stmts=" ++ toString m.body.length ++ ">"

/-- The labels that mark a position, each with its colon. -/
def labelsAt (m : Method) (i : Nat) : Text :=
  List.flatten ((m.labels.entries.filter fun l => l.2 = i).map fun l => l.1 ++ ": ")

/-- A method as it is written in a program. -/
def render (m : Method) : Text :=
  let row := fun (s : Stmt × Nat) => "  " ++ m.labelsAt s.2 ++ s.1.action.text ++ ";\n"
  "method " ++ m.signature ++ " \x7b\n" ++ List.flatten (m.body.zipIdx.map row) ++ "\x7d\n"

end Method

namespace Program

/-- A program as one line of text. -/
def summary (p : Program) : Text :=
  "Program(methods=[" ++ Text.join ", " (p.methods.map fun m => Text.quote m.name) ++ "])"

/-- A program as it is written. -/
def render (p : Program) : Text := List.flatten (p.methods.map Method.render)

end Program

end ConstFlow
