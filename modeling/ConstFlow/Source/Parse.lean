import ConstFlow.Log
import ConstFlow.Source.Grammar
import ConstFlow.Source.Lowering

/-!
# Reading programs

A program text is matched against the grammar as a whole, then its literals are read, then it is
lowered method by method.
-/

namespace ConstFlow.Source

/-- The number of code points that a syntax error shows. -/
def excerptLength : Nat := 20

/-- The methods of a text, or the offset of its syntax error. -/
def readDecls (text : Text) : Except Nat (List Decl) :=
  let reply := program (Cursor.start text)
  match reply.found? with
  | some (ds, _) => .ok ds
  | none => .error reply.failures.offset

/-- What comes of reading a text. -/
structure Reading where
  /-- The methods that were read, up to the first that was refused. -/
  program : Program
  error? : Option ParseError

/-- The outcome of a reading. -/
def Reading.result (r : Reading) : Except ParseError Program :=
  match r.error? with
  | none => .ok r.program
  | some e => .error e

/-- The records of a reading: one for every method that was read. -/
def Reading.log (r : Reading) : List Log.Record :=
  r.program.methods.map fun m =>
    ⟨.debug, .parser, "Parsed method " ++ m.name ++ ": " ++ toString m.params.length ++
      " params, " ++ toString m.body.length ++ " stmts"⟩

/-- Read a text that comes from a file of that name. -/
def read (text : Text) (file : Text) : Reading :=
  match readDecls text with
  | .error offset =>
    let near := (text.drop offset).take excerptLength
    ⟨.empty, some (.rejected (complainAt text file offset (.syntaxNear near)))⟩
  | .ok ds =>
    if ds.any fun d => d.numerals.any Numeral.tooLong then ⟨.empty, some .literalTooLong⟩
    else
      match lowerDecls text file .empty ds with
      | (p, none) => ⟨p, none⟩
      | (p, some r) => ⟨p, some (.rejected r)⟩

/-- The program that a text stands for. -/
def parse (text file : Text) : Except ParseError Program := (read text file).result

end ConstFlow.Source
