import ConstFlow.Assoc
import ConstFlow.Operator

/-!
# Programs

A program is a list of methods with distinct names. A method has parameters, a body of statements
and labels that mark positions of the body. Variables belong to a method: `x` of one method and
`x` of another are different variables. A statement records the method that it is in and its index
there; no method can be made whose statements record anything else.
-/

namespace ConstFlow

/-- A local variable or parameter of a method. -/
structure Var where
  method : Text
  name : Text
  deriving DecidableEq, Repr, Inhabited

/-- What a statement does. -/
inductive Action where
  /-- Nothing; the text is what the statement is shown as. -/
  | nop (text : Text)
  | literal (target : Var) (value : Int)
  | copy (target source : Var)
  | binary (target : Var) (op : Operator) (left right : Var)
  /-- A call; without a receiver the result is dropped. -/
  | call (callee : Text) (args : List Var) (receiver : Option Var)
  | ret (value : Option Var)
  | branch (op : Operator) (left right : Var) (label : Text)
  | jump (label : Text)
  deriving DecidableEq, Repr, Inhabited

namespace Action

/-- The statement that does nothing, as it is written. -/
def pass : Action := .nop "nop"

/-- The variable that is assigned. -/
def target? : Action → Option Var
  | literal x _ => some x
  | copy x _ => some x
  | binary x _ _ _ => some x
  | call _ _ r => r
  | _ => none

/-- The variables that are read. -/
def uses : Action → List Var
  | copy _ y => [y]
  | binary _ _ y z => [y, z]
  | call _ args _ => args
  | ret (some x) => [x]
  | branch _ a b _ => [a, b]
  | _ => []

/-- Whether the statement is a call. -/
def isCall : Action → Bool
  | call .. => true
  | _ => false

/-- The name of the called method. -/
def callee? : Action → Option Text
  | call f _ _ => some f
  | _ => none

/-- The label that the statement may jump to. -/
def jumpLabel? : Action → Option Text
  | branch _ _ _ l => some l
  | jump l => some l
  | _ => none

end Action

/-- What is done on a line, zero if the line is unknown. A program that was not read from a text may
number its lines as it likes. -/
structure Instr where
  line : Int
  action : Action
  deriving DecidableEq, Repr, Inhabited

/-- A statement: an instruction together with the method that it is in and its index there. -/
structure Stmt where
  method : Text
  index : Nat
  line : Int
  action : Action
  deriving DecidableEq, Repr, Inhabited

namespace Stmt

/-- What a statement does, wherever it is. -/
def instr (s : Stmt) : Instr := ⟨s.line, s.action⟩

/-- Append an instruction to the statements of a method. Its index is how many came before. -/
def emit (method : Text) (done : List Stmt) (i : Instr) : List Stmt :=
  done ++ [⟨method, done.length, i.line, i.action⟩]

/-- Statements that all name a method and are numbered from zero. -/
def Placed (method : Text) (body : List Stmt) : Prop :=
  body.map (fun s => (s.method, s.index)) = (List.range body.length).map fun i => (method, i)

instance (method : Text) (body : List Stmt) : Decidable (Placed method body) :=
  inferInstanceAs (Decidable (_ = _))

theorem placed_emit {method : Text} {done : List Stmt} (h : Placed method done) (i : Instr) :
    Placed method (emit method done i) := by
  unfold Placed emit
  rw [List.map_append, h, List.length_append, List.length_singleton, List.range_succ,
    List.map_append]
  rfl

theorem placed_foldl_emit {method : Text} (is : List Instr) :
    ∀ {done : List Stmt}, Placed method done → Placed method (is.foldl (emit method) done) := by
  induction is with
  | nil => exact fun h => h
  | cons i is ih => exact fun h => ih (placed_emit h i)

theorem map_instr_foldl_emit (method : Text) (is : List Instr) :
    ∀ done : List Stmt, (is.foldl (emit method) done).map instr = done.map instr ++ is := by
  induction is with
  | nil => simp
  | cons i is ih =>
      intro done
      rw [List.foldl_cons, ih, emit, List.map_append, List.append_assoc]
      rfl

end Stmt

/-- A method: its parameters, its body and the positions that its labels mark. -/
structure Method where
  name : Text
  params : List Var
  body : List Stmt
  labels : Assoc Text Nat
  placed : Stmt.Placed name body
  deriving DecidableEq

namespace Method

/-- The method that instructions make up, emitted one after the other. -/
def of (name : Text) (params : List Var) (is : List Instr) (labels : Assoc Text Nat) : Method where
  name := name
  params := params
  body := is.foldl (Stmt.emit name) []
  labels := labels
  placed := Stmt.placed_foldl_emit is rfl

instance : Inhabited Method := ⟨of "" [] [] .empty⟩

/-- Instructions are emitted as they are. -/
theorem map_instr_of (name : Text) (params : List Var) (is : List Instr) (labels : Assoc Text Nat) :
    (of name params is labels).body.map Stmt.instr = is :=
  Stmt.map_instr_foldl_emit name is []

theorem map_action_of (name : Text) (params : List Var) (is : List Instr)
    (labels : Assoc Text Nat) :
    (of name params is labels).body.map Stmt.action = is.map Instr.action := by
  have hinstr := congrArg (List.map Instr.action) (map_instr_of name params is labels)
  rw [List.map_map] at hinstr
  exact hinstr

/-- A statement records where it is. -/
theorem place {m : Method} {i : Nat} {s : Stmt} (h : m.body[i]? = some s) :
    s.method = m.name ∧ s.index = i := by
  obtain ⟨hlt, -⟩ := List.getElem?_eq_some_iff.mp h
  have hi := congrArg (·[i]?) m.placed
  rw [List.getElem?_map, List.getElem?_map, h, List.getElem?_range hlt] at hi
  exact Prod.mk.inj (Option.some.inj hi)

/-- The returned variables, each once, in the order of their first return. -/
def returnVars (m : Method) : List Var :=
  m.body.foldl (fun seen s =>
    match s.action with
    | .ret (some x) => if x ∈ seen then seen else seen ++ [x]
    | _ => seen) []

end Method

/-- Methods with distinct names, in the order of their definition. -/
structure Program where
  methods : List Method
  distinct : (methods.map Method.name).Nodup

namespace Program

/-- The program without methods. -/
def empty : Program := ⟨[], by simp⟩

instance : Inhabited Program := ⟨empty⟩

/-- The method of a name. -/
def find? (p : Program) (name : Text) : Option Method :=
  p.methods.find? fun m => m.name = name

/-- The program with a method added at the end, unless its name is taken. -/
def add? (p : Program) (m : Method) : Option Program :=
  if h : m.name ∈ p.methods.map Method.name then none
  else some ⟨p.methods ++ [m], by
    rw [List.map_append, List.nodup_append]
    refine ⟨p.distinct, by simp, fun a ha b hb he => h ?_⟩
    simp only [List.map_cons, List.map_nil, List.mem_singleton] at hb
    exact hb ▸ he ▸ ha⟩

end Program

end ConstFlow
