import ConstFlow.Text.Basic

/-!
# Log records

The library tells about its work in records. Functions that do something worth telling come with
the records of it as a value; nothing is written anywhere.
-/

namespace ConstFlow

namespace Log

/-- How important a record is. -/
inductive Level where
  | debug
  | info
  | warning
  deriving DecidableEq, Repr, Inhabited

namespace Level

/-- The name of a level. -/
def name : Level → String
  | debug => "DEBUG"
  | info => "INFO"
  | warning => "WARNING"

/-- The place of a level in their order. -/
def rank : Level → Nat
  | debug => 0
  | info => 1
  | warning => 2

end Level

/-- The part of the library that a record comes from. -/
inductive Origin where
  | command
  | parser
  | controlFlow
  | callGraph
  | supergraph
  | config
  | analysis
  | solver
  deriving DecidableEq, Repr, Inhabited

/-- The name of an origin. -/
def Origin.name : Origin → String
  | command => "interdataflow"
  | parser => "interdataflow.ir_parser"
  | controlFlow => "interdataflow.ctrlflow_graph"
  | callGraph => "interdataflow.callgraph"
  | supergraph => "interdataflow.icfg"
  | config => "interdataflow.config"
  | analysis => "interdataflow.inter_constprop"
  | solver => "interdataflow.dataflow_engine"

/-- One thing told. -/
structure Record where
  level : Level
  origin : Origin
  message : Text
  deriving DecidableEq, Repr, Inhabited

/-- A record as one line. -/
def Record.text (r : Record) : Text :=
  r.level.name ++ " " ++ r.origin.name ++ ": " ++ r.message

/-- The records of at least a level. -/
def atLeast (l : Level) (rs : List Record) : List Record :=
  rs.filter fun r => l.rank ≤ r.level.rank

end Log

end ConstFlow
