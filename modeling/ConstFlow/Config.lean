import ConstFlow.Analysis.Table
import ConstFlow.Analysis.Worklist
import ConstFlow.Json.Basic
import ConstFlow.Log

/-!
# Configurations

What can be chosen for a run of the analysis. A configuration is made from a mapping of options to
values, and is valid then. To change one is to put the changes on top of its own fields, and to make
a configuration from that again. So the values are those of a JSON file, and besides them those that
the fields of a configuration already have.
-/

namespace ConstFlow

/-- The options of a run. -/
structure Config where
  analysis : Text
  entries : List Text
  strategy : Strategy
  maxIterations : Option Int
  warnArity : Bool
  deriving DecidableEq, Repr

/-- The options when nothing is chosen. -/
def Config.default : Config := ⟨analysisName, ["main"], .fifo, none, false⟩

instance : Inhabited Config := ⟨.default⟩

/-- The names of the options. -/
def Config.options : List Text :=
  ["analysis_id", "entry_methods", "strategy", "max_iterations", "warn_arity_mismatch"]

/-! ## Problems -/

/-- Something that no valid configuration has. -/
inductive Config.Problem where
  | noAnalysis
  | noEntry
  | unnamedEntry
  | boundNotPositive
  deriving DecidableEq, Repr, Inhabited

/-- A problem in words. -/
def Config.Problem.message : Config.Problem → String
  | noAnalysis => "analysis_id must not be empty"
  | noEntry => "at least one entry method is required"
  | unnamedEntry => "entry method names must not be empty"
  | boundNotPositive => "max_iterations must be positive"

/-- The problems of a configuration. -/
def Config.problems (c : Config) : List Config.Problem :=
  (if c.analysis.isEmpty then [.noAnalysis] else []) ++
  (if c.entries.isEmpty then [.noEntry] else []) ++
  (if c.entries.any List.isEmpty then [.unnamedEntry] else []) ++
  (match c.maxIterations with
    | some n => if n ≤ 0 then [.boundNotPositive] else []
    | none => [])

/-! ## Values of options -/

/-- What an option may be given. -/
inductive Setting where
  | json (j : Json)
  /-- The names that a configuration holds. -/
  | names (ns : List Text)
  /-- The strategy that a configuration holds. -/
  | strategy (s : Strategy)

/-- Names between parentheses; a single one is followed by a comma. -/
def shownNames : List Text → Text
  | [] => "()"
  | [n] => "(" ++ Text.quote n ++ ",)"
  | ns => "(" ++ Text.join ", " (ns.map fun n => Text.quote n) ++ ")"

/-- What a strategy is called outside of configurations. -/
def Strategy.fullName (s : Strategy) : String := "WorklistStrategy." ++ s.name.toUpper

/-- A strategy as records show it. -/
def Strategy.shown (s : Strategy) : String :=
  "<" ++ s.fullName ++ ": " ++ Text.quote s.name ++ ">"

namespace Setting

/-- A value as messages show it. -/
def shown : Setting → Text
  | json j => j.shown
  | names ns => shownNames ns
  | strategy s => s.shown

/-- A value where a text is wanted, unless it would have to be shown and cannot be. -/
def text? (room : Nat) : Setting → Except Json.ShowError Text
  | json j => j.text? room
  | names ns =>
    match (Json.list (ns.map .text)).showError? room with
    | some e => .error e
    | none => .ok (shownNames ns)
  | strategy s => .ok s.fullName

end Setting

/-! ## Errors -/

/-- What is wrong with options. -/
inductive ConfigError where
  | unknownOptions (names : List Text)
  | entriesNotNames
  | unknownStrategy (value : Setting)
  | boundNotInteger
  | warningNotBoolean
  | invalid (problems : List Config.Problem)
  | unknownAnalysis (name expected : Text)
  /-- The file cannot be read, for the reason given. -/
  | unreadable (path reason : Text)
  | notJson (path : Text)
  | notRecord (path : Text)

/-- An error in words. -/
def ConfigError.message : ConfigError → Text
  | unknownOptions names => "unknown configuration keys: " ++ Text.join ", " names
  | entriesNotNames => "entry_methods must be a string or a list of strings"
  | unknownStrategy v =>
    "unknown worklist strategy " ++ v.shown ++ " (expected one of: " ++
      Text.join ", " (Strategy.all.map fun s => s.name) ++ ")"
  | boundNotInteger => "max_iterations must be an integer or null"
  | warningNotBoolean => "warn_arity_mismatch must be a boolean"
  | invalid problems => Text.join "; " (problems.map fun p => p.message)
  | unknownAnalysis name expected =>
    "unknown analysis " ++ Text.quote name ++ " (expected " ++ Text.quote expected ++ ")"
  | unreadable path reason => "cannot read configuration " ++ path ++ ": " ++ reason
  | notJson path => "invalid JSON in " ++ path
  | notRecord path => "configuration " ++ path ++ " must contain a JSON object"

/-- Why there is no configuration. -/
inductive ConfigFailure where
  /-- There is a message about what is wrong. -/
  | error (e : ConfigError)
  /-- A value cannot be shown where a text is wanted. -/
  | unshown (e : Json.ShowError)
  /-- What is changed is called `self`, and no change can be called so too. -/
  | selfNamed

/-! ## Reading values -/

/-- The name of the analysis: any value, as a text. -/
def readAnalysis (room : Nat) (v : Setting) : Except ConfigFailure Text :=
  (v.text? room).mapError .unshown

/-- The texts of a list that holds nothing else. -/
def allTexts : List Json → Option (List Text)
  | [] => some []
  | .text t :: rest => (allTexts rest).map (t :: ·)
  | _ => none

/-- Entry methods: one name or a list of names. -/
def readEntries : Setting → Except ConfigFailure (List Text)
  | .json (.text t) => .ok [t]
  | .json (.list items) =>
    match allTexts items with
    | some names => .ok names
    | none => .error (.error .entriesNotNames)
  | .names ns => .ok ns
  | _ => .error (.error .entriesNotNames)

/-- A strategy, by its name in letters of either case. -/
def readStrategy (room : Nat) : Setting → Except ConfigFailure Strategy
  | .strategy s => .ok s
  | v => do
    let t ← (v.text? room).mapError .unshown
    match Strategy.ofName? t.toLower with
    | some s => .ok s
    | none => .error (.error (.unknownStrategy v))

/-- A bound: a whole number or nothing. -/
def readBound : Setting → Except ConfigFailure (Option Int)
  | .json .null => .ok none
  | .json (.int i) => .ok (some i)
  | _ => .error (.error .boundNotInteger)

/-- Whether to warn. -/
def readWarning : Setting → Except ConfigFailure Bool
  | .json (.bool b) => .ok b
  | _ => .error (.error .warningNotBoolean)

/-! ## Mappings -/

/-- The value of an option, or a default if a mapping does not name it. -/
def valueOr {α : Type} (d : Assoc Text Setting) (name : Text)
    (read : Setting → Except ConfigFailure α) (default : α) : Except ConfigFailure α :=
  match d.get? name with
  | some v => read v
  | none => .ok default

/-- The names in a mapping that are no options, in order. -/
def unknownNames (d : Assoc Text Setting) : List Text :=
  (d.keys.filter fun n => !Config.options.contains n).mergeSort fun a b => !(b < a)

namespace Config

/-- The configuration that a mapping gives, if it is valid. -/
def ofMapping (room : Nat) (d : Assoc Text Setting) : Except ConfigFailure Config := do
  let unknown := unknownNames d
  if !unknown.isEmpty then throw (.error (.unknownOptions unknown))
  let analysis ← valueOr d "analysis_id" (readAnalysis room) default.analysis
  let entries ← valueOr d "entry_methods" readEntries default.entries
  let strategy ← valueOr d "strategy" (readStrategy room) default.strategy
  let maxIterations ← valueOr d "max_iterations" readBound default.maxIterations
  let warnArity ← valueOr d "warn_arity_mismatch" readWarning default.warnArity
  let c : Config := ⟨analysis, entries, strategy, maxIterations, warnArity⟩
  match c.problems with
  | [] => return c
  | ps => throw (.error (.invalid ps))

/-- The mapping that the fields of a record are. -/
def mapping (fields : List (Text × Json)) : Assoc Text Setting :=
  .ofList (fields.map fun f => (f.1, .json f.2))

/-- A configuration as a mapping. -/
def fields (c : Config) : Assoc Text Setting where
  entries :=
    [("analysis_id", .json (.text c.analysis)), ("entry_methods", .names c.entries),
      ("strategy", .strategy c.strategy),
      ("max_iterations", .json (c.maxIterations.elim .null .int)),
      ("warn_arity_mismatch", .json (.bool c.warnArity))]
  nodup := show options.Nodup by decide

/-- A configuration with options changed, if it is valid then. -/
def withOptions (room : Nat) (c : Config) (changes : Assoc Text Setting) :
    Except ConfigFailure Config :=
  if changes.contains "self" then .error .selfNamed else ofMapping room (c.fields.update changes)

end Config

/-! ## Records -/

/-- A configuration as records show it. -/
def Config.shown (c : Config) : Text :=
  "AnalysisConfig(analysis_id=" ++ Text.quote c.analysis ++
    ", entry_methods=" ++ shownNames c.entries ++
    ", strategy=" ++ c.strategy.shown ++
    ", max_iterations=" ++ (match c.maxIterations with | some n => toString n | none => "None") ++
    ", warn_arity_mismatch=" ++ (if c.warnArity then "True" else "False") ++ ")"

/-- The record of a configuration that was made from options. -/
def Config.record (c : Config) : Log.Record :=
  ⟨.debug, .config, "Loaded configuration " ++ c.shown⟩

end ConstFlow
