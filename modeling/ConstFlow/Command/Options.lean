import ConstFlow.Analysis.Worklist
import ConstFlow.Log
import ConstFlow.Text.Number
import ConstFlow.Text.Quoted

/-!
# The command line

    PROGRAM [-h] [--version] [-v] [--debug] COMMAND ...

Options may stand anywhere among the arguments of their command. A long option may be shortened as
long as it is the only one that starts so, and a value may follow it after an equals sign; the value
of a short option may be joined to it, and so may be short options without values. After two dashes
alone nothing is an option, and what looks like a negative number never is one. Two dashes that are
joined to an option are its value, or stand for no value: readers differ in that, and `keeps` says
which one is meant.
-/

namespace ConstFlow.Command

/-! ## Options -/

/-- What an option is for. -/
inductive Key where
  | help | version | verbose | debug
  | entry | config | strategy | maxIterations | format | method | showTemps | warnArity
  | quiet | output
  deriving DecidableEq, Repr, Inhabited

/-- An option: its names, and whether a value follows. -/
structure Spec where
  names : List Text
  takesValue : Bool
  key : Key
  deriving DecidableEq, Repr, Inhabited

/-- The name of an option in messages. -/
def Spec.display (s : Spec) : Text := Text.join "/" s.names

def helpSpec : Spec := ⟨["-h", "--help"], false, .help⟩

/-- The options in front of the command. -/
def mainSpecs : List Spec :=
  [helpSpec, ⟨["--version"], false, .version⟩, ⟨["-v", "--verbose"], false, .verbose⟩,
    ⟨["--debug"], false, .debug⟩]

/-- The options that all commands have. -/
def sharedSpecs : List Spec :=
  [helpSpec, ⟨["-e", "--entry"], true, .entry⟩, ⟨["-c", "--config"], true, .config⟩]

/-- What the program can be told to do. -/
inductive Verb where
  | analyze
  | check
  | dump
  deriving DecidableEq, Repr, Inhabited

namespace Verb

def all : List Verb := [analyze, check, dump]

/-- The name of a command. -/
def name : Verb → String
  | analyze => "analyze"
  | check => "check"
  | dump => "dump-icfg"

/-- The options of a command. -/
def specs : Verb → List Spec
  | analyze => sharedSpecs ++
    [⟨["--strategy"], true, .strategy⟩, ⟨["--max-iterations"], true, .maxIterations⟩,
      ⟨["-f", "--format"], true, .format⟩, ⟨["-m", "--method"], true, .method⟩,
      ⟨["--show-temps"], false, .showTemps⟩, ⟨["--warn-arity"], false, .warnArity⟩]
  | check => sharedSpecs ++ [⟨["-q", "--quiet"], false, .quiet⟩]
  | dump => sharedSpecs ++ [⟨["-o", "--output"], true, .output⟩]

end Verb

/-! ## Misuse -/

/-- What is wrong with a command line. -/
inductive UsageError where
  | invalidChoice (argument value : Text) (choices : List Text)
  | invalidInteger (argument value : Text)
  | valueMissing (argument : Text)
  | valueUnwanted (argument value : Text)
  | ambiguous (option : Text) (candidates : List Text)
  | inputMissing
  | unrecognized (arguments : List Text)
  deriving DecidableEq, Repr, Inhabited

/-- An error in words. -/
def UsageError.message : UsageError → Text
  | invalidChoice a v cs =>
    "argument " ++ a ++ ": invalid choice: " ++ Text.quote v ++ " (choose from " ++
      Text.join ", " (cs.map fun c => Text.quote c) ++ ")"
  | invalidInteger a v => "argument " ++ a ++ ": invalid int value: " ++ Text.quote v
  | valueMissing a => "argument " ++ a ++ ": expected one argument"
  | valueUnwanted a v => "argument " ++ a ++ ": ignored explicit argument " ++ Text.quote v
  | ambiguous o cs => "ambiguous option: " ++ o ++ " could match " ++ Text.join ", " cs
  | inputMissing => "the following arguments are required: input"
  | unrecognized as => "unrecognized arguments: " ++ Text.join " " as

/-- An error and the command whose arguments it is about, if it is about one command. -/
structure Misuse where
  verb : Option Verb
  error : UsageError
  deriving DecidableEq, Repr, Inhabited

/-- The name of the program. -/
def programName : String := "interdataflow"

/-- A misuse in words. -/
def Misuse.message (m : Misuse) : Text :=
  let who := match m.verb with
    | none => programName
    | some v => programName ++ " " ++ v.name
  who ++ ": error: " ++ m.error.message

/-! ## Arguments one by one -/

/-- What an argument is. -/
inductive Token where
  | word (t : Text)
  /-- Two dashes: what follows is no option. -/
  | dashes
  /-- An option under one of its names, with what is joined to it. -/
  | option (spec : Spec) (name : Text) (joined : Option Text) (raw : Text)
  /-- It looks like an option and is none. -/
  | stranger (raw : Text)
  deriving Repr, Inhabited

/-- The argument itself. -/
def Token.raw : Token → Text
  | word t => t
  | dashes => "--"
  | option _ _ _ raw => raw
  | stranger raw => raw

/-- The option that has a name. -/
def findSpec (specs : List Spec) (name : Text) : Option Spec :=
  specs.find? fun s => s.names.contains name

/-- The parts of a text before and after its first equals sign. -/
def splitEquals (t : Text) : Option (Text × Text) :=
  if t.contains (.scalar '=') then
    some (t.takeWhile (· ≠ .scalar '='), (t.dropWhile (· ≠ .scalar '=')).drop 1)
  else none

/-- All names of options, each with its option. -/
def allNames (specs : List Spec) : List (Text × Spec) :=
  specs.flatMap fun s => s.names.map fun n => (n, s)

/-- The options that an argument may mean though it is no name of one. Two dashes start a shortened
name; one dash starts a short option with something joined to it. -/
def candidates (specs : List Spec) (arg : Text) : List (Spec × Text × Option Text) :=
  match arg with
  | .scalar '-' :: .scalar '-' :: _ =>
    let (lead, value) := match splitEquals arg with
      | some (l, v) => (l, some v)
      | none => (arg, none)
    (allNames specs).filterMap fun n =>
      if lead.isPrefixOf n.1 then some (n.2, n.1, value) else none
  | _ =>
    (allNames specs).filterMap fun n =>
      if n.1 = arg.take 2 then some (n.2, n.1, some (arg.drop 2))
      else if arg.isPrefixOf n.1 then some (n.2, n.1, none)
      else none

/-- Whether characters are digits, at least one. -/
def allDigits (cs : List Char) : Bool := !cs.isEmpty && cs.all fun c => (Text.digit? c).isSome

/-- Whether an argument looks like a negative number. -/
def looksNegative (arg : Text) : Bool :=
  match Text.chars? arg with
  | some ('-' :: rest) =>
    let body := if rest.getLast? = some '\n' then rest.dropLast else rest
    let whole := body.takeWhile (· ≠ '.')
    match body.dropWhile (· ≠ '.') with
    | [] => allDigits body
    | _ :: places => (whole.isEmpty || allDigits whole) && allDigits places
  | _ => false

/-- What an argument is, among some options. -/
def classify (specs : List Spec) (arg : Text) : Except UsageError Token :=
  if arg.head? ≠ some (.scalar '-') then .ok (.word arg)
  else
    match findSpec specs arg with
    | some s => .ok (.option s arg none arg)
    | none =>
      if arg.length = 1 then .ok (.word arg)
      else
        match (splitEquals arg).bind fun p => (findSpec specs p.1).map fun s => (s, p) with
        | some (s, n, v) => .ok (.option s n (some v) arg)
        | none =>
          match candidates specs arg with
          | [(s, n, v)] => .ok (.option s n v arg)
          | [] =>
            if looksNegative arg || arg.contains (.scalar ' ') then .ok (.word arg)
            else .ok (.stranger arg)
          | many => .error (.ambiguous arg (many.map fun c => c.2.1))

/-- What the arguments are. -/
def tokens (specs : List Spec) : List Text → Except UsageError (List Token)
  | [] => .ok []
  | arg :: rest =>
    if arg = "--" then .ok (.dashes :: rest.map .word)
    else do
      let t ← classify specs arg
      let ts ← tokens specs rest
      return t :: ts

/-! ## Options with their values -/

/-- An option that was given: which one, and its value if there is one. -/
structure Given where
  spec : Spec
  value : Option Text
  deriving Repr, Inhabited

/-- An option that may have to take its value from the arguments after it. -/
def takeValue (spec : Spec) (rest : List Token) : Except UsageError (Given × List Token) :=
  if spec.takesValue then
    match rest with
    | .word v :: rest => .ok (⟨spec, some v⟩, rest)
    | _ => .error (.valueMissing spec.display)
  else .ok (⟨spec, none⟩, rest)

/-- Whether a name starts with two dashes. -/
def isLong (name : Text) : Bool := (Text.ofString "--").isPrefixOf name

/-- A value that is joined to its option. -/
def joinedValue (keeps : Bool) (text : Text) : Option Text :=
  if text = "--" ∧ keeps = false then none else some text

/-- An option with something joined to it: its value, or more short options. -/
def unjoin (keeps : Bool) (specs : List Spec) (rest : List Token) (spec : Spec) (name : Text) :
    Text → Except UsageError (List Given × List Token)
  | [] =>
    if spec.takesValue then .ok ([⟨spec, some ""⟩], rest)
    else .error (.valueUnwanted spec.display "")
  | c :: more =>
    if spec.takesValue then .ok ([⟨spec, joinedValue keeps (c :: more)⟩], rest)
    else
      let next := [.scalar '-', c]
      match if isLong name then none else findSpec specs next with
      | none => .error (.valueUnwanted spec.display (c :: more))
      | some s =>
        if more.isEmpty then do
          let (g, rest) ← takeValue s rest
          return ([⟨spec, none⟩, g], rest)
        else do
          let (gs, rest) ← unjoin keeps specs rest s next more
          return (⟨spec, none⟩ :: gs, rest)

/-- The options that one argument gives, and the arguments after it and its value. -/
def giveOptions (keeps : Bool) (specs : List Spec) (spec : Spec) (name : Text)
    (joined : Option Text) (rest : List Token) : Except UsageError (List Given × List Token) :=
  match joined with
  | some v => unjoin keeps specs rest spec name v
  | none => do
    let (g, rest) ← takeValue spec rest
    return ([g], rest)

/-! ## Requests -/

/-- What the program is asked to do. An entry, a bound or a method may have been asked for without
saying which. -/
structure Request where
  verb : Verb
  input : Text
  level : Log.Level
  entries : List (Option Text)
  config : Option Text
  strategy : Option Strategy
  maxIterations : Option (Option Int)
  json : Bool
  methods : List (Option Text)
  showTemps : Bool
  warnArity : Bool
  quiet : Bool
  output : Option Text
  deriving Repr, Inhabited

/-- A request with nothing but defaults. -/
def Request.blank (verb : Verb) (level : Log.Level) : Request :=
  ⟨verb, "", level, [], none, none, none, false, [], false, false, false, none⟩

/-- The outcome of reading a command line. -/
inductive Order where
  | help
  | version
  | request (r : Request)
  deriving Repr, Inhabited

/-- What an option does to a request; `none` if it asks for help. -/
def Request.give (r : Request) (g : Given) : Except UsageError (Option Request) :=
  match g.spec.key, g.value with
  | .help, _ => .ok none
  | .entry, v => .ok (some { r with entries := r.entries ++ [v] })
  | .config, v => .ok (some { r with config := v })
  | .strategy, none => .ok (some { r with strategy := none })
  | .strategy, some v =>
    match Strategy.ofName? v with
    | some s => .ok (some { r with strategy := some s })
    | none => .error (.invalidChoice g.spec.display v (Strategy.all.map fun s => s.name))
  | .maxIterations, none => .ok (some { r with maxIterations := some none })
  | .maxIterations, some v =>
    match Text.readInt? v with
    | some n => .ok (some { r with maxIterations := some (some n) })
    | none => .error (.invalidInteger g.spec.display v)
  | .format, none => .ok (some { r with json := false })
  | .format, some v =>
    if v = "text" then .ok (some { r with json := false })
    else if v = "json" then .ok (some { r with json := true })
    else .error (.invalidChoice g.spec.display v ["text", "json"])
  | .method, v => .ok (some { r with methods := r.methods ++ [v] })
  | .showTemps, _ => .ok (some { r with showTemps := true })
  | .warnArity, _ => .ok (some { r with warnArity := true })
  | .quiet, _ => .ok (some { r with quiet := true })
  | .output, v => .ok (some { r with output := v })
  | .version, _ | .verbose, _ | .debug, _ => .ok (some r)

/-- What several options do, up to one that asks for help. -/
def Request.giveAll (r : Request) : List Given → Except UsageError (Option Request)
  | [] => .ok (some r)
  | g :: rest => do
    match ← r.give g with
    | some r => r.giveAll rest
    | none => return none

/-- A request under way: whether its input was given, and the arguments that nobody wants. -/
structure Draft where
  request : Request
  hasInput : Bool
  extras : List Text

/-- Read the arguments of a command; `none` if they ask for help. Every step takes an argument at
least, and `n` bounds their number. -/
def fill (keeps : Bool) (specs : List Spec) :
    Nat → Draft → List Token → Except UsageError (Option Draft)
  | 0, d, _ => .ok (some d)
  | n + 1, d, ts =>
    match ts with
    | [] => .ok (some d)
    | .option spec name joined _ :: rest => do
      let (gs, rest) ← giveOptions keeps specs spec name joined rest
      match ← d.request.giveAll gs with
      | none => return none
      | some r => fill keeps specs n { d with request := r } rest
    | .stranger raw :: rest => fill keeps specs n { d with extras := d.extras ++ [raw] } rest
    | t :: rest =>
      if d.hasInput then fill keeps specs n { d with extras := d.extras ++ [t.raw] } rest
      else
        match t, rest with
        | .dashes, .word t :: rest =>
          fill keeps specs n { d with request.input := t, hasInput := true } rest
        | .dashes, _ => fill keeps specs n { d with extras := d.extras ++ [t.raw] } rest
        | t, .dashes :: rest =>
          fill keeps specs n { d with request.input := t.raw, hasInput := true } rest
        | t, rest => fill keeps specs n { d with request.input := t.raw, hasInput := true } rest

/-- Read a command and its arguments, after arguments that nobody wants. -/
def readVerb (keeps : Bool) (level : Log.Level) (extras : List Text) (name : Text)
    (args : List Text) : Except Misuse Order :=
  match Verb.all.find? fun v => v.name = name with
  | none =>
    .error ⟨none, .invalidChoice "<command>" name (Verb.all.map fun v => v.name)⟩
  | some verb => do
    let inVerb := fun {α : Type} (x : Except UsageError α) => x.mapError (Misuse.mk (some verb))
    let ts ← inVerb (tokens verb.specs args)
    match ← inVerb (fill keeps verb.specs ts.length ⟨.blank verb level, false, []⟩ ts) with
    | none => return .help
    | some d =>
      if !d.hasInput then throw ⟨some verb, .inputMissing⟩
      match extras ++ d.extras with
      | [] => return .request d.request
      | es => throw ⟨none, .unrecognized es⟩

/-- What options in front of the command ask for. -/
structure Front where
  verbose : Bool
  debug : Bool
  /-- Set by the first option that ends everything. -/
  stop : Option Order

/-- The level of records that are told. -/
def Front.level (f : Front) : Log.Level :=
  if f.debug then .debug else if f.verbose then .info else .warning

/-- What an option does in front of the command. -/
def Front.give (f : Front) (g : Given) : Front :=
  match f.stop with
  | some _ => f
  | none =>
    match g.spec.key with
    | .help => { f with stop := some .help }
    | .version => { f with stop := some .version }
    | .verbose => { f with verbose := true }
    | .debug => { f with debug := true }
    | _ => f

/-- Read the arguments in front of the command, and then the command; `extras` are those that nobody
wants. Every step takes an argument at least, and `n` bounds their number. -/
def readFront (keeps : Bool) : Nat → Front → List Text → List Token → Except Misuse Order
  | 0, _, _, _ => .ok .help
  | n + 1, f, extras, ts =>
    match ts with
    | [] => if extras.isEmpty then .ok .help else .error ⟨none, .unrecognized extras⟩
    | .option spec name joined _ :: rest => do
      let (gs, rest) ← (giveOptions keeps mainSpecs spec name joined rest).mapError (Misuse.mk none)
      let f := gs.foldl Front.give f
      match f.stop with
      | some order => return order
      | none => readFront keeps n f extras rest
    | .stranger raw :: rest => readFront keeps n f (extras ++ [raw]) rest
    | .dashes :: [] => .error ⟨none, .unrecognized (extras ++ [Token.dashes.raw])⟩
    | t :: rest => readVerb keeps f.level extras t.raw (rest.map Token.raw)

/-- Read a command line; `keeps` says whether two dashes can be the value of an option. -/
def readArgs (keeps : Bool) (args : List Text) : Except Misuse Order := do
  let ts ← (tokens mainSpecs args).mapError (Misuse.mk none)
  readFront keeps (ts.length + 1) ⟨false, false, none⟩ [] ts

end ConstFlow.Command
