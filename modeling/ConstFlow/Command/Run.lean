import ConstFlow.Analysis.Analyze
import ConstFlow.Command.Options
import ConstFlow.Graph.Dot
import ConstFlow.Host
import ConstFlow.Json.Printer
import ConstFlow.Json.Reader
import ConstFlow.Report
import ConstFlow.Source.Parse

/-!
# Doing what the command line asks for

From a request and its host to what is printed, the exit code, and a file that is written.

The exit code is zero for success, one when the input or the configuration is at fault, and two
when something breaks that nobody has a message for, or when the command line is misused.
-/

namespace ConstFlow.Command

/-! ## Texts of files -/

/-- Something breaks that nobody has a message for. -/
inductive Breakdown where
  | notText
  | badPath (f : Path.Fault)
  | literalTooLong
  | numberTooLong (digits : Nat)
  | deepList
  | deepRecord
  | unshown (e : Json.ShowError)
  | selfNamed
  | namelessMethod
  deriving DecidableEq, Repr, Inhabited

/-- The contents of a file as text, with line feeds at the line ends. -/
def decode (bytes : ByteArray) : Except Breakdown (List Char) :=
  match String.fromUTF8? bytes with
  | some s => .ok (Text.foldNewlines s.toList)
  | none => .error .notText

/-- Why a request is not carried out. -/
inductive Trouble where
  | config (e : ConfigError)
  | source (r : Source.Rejection)
  | file (path : Text) (e : FileError)
  | analysis (e : AnalysisError)
  | unknownMethods (names : List Text)
  | breakdown (b : Breakdown)

/-! ## Configurations in files -/

/-- Why there is no configuration, as trouble. -/
def Trouble.ofConfig : ConfigFailure → Trouble
  | .error e => .config e
  | .unshown e => .breakdown (.unshown e)
  | .selfNamed => .breakdown .selfNamed

/-- The configuration in a text, and the name of the file in messages. -/
def configOfText (m : Machine) (cs : List Char) (shown : Text) : Except Trouble Config :=
  match Json.read m.reading cs with
  | .error .malformed => .error (.config (.notJson shown))
  | .error (.tooLong digits) => .error (.breakdown (.numberTooLong digits))
  | .error .deepList => .error (.breakdown .deepList)
  | .error .deepRecord => .error (.breakdown .deepRecord)
  | .ok (.record fields) => (Config.ofMapping m.showing (Config.mapping fields)).mapError .ofConfig
  | .ok _ => .error (.config (.notRecord shown))

/-- The configuration in the contents of a file. -/
def readConfig (m : Machine) (bytes : ByteArray) (shown : Text) : Except Trouble Config :=
  match decode bytes with
  | .error b => .error (.breakdown b)
  | .ok cs => configOfText m cs shown

/-- The configuration in a file. -/
def loadConfig (host : Host) (path : Text) : Except Trouble Config :=
  let shown := Path.normal path
  match Path.fault? shown with
  | some f => .error (.breakdown (.badPath f))
  | none =>
    match host.read shown with
    | .error e => .error (.config (.unreadable shown (e.message shown)))
    | .ok bytes => readConfig host.machine bytes shown

/-! ## Programs in files -/

/-- A program text that is read from a file, and the name of the file. -/
def readSource (bytes : ByteArray) (file : Text) : Except Breakdown Source.Reading := do
  let cs ← decode bytes
  return Source.read (Text.ofChars cs) file

/-- The program in a file. -/
def loadSource (host : Host) (path : Text) : Except Trouble Source.Reading :=
  let shown := Path.normal path
  match Path.fault? shown with
  | some f => .error (.breakdown (.badPath f))
  | none =>
    match host.read shown with
    | .error e => .error (.file shown e)
    | .ok bytes => (readSource bytes shown).mapError .breakdown

/-- The program on the standard input. -/
def typedSource (host : Host) : Except Trouble Source.Reading :=
  match host.stdin with
  | some text => .ok (Source.read text "<stdin>")
  | none => .error (.breakdown .notText)

/-- Why a text gives no program, as trouble. -/
def Trouble.ofParseError : Source.ParseError → Trouble
  | .rejected r => .source r
  | .literalTooLong => .breakdown .literalTooLong

/-! ## Steps that tell about themselves -/

/-- The outcome of steps, and the records of them. -/
structure Told (α : Type) where
  log : List Log.Record
  result : Except Trouble α

namespace Told

variable {α β : Type}

/-- Go on after steps that went well. -/
def andThen (t : Told α) (f : α → Told β) : Told β :=
  match t.result with
  | .error e => ⟨t.log, .error e⟩
  | .ok a => ⟨t.log ++ (f a).log, (f a).result⟩

instance : Monad Told where
  pure a := ⟨[], .ok a⟩
  bind := andThen

/-- Only records. -/
def tell (log : List Log.Record) : Told Unit := ⟨log, .ok ()⟩

/-- Only an outcome. -/
def ofExcept (x : Except Trouble α) : Told α := ⟨[], x⟩

end Told

/-- What a request gives for an option. What is missing is an empty list, which no option takes. -/
def givenJson {α : Type} (f : α → Json) : Option α → Json
  | some a => f a
  | none => .list []

/-- What a request gives for the entries. -/
def givenEntries (entries : List (Option Text)) : Setting :=
  match entries.mapM id with
  | some names => .names names
  | none => .json (.list (entries.map (givenJson .text)))

/-- What a request changes in a configuration. -/
def Request.changes (r : Request) : List (Text × Setting) :=
  List.flatten
    [if r.entries.isEmpty then [] else [("entry_methods", givenEntries r.entries)],
      match r.strategy with
        | some s => [("strategy", .json (.text s.name))]
        | none => [],
      match r.maxIterations with
        | some n => [("max_iterations", .json (givenJson .int n))]
        | none => [],
      if r.warnArity then [("warn_arity_mismatch", .json (.bool true))] else []]

/-- What a request changes, as a mapping. -/
def Request.overrides (r : Request) : Assoc Text Setting := .ofList r.changes

/-- The configuration of a request: the one in its file, if it names one, with what it overrides. -/
def Request.configure (r : Request) (host : Host) : Told Config := do
  let base ←
    match r.config with
    | none => pure Config.default
    | some path =>
      if path.isEmpty then pure Config.default
      else do
        let c ← Told.ofExcept (loadConfig host path)
        Told.tell [c.record]
        pure c
  if r.changes.isEmpty then pure base
  else do
    let c ← Told.ofExcept ((base.withOptions host.machine.showing r.overrides).mapError .ofConfig)
    Told.tell [c.record]
    pure c

/-- The program of a request. -/
def Request.program (r : Request) (host : Host) : Told Program := do
  let reading ← Told.ofExcept (if r.input = "-" then typedSource host else loadSource host r.input)
  Told.tell reading.log
  Told.ofExcept (reading.result.mapError .ofParseError)

/-- What every command needs. -/
structure Prepared where
  config : Config
  program : Program
  graph : Supergraph

/-- Configuration, then program, then supergraph. -/
def Request.prepare (r : Request) (host : Host) : Told Prepared := do
  let config ← r.configure host
  let program ← r.program host
  let graph ← Told.ofExcept
    ((Supergraph.build program config.entries).mapError fun e => .analysis (.graph e))
  Told.tell graph.log
  return ⟨config, program, graph⟩

/-! ## Outcomes -/

/-- What the program leaves: what it prints, its exit code, and a file that it writes. -/
structure Outcome where
  exit : Nat
  stdout : Text
  stderr : Text
  /-- The path of the file, and its contents. -/
  output : Option (Text × ByteArray)
  deriving Inhabited

/-- A text in colour, if there is colour. -/
def painted (color : Bool) (codes : List String) (s : String) : String :=
  if color then String.join (codes.map fun c => "\x1b[" ++ c ++ "m") ++ s ++ "\x1b[0m" else s

/-- The line of an error. -/
def errorLine (color : Bool) (message : Text) : Text :=
  painted color ["1", "31"] "error:" ++ " " ++ message ++ "\n"

/-- How the report of a breakdown begins. -/
def breakdownLine (color : Bool) : Text :=
  "\n" ++ (if color then "\x1b[1m\x1b[31m" else "") ++ "Internal error:"

/-- The records of a level as lines. -/
def logLines (level : Log.Level) (log : List Log.Record) : Text :=
  List.flatten ((Log.atLeast level log).map fun r => r.text ++ "\n")

/-- Trouble in words; none for a breakdown. -/
def Trouble.message? : Trouble → Option Text
  | config e => some e.message
  | source r => some r.message
  | file path e => some (e.message path)
  | analysis (.solver .divisionByZero) => none
  | analysis (.solver .missingFact) => none
  | analysis (.solver (.backward _)) => none
  | analysis .unfinished => none
  | analysis e => some e.message
  | unknownMethods names => some ("not a reachable method: " ++ Text.join ", " names)
  | breakdown _ => none

/-- What a command that goes well has to deliver. -/
structure Printed where
  /-- What is printed on the standard output, piece by piece. -/
  stdout : List Text
  /-- What is told when all of that is done. -/
  notice : Text
  /-- A file to be written, by its path and its text. -/
  output : Option (Text × Text)

/-- The methods that are asked for and not in the graph. -/
def unknownMethods (g : Supergraph) (names : List Text) : List Text :=
  names.filter fun n => !(g.methods.map Method.name).contains n

/-- Analyse, and print a report. -/
def Request.runAnalyze (r : Request) (p : Prepared) : Told Printed := do
  let a := analyzeGraph p.graph p.config
  Told.tell a.log
  let (_, table) ← Told.ofExcept (a.result.mapError .analysis)
  let methods ← Told.ofExcept <|
    match r.methods.mapM id with
    | some names => .ok names
    | none => .error (.breakdown .namelessMethod)
  match unknownMethods p.graph methods with
  | [] =>
    let options : ReportOptions := ⟨methods, r.showTemps⟩
    let report : List Text :=
      if r.json then [(table.report p.graph options).pretty ++ "\n"]
      else (table.listingLines p.graph options).map fun l => l ++ "\n"
    let record : Log.Record := ⟨.info, .command, "Analysed " ++ toString p.graph.nodes.length ++
      " nodes in " ++ toString table.iterations ++ " iterations (0.0000s)"⟩
    return ⟨report, logLines r.level [record], none⟩
  | names => Told.ofExcept (.error (.unknownMethods names))

/-- Say how large the program is. -/
def Request.runCheck (r : Request) (color : Bool) (p : Prepared) : Told Printed :=
  let notice := painted color ["32"] "✓" ++ " " ++ r.input ++ ": " ++
    toString p.program.methods.length ++ " method(s), " ++
    toString p.graph.methods.length ++ " reachable, " ++
    toString p.graph.nodes.length ++ " ICFG node(s), " ++
    toString p.graph.edges.length ++ " edge(s)\n"
  pure ⟨[], if r.quiet then "" else notice, none⟩

/-- Draw the supergraph. -/
def Request.runDump (r : Request) (p : Prepared) : Told Printed :=
  let drawing := p.graph.toDot (Path.baseName r.input) ++ "\n"
  match r.output with
  | none => pure ⟨[drawing], "", none⟩
  | some path =>
    if path.isEmpty then pure ⟨[drawing], "", none⟩ else pure ⟨[], "", some (path, drawing)⟩

/-- The outcome of trouble, after records. -/
def failing (color : Bool) (lines : Text) (t : Trouble) : Outcome :=
  match t.message? with
  | some m => ⟨1, "", lines ++ errorLine color m, none⟩
  | none => ⟨2, "", lines ++ breakdownLine color, none⟩

/-- Print pieces, up to the first that the standard output has no form for. -/
def print (host : Host) (lines notice : Text) (pieces : List Text) : Outcome :=
  if pieces.all host.prints then ⟨0, pieces.flatten, lines ++ notice, none⟩
  else ⟨2, (pieces.takeWhile host.prints).flatten, lines ++ breakdownLine host.color, none⟩

/-- Write a file. One whose text has no form in bytes is left empty. -/
def writeFile (host : Host) (lines notice path content : Text) : Outcome :=
  let refused (e : FileError) : Outcome :=
    ⟨1, "", lines ++ errorLine host.color ("Cannot write output: " ++ e.message path), none⟩
  let broken (output : Option (Text × ByteArray)) : Outcome :=
    ⟨2, "", lines ++ breakdownLine host.color, output⟩
  match Path.fault? path with
  | some _ => broken none
  | none =>
    match host.create path with
    | .error e => refused e
    | .ok () =>
      match Text.encode content with
      | .error _ => broken (some (path, .empty))
      | .ok bytes =>
        match host.write path bytes with
        | .error e => refused e
        | .ok () => ⟨0, "", lines ++ notice, some (path, bytes)⟩

/-- Deliver what there is to deliver, after records. -/
def Printed.deliver (host : Host) (lines : Text) (q : Printed) : Outcome :=
  match q.output with
  | none => print host lines q.notice q.stdout
  | some (path, content) => writeFile host lines q.notice path content

/-- The command itself. -/
def Request.perform (r : Request) (color : Bool) (p : Prepared) : Told Printed :=
  match r.verb with
  | .analyze => r.runAnalyze p
  | .check => r.runCheck color p
  | .dump => r.runDump p

/-- What a request comes to, and the records of it. -/
def Request.carryOut (r : Request) (host : Host) : Told Printed := do
  let p ← r.prepare host
  r.perform host.color p

/-- Carry out a request. -/
def Request.run (r : Request) (host : Host) : Outcome :=
  let told := r.carryOut host
  let lines := logLines r.level told.log
  match told.result with
  | .ok printed => printed.deliver host lines
  | .error t => failing host.color lines t

/-! ## Whole runs -/

/-- The version of the program. -/
def version : String := "0.1.0"

/-- What the program prints about itself. -/
def helpText : Text := Text.join "\n" [
  "usage: interdataflow [-h] [--version] [-v] [--debug] <command> ...",
  "",
  "Interprocedural constant propagation over a small IR",
  "",
  "options:",
  "  -h, --help     show this help message and exit",
  "  --version      show program's version number and exit",
  "  -v, --verbose  Log progress information",
  "  --debug        Log solver and graph construction details",
  "",
  "commands:",
  "  available commands",
  "",
  "  <command>",
  "    analyze      Run interprocedural constant propagation",
  "    check        Parse a program and build its ICFG",
  "    dump-icfg    Print the ICFG as Graphviz DOT",
  "",
  "examples:",
  "  interdataflow analyze prog.ir",
  "  interdataflow analyze prog.ir --format json --method id",
  "  interdataflow check prog.ir --entry start",
  "  interdataflow dump-icfg prog.ir -o prog.dot",
  ""]

/-- Carry out a command line. The message of a misused command line has no line feed at its end. -/
def run (host : Host) (args : List Text) : Outcome :=
  match readArgs host.machine.keepsDashes args with
  | .error m => ⟨2, "", m.message, none⟩
  | .ok .help => ⟨0, helpText, "", none⟩
  | .ok .version => ⟨0, programName ++ " " ++ version ++ "\n", "", none⟩
  | .ok (.request r) => r.run host

end ConstFlow.Command
