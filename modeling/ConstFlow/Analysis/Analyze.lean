import ConstFlow.Analysis.Solver
import ConstFlow.Config

/-!
# Analysing a program

The whole way from a program and a configuration to the facts: the supergraph from the entry
methods on, solved as the configuration says.
-/

namespace ConstFlow

/-- Why an analysis gives no result. -/
inductive AnalysisError where
  | config (e : ConfigError)
  | graph (e : Graph.Error)
  | solver (e : Failure)
  /-- The visits that were provided for did not do. -/
  | unfinished

/-- An error in words. -/
def AnalysisError.message : AnalysisError → Text
  | config e => e.message
  | graph e => e.message
  | solver e => e.message
  | unfinished => "the solver did not finish"

/-- How the solver works under a configuration. -/
def Config.settings (c : Config) : Settings := ⟨c.strategy, c.maxIterations⟩

/-- A configuration has to be for this analysis. -/
def Config.checkAnalysis (c : Config) : Except ConfigError Unit :=
  if c.analysis = analysisName then .ok () else .error (.unknownAnalysis c.analysis analysisName)

/-- What comes of an analysis, and the records of it. -/
structure Analysed where
  result : Except AnalysisError (Supergraph × Table)
  log : List Log.Record

/-- Analyse over a supergraph that is there already. -/
def analyzeGraph (g : Supergraph) (c : Config) : Analysed :=
  match c.checkAnalysis with
  | .error e => ⟨.error (.config e), []⟩
  | .ok () =>
    match c.settings.setUp .constants with
    | .error e => ⟨.error (.solver e), []⟩
    | .ok s =>
      let f := solve g s []
      let log := f.solveLog c.warnArity []
      match f.ending with
      | .fixpoint => ⟨.ok (g, f.run.table), log⟩
      | .failed e => ⟨.error (.solver e), log⟩
      | .unfinished => ⟨.error .unfinished, log⟩

/-- Analyse a program. -/
def analyze (p : Program) (c : Config) : Analysed :=
  match c.checkAnalysis with
  | .error e => ⟨.error (.config e), []⟩
  | .ok () =>
    match Supergraph.build p c.entries with
    | .error e => ⟨.error (.graph e), []⟩
    | .ok g =>
      let a := analyzeGraph g c
      ⟨a.result, g.log ++ a.log⟩

end ConstFlow
