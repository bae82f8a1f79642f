import ConstFlow.Graph.Error
import ConstFlow.Graph.Node
import ConstFlow.Log

/-!
# Call graphs

Calls name the method that they call. The methods that can be reached from some entry methods are
found breadth first. The search looks at each call in them once: the call is resolved if a method
of that name is defined, and unresolved otherwise. It enters what it finds as it goes: the methods,
the calls, and the calls once more under the call and under the name of the method that is called.
-/

namespace ConstFlow

/-- A call that is resolved. -/
structure CallEdge where
  site : Node
  callee : Method
  deriving DecidableEq

/-- A call as one line of text. -/
def CallEdge.text (e : CallEdge) : Text :=
  "CallGraphEdge(" ++ e.site.method ++ " -> " ++ e.callee.name ++ ", line " ++
    toString e.site.line ++ ")"

namespace Program

/-- The method that a node calls, if it is a call and the method is defined. -/
def resolve? (p : Program) (n : Node) : Option Method := n.action.callee?.bind p.find?

theorem mem_of_resolve? {p : Program} {n : Node} {c : Method} (h : p.resolve? n = some c) :
    c ∈ p.methods := by
  obtain ⟨name, _, hf⟩ := Option.bind_eq_some_iff.mp h
  exact List.mem_of_find?_eq_some hf

/-- The number of methods that are not among the reached ones. -/
def unreached (p : Program) (reached : List Method) : Nat :=
  (p.methods.filter fun m => decide (m.name ∉ reached.map Method.name)).length

/-- Reaching a method of the program leaves fewer. -/
theorem unreached_append {p : Program} {reached : List Method} {c : Method} (hc : c ∈ p.methods)
    (hn : c.name ∉ reached.map Method.name) :
    p.unreached (reached ++ [c]) < p.unreached reached := by
  simp only [unreached, List.map_append, List.map_cons, List.map_nil]
  generalize reached.map Method.name = names at hn
  generalize p.methods = ms at hc
  have hle : ∀ l : List Method,
      (l.filter fun m => decide (m.name ∉ names ++ [c.name])).length ≤
        (l.filter fun m => decide (m.name ∉ names)).length := by
    intro l
    induction l with
    | nil => simp
    | cons m l ih =>
      by_cases hm : m.name ∈ names <;> by_cases hmc : m.name = c.name <;>
        simp [hm, hmc, hn] at ih ⊢ <;> omega
  induction ms with
  | nil => simp at hc
  | cons m ms ih =>
    rcases List.mem_cons.mp hc with rfl | hc
    · have := hle ms
      simp [hn] at this ⊢
      omega
    · have := ih hc
      by_cases hm : m.name ∈ names <;> by_cases hmc : m.name = c.name <;>
        simp [hm, hmc, hn] at this ⊢ <;> omega

end Program

/-- How a call is resolved. -/
inductive Resolution where
  | direct
  | unresolved
  deriving DecidableEq, Repr, Inhabited

/-- The name of a resolution. -/
def Resolution.name : Resolution → String
  | direct => "direct"
  | unresolved => "unresolved"

/-- The methods that can be reached from entry methods, and the calls in them. -/
structure CallGraph where
  program : Program
  entries : List Method
  /-- In the order of their discovery. -/
  reachable : List Method
  /-- The calls that are resolved. -/
  edges : List CallEdge
  /-- The calls that are not. -/
  unresolved : List Node
  /-- The methods that a call calls. -/
  callees : Assoc Node (List Method)
  /-- The calls of the method of a name. -/
  callers : Assoc Text (List Node)

namespace CallGraph

/-- A call graph in which nothing has been reached. -/
def bare (p : Program) (entries : List Method) : CallGraph :=
  ⟨p, entries, [], [], [], .empty, .empty⟩

/-- Enter a call that is resolved. -/
def addEdge (g : CallGraph) (site : Node) (callee : Method) : CallGraph :=
  { g with
    edges := g.edges ++ [⟨site, callee⟩]
    callees := g.callees.push site callee
    callers := g.callers.push callee.name site }

/-- Enter a call that is not. -/
def addUnresolved (g : CallGraph) (site : Node) : CallGraph :=
  { g with unresolved := g.unresolved ++ [site] }

/-! ## The search -/

/-- A call graph that is being filled, and the methods in it whose calls are still to be looked
at. -/
structure Search where
  graph : CallGraph
  queue : List Method

namespace Search

/-- Reach a method; one that is new is looked at later. -/
def reach (s : Search) (m : Method) : Search :=
  if m.name ∈ s.graph.reachable.map Method.name then s
  else ⟨{ s.graph with reachable := s.graph.reachable ++ [m] }, s.queue ++ [m]⟩

/-- Look at a call, and reach what it calls. -/
def lookAt (s : Search) (site : Node) : Search :=
  match s.graph.program.resolve? site with
  | none => { s with graph := s.graph.addUnresolved site }
  | some callee => reach { s with graph := s.graph.addEdge site callee } callee

/-- The methods that are queued or may still be. -/
def ahead (s : Search) : Nat := s.graph.program.unreached s.graph.reachable + s.queue.length

theorem ahead_reach (s : Search) {m : Method} (h : m ∈ s.graph.program.methods) :
    (s.reach m).ahead ≤ s.ahead := by
  unfold reach
  split
  · exact Nat.le_refl _
  · rename_i hnew
    have := Program.unreached_append h hnew
    simp only [ahead, List.length_append, List.length_cons, List.length_nil]
    omega

theorem ahead_lookAt (s : Search) (n : Node) : (s.lookAt n).ahead ≤ s.ahead := by
  unfold lookAt
  split
  · exact Nat.le_refl _
  · rename_i callee h
    exact ahead_reach _ (Program.mem_of_resolve? h)

theorem ahead_foldl_lookAt (ns : List Node) :
    ∀ s : Search, (ns.foldl lookAt s).ahead ≤ s.ahead := by
  induction ns with
  | nil => exact fun s => Nat.le_refl _
  | cons n ns ih => exact fun s => Nat.le_trans (ih (s.lookAt n)) (ahead_lookAt s n)

end Search

/-- Look at the calls of the queued methods in turn. Every method is queued once, so the queue runs
out. -/
def explore : Search → CallGraph
  | ⟨g, []⟩ => g
  | ⟨g, m :: rest⟩ => explore (m.callSites.foldl Search.lookAt ⟨g, rest⟩)
termination_by s => s.ahead
decreasing_by
  have := Search.ahead_foldl_lookAt m.callSites ⟨g, rest⟩
  simp only [Search.ahead, List.length_cons] at this ⊢
  omega

/-- The methods of some names, each once, unless one is not defined. -/
def entryMethods (p : Program) (found : List Method) : List Text → Except Graph.Error (List Method)
  | [] => .ok found
  | name :: rest =>
    match p.find? name with
    | none => .error (.undefinedEntry name)
    | some m => entryMethods p (if m ∈ found then found else found ++ [m]) rest

/-- The search with the entry methods reached. -/
def start (p : Program) (entries : List Method) : Search :=
  entries.foldl Search.reach ⟨bare p entries, []⟩

/-- The call graph from the named methods on. -/
def build (p : Program) (names : List Text) : Except Graph.Error CallGraph := do
  let entries ← entryMethods p [] names
  return explore (start p entries)

/-! ## Queries -/

/-- Whether a method is reachable. -/
def isReachable (g : CallGraph) (m : Method) : Bool := decide (m ∈ g.reachable)

/-- The methods that a call calls. -/
def calleesOf (g : CallGraph) (site : Node) : List Method := g.callees.listAt site

/-- The calls of a method. -/
def sitesOf (g : CallGraph) (m : Method) : List Node := g.callers.listAt m.name

/-- How a call was resolved, if it was looked at. -/
def resolution? (g : CallGraph) (site : Node) : Option Resolution :=
  if g.callees.contains site then some .direct
  else if site ∈ g.unresolved then some .unresolved
  else none

/-- A call graph as one line of text. -/
def summary (g : CallGraph) : Text :=
  "CallGraph(methods=" ++ toString g.reachable.length ++ ", edges=" ++ toString g.edges.length ++
    ", unresolved=" ++ toString g.unresolved.length ++ ")"

/-- The record of a call that is not resolved. -/
def unresolvedRecord (site : Node) : Log.Record :=
  ⟨.warning, .callGraph, "Unresolved call to " ++ Text.quote (site.action.callee?.getD "") ++
    " in " ++ site.method ++ " (line " ++ toString site.line ++ "); no call edge added"⟩

/-- The records of having built a call graph. -/
def log (g : CallGraph) : List Log.Record :=
  g.unresolved.map unresolvedRecord ++ [⟨.debug, .callGraph, "Built " ++ g.summary⟩]

end CallGraph

end ConstFlow
