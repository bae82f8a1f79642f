import Mathlib.Data.List.Forall2
import ConstFlow.Proofs.GraphShape

/-!
# Graphs of programs that agree

Two programs agree on what is run from some entries if every name that matters is undefined in both,
or is defined in both by methods that differ in nothing but the lines of their statements and the
order in which their labels are listed. A name matters if it is an entry or is called from a
reachable method (`Program.Mentions`). Methods that are never reached may be whatever they like, and
the methods of the two programs may stand in any order.

The graphs of such programs are twins: they list related methods, nodes and edges in the same order
(`Program.Agree.supergraph`). Each step of the construction is shown to take related lists to
related lists. It never asks for more of two methods than that they are alike, except where it
compares nodes or methods with one another: there it matters that within one program a method is
known by its name and a node by its method and position, so that being twins is one to one
(`Method.Twin.biUnique`, `Node.Twin.biUnique`).
-/

namespace ConstFlow

open List (Forall₂)

/-! ## Attempts that come out alike -/

/-- Both attempts fail in the same way, or both give results, and those are related. -/
inductive SameOutcome {ε α β : Type} (R : α → β → Prop) : Except ε α → Except ε β → Prop where
  | ok {a : α} {b : β} (h : R a b) : SameOutcome R (.ok a) (.ok b)
  | error (e : ε) : SameOutcome R (.error e) (.error e)

namespace SameOutcome

variable {ε α β γ δ : Type} {R : α → β → Prop} {S : γ → δ → Prop}

theorem attach {x : Except ε α} {y : Except ε β} (h : SameOutcome R x y) :
    SameOutcome (fun a b => R a b ∧ x = .ok a ∧ y = .ok b) x y := by
  cases h with
  | ok hab => exact .ok ⟨hab, rfl, rfl⟩
  | error e => exact .error e

theorem imp {R' : α → β → Prop} (hR : ∀ a b, R a b → R' a b) {x : Except ε α} {y : Except ε β}
    (h : SameOutcome R x y) : SameOutcome R' x y := by
  cases h with
  | ok hab => exact .ok (hR _ _ hab)
  | error e => exact .error e

theorem bind {x : Except ε α} {y : Except ε β} {f : α → Except ε γ} {g : β → Except ε δ}
    (h : SameOutcome R x y) (hfg : ∀ a b, R a b → SameOutcome S (f a) (g b)) :
    SameOutcome S (x >>= f) (y >>= g) := by
  cases h with
  | ok hab => exact hfg _ _ hab
  | error e => exact .error e

theorem map {x : Except ε α} {y : Except ε β} {f : α → γ} {g : β → δ} (h : SameOutcome R x y)
    (hfg : ∀ a b, R a b → S (f a) (g b)) : SameOutcome S (x.map f) (y.map g) := by
  cases h with
  | ok hab => exact .ok (hfg _ _ hab)
  | error e => exact .error e

theorem mapM {f : α → Except ε γ} {g : β → Except ε δ} {as : List α} {bs : List β}
    (h : Forall₂ R as bs) (hfg : ∀ a b, R a b → SameOutcome S (f a) (g b)) :
    SameOutcome (Forall₂ S) (as.mapM f) (bs.mapM g) := by
  induction h with
  | nil => exact .ok .nil
  | cons hab _ ih =>
      rw [List.mapM_cons, List.mapM_cons]
      exact (hfg _ _ hab).bind fun _ _ hcd => ih.bind fun _ _ hrest => .ok (.cons hcd hrest)

end SameOutcome

theorem forall₂_mem {α β : Type} {R : α → β → Prop} {as : List α} {bs : List β}
    (h : Forall₂ R as bs) : Forall₂ (fun a b => R a b ∧ a ∈ as ∧ b ∈ bs) as bs :=
  List.forall₂_iff_zip.mpr
    ⟨h.length_eq, fun hz => ⟨List.forall₂_zip h hz, List.of_mem_zip hz⟩⟩

theorem map_eq_of_forall₂ {α β γ : Type} {R : α → β → Prop} {f : α → γ} {g : β → γ}
    {as : List α} {bs : List β} (h : Forall₂ R as bs) (hfg : ∀ a b, R a b → f a = g b) :
    as.map f = bs.map g :=
  List.forall₂_eq_eq_eq ▸ List.rel_map (fun a b => hfg a b) h

theorem option_rel_map {α β γ δ : Type} {R : α → β → Prop} {S : γ → δ → Prop} {f : α → γ}
    {g : β → δ} {a : Option α} {b : Option β} (h : Option.Rel R a b)
    (hfg : ∀ a b, R a b → S (f a) (g b)) : Option.Rel S (a.map f) (b.map g) := by
  cases h with
  | none => exact .none
  | some hab => exact .some (hfg _ _ hab)

theorem option_rel_isNone {α β : Type} {R : α → β → Prop} {a : Option α} {b : Option β}
    (h : Option.Rel R a b) : a.isNone = b.isNone := by
  cases h <;> rfl

/-! ## Alike methods -/

/-- Nodes that differ in their lines at most. -/
structure Node.Alike (n n' : Node) : Prop where
  method : n.method = n'.method
  pos : n.pos = n'.pos
  action : n.action = n'.action

/-- Statements that differ in their lines at most. -/
structure Stmt.Alike (s s' : Stmt) : Prop where
  method : s.method = s'.method
  index : s.index = s'.index
  action : s.action = s'.action

theorem Stmt.Alike.node {s s' : Stmt} (h : s.Alike s') : s.node.Alike s'.node :=
  ⟨h.method, congrArg (· + 1) h.index, h.action⟩

/-- Edges inside methods that differ in the lines of their nodes at most. -/
structure FlowEdge.Alike (e e' : FlowEdge) : Prop where
  source : e.source.Alike e'.source
  target : e.target.Alike e'.target
  flow : e.flow = e'.flow

/-- Methods with the same parameters, statements and labels. The lines of the statements and the
order in which labels are listed may differ. -/
structure Method.Alike (m m' : Method) : Prop where
  name : m.name = m'.name
  params : m.params = m'.params
  body : m.body.map Stmt.action = m'.body.map Stmt.action
  labels : ∀ l, m.labels.get? l = m'.labels.get? l

namespace Method.Alike

variable {m m' : Method} (h : m.Alike m')
include h

theorem length_eq : m.body.length = m'.body.length := by
  simpa using congrArg List.length h.body

theorem stmt {i : Nat} {s s' : Stmt} (hs : m.body[i]? = some s) (hs' : m'.body[i]? = some s') :
    s.Alike s' := by
  have haction : (m.body[i]?).map Stmt.action = (m'.body[i]?).map Stmt.action := by
    rw [← List.getElem?_map, ← List.getElem?_map, h.body]
  rw [hs, hs'] at haction
  obtain ⟨hmethod, hindex⟩ := place hs
  obtain ⟨hmethod', hindex'⟩ := place hs'
  exact ⟨hmethod.trans (h.name.trans hmethod'.symm), hindex.trans hindex'.symm,
    Option.some.inj haction⟩

theorem stmts : Forall₂ Stmt.Alike m.body m'.body :=
  List.forall₂_iff_get.mpr ⟨h.length_eq, fun _ hi hi' =>
    h.stmt (List.getElem?_eq_getElem hi) (List.getElem?_eq_getElem hi')⟩

theorem returnVars : m.returnVars = m'.returnVars := by
  refine List.rel_foldl (P := Eq) (R := Stmt.Alike) ?_ rfl h.stmts
  rintro seen _ rfl s s' hs
  simp only [hs.action]

theorem entry : m.entry.Alike m'.entry := ⟨h.name, rfl, rfl⟩

theorem exit : m.exit.Alike m'.exit := ⟨h.name, congrArg (· + 1) h.length_eq, rfl⟩

theorem nodeAt (i : Nat) : (m.nodeAt i).Alike (m'.nodeAt i) := by
  unfold Method.nodeAt
  by_cases hi : i < m.body.length
  · have hi' : i < m'.body.length := h.length_eq ▸ hi
    rw [List.getElem?_eq_getElem hi, List.getElem?_eq_getElem hi']
    exact (h.stmt (List.getElem?_eq_getElem hi) (List.getElem?_eq_getElem hi')).node
  · rw [List.getElem?_eq_none_iff.mpr (by omega),
      List.getElem?_eq_none_iff.mpr (h.length_eq ▸ by omega)]
    exact h.exit

theorem stmtNodes : Forall₂ Node.Alike m.stmtNodes m'.stmtNodes :=
  List.rel_map (fun _ _ hs => hs.node) h.stmts

theorem nodes : Forall₂ Node.Alike m.nodes m'.nodes :=
  List.rel_append (.cons h.entry h.stmtNodes) (.cons h.exit .nil)

theorem callSites : Forall₂ Node.Alike m.callSites m'.callSites :=
  List.rel_filter (fun n n' hn => by simp only [hn.action]) h.stmtNodes

theorem labelTarget (l : Text) : m.labelTarget l = m'.labelTarget l := by
  unfold Method.labelTarget
  rw [h.labels, h.name]

theorem edgesFrom (i : Nat) {s s' : Stmt} (hs : s.Alike s') :
    SameOutcome (Forall₂ FlowEdge.Alike) (m.edgesFrom i s) (m'.edgesFrom i s') := by
  have hhere := hs.node
  have hlabel : ∀ l, SameOutcome (· = ·) (m.labelTarget l) (m'.labelTarget l) := by
    intro l
    rw [h.labelTarget l]
    cases m'.labelTarget l with
    | ok i => exact .ok rfl
    | error e => exact .error e
  unfold Method.edgesFrom
  rw [← hs.action]
  cases s.action with
  | ret x => exact .ok (.cons ⟨hhere, h.exit, rfl⟩ .nil)
  | jump l =>
      refine (hlabel l).bind ?_
      rintro t _ rfl
      exact .ok (.cons ⟨hhere, h.nodeAt t, rfl⟩ .nil)
  | branch op x y l =>
      refine (hlabel l).bind ?_
      rintro t _ rfl
      exact .ok (.cons ⟨hhere, h.nodeAt t, rfl⟩ (.cons ⟨hhere, h.nodeAt (i + 1), rfl⟩ .nil))
  | _ => exact .ok (.cons ⟨hhere, h.nodeAt (i + 1), rfl⟩ .nil)

theorem bodyEdges {ss ss' : List Stmt} (hss : Forall₂ Stmt.Alike ss ss') :
    ∀ i, SameOutcome (Forall₂ FlowEdge.Alike) (m.bodyEdges i ss) (m'.bodyEdges i ss') := by
  induction hss with
  | nil => exact fun i => .ok .nil
  | cons hs _ ih =>
      intro i
      exact (h.edgesFrom i hs).bind fun _ _ hhere =>
        (ih (i + 1)).bind fun _ _ hmore => .ok (List.rel_append hhere hmore)

end Method.Alike

/-! ## Twins -/

/-- Alike methods, one of each program. -/
structure Method.Twin (p q : Program) (m m' : Method) : Prop where
  alike : m.Alike m'
  left : m ∈ p.methods
  right : m' ∈ q.methods

/-- Alike nodes, one of each program. -/
structure Node.Twin (p q : Program) (n n' : Node) : Prop where
  alike : n.Alike n'
  left : ∃ m ∈ p.methods, n ∈ m.nodes
  right : ∃ m ∈ q.methods, n' ∈ m.nodes

theorem Method.Twin.biUnique (p q : Program) : Relator.BiUnique (Method.Twin p q) := by
  constructor
  · intro m c m' hm hc
    exact Program.eq_of_name_eq hm.left hc.left (hm.alike.name.trans hc.alike.name.symm)
  · intro m m' c' hm hc
    exact Program.eq_of_name_eq hm.right hc.right (hm.alike.name.symm.trans hc.alike.name)

theorem Node.Twin.biUnique (p q : Program) : Relator.BiUnique (Node.Twin p q) := by
  constructor
  · intro n r n' hn hr
    exact Program.node_eq hn.left hr.left (hn.alike.method.trans hr.alike.method.symm)
      (hn.alike.pos.trans hr.alike.pos.symm)
  · intro n n' r' hn hr
    exact Program.node_eq hn.right hr.right (hn.alike.method.symm.trans hr.alike.method)
      (hn.alike.pos.symm.trans hr.alike.pos)

section

variable {p q : Program}

theorem Method.Twin.entry {m m' : Method} (h : m.Twin p q m') : m.entry.Twin p q m'.entry :=
  ⟨h.alike.entry, ⟨m, h.left, m.entry_mem_nodes⟩, ⟨m', h.right, m'.entry_mem_nodes⟩⟩

theorem Method.Twin.exit {m m' : Method} (h : m.Twin p q m') : m.exit.Twin p q m'.exit :=
  ⟨h.alike.exit, ⟨m, h.left, m.exit_mem_nodes⟩, ⟨m', h.right, m'.exit_mem_nodes⟩⟩

theorem Method.Twin.nodes {m m' : Method} (h : m.Twin p q m') :
    Forall₂ (Node.Twin p q) m.nodes m'.nodes :=
  (forall₂_mem h.alike.nodes).imp fun _ _ hn => ⟨hn.1, ⟨m, h.left, hn.2.1⟩, ⟨m', h.right, hn.2.2⟩⟩

theorem Method.Twin.callSites {m m' : Method} (h : m.Twin p q m') :
    Forall₂ (fun n n' => n.Twin p q n' ∧ n ∈ m.callSites) m.callSites m'.callSites :=
  (forall₂_mem h.alike.callSites).imp fun _ _ hn =>
    ⟨⟨hn.1, ⟨m, h.left, Method.mem_nodes_of_mem_callSites hn.2.1⟩,
      ⟨m', h.right, Method.mem_nodes_of_mem_callSites hn.2.2⟩⟩, hn.2.1⟩

/-- Edges inside methods that run between twins. -/
structure FlowEdge.Twin (p q : Program) (e e' : FlowEdge) : Prop where
  source : e.source.Twin p q e'.source
  target : e.target.Twin p q e'.target
  flow : e.flow = e'.flow

/-- The control flow of twins. -/
structure ControlFlow.Twin (p q : Program) (c c' : ControlFlow) : Prop where
  method : c.method.Twin p q c'.method
  edges : Forall₂ (FlowEdge.Twin p q) c.edges c'.edges

theorem Method.Twin.controlFlow {m m' : Method} (h : m.Twin p q m') :
    SameOutcome (ControlFlow.Twin p q) (ControlFlow.build m) (ControlFlow.build m') := by
  have halike : SameOutcome (fun c c' => Forall₂ FlowEdge.Alike c.edges c'.edges)
      (ControlFlow.build m) (ControlFlow.build m') := by
    rw [ControlFlow.build_eq, ControlFlow.build_eq]
    refine (h.alike.bodyEdges h.alike.stmts 0).map fun body body' hbody => ?_
    rw [ControlFlow.edges_drawn, ControlFlow.edges_drawn]
    exact .cons ⟨h.alike.entry, h.alike.nodeAt 0, rfl⟩ hbody
  refine halike.attach.imp ?_
  rintro c c' ⟨hedges, hc, hc'⟩
  refine ⟨?_, (forall₂_mem hedges).imp ?_⟩
  · rw [ControlFlow.method_of_build hc, ControlFlow.method_of_build hc']
    exact h
  · rintro e e' ⟨he, hmem, hmem'⟩
    obtain ⟨hs, ht⟩ := ControlFlow.mem_nodes_of_build hc hmem
    obtain ⟨hs', ht'⟩ := ControlFlow.mem_nodes_of_build hc' hmem'
    exact ⟨⟨he.source, ⟨m, h.left, hs⟩, ⟨m', h.right, hs'⟩⟩,
      ⟨he.target, ⟨m, h.left, ht⟩, ⟨m', h.right, ht'⟩⟩, he.flow⟩

end

/-! ## Programs that agree -/

/-- A name that matters when a program is run from some entries: that of an entry, or one that a
reachable method calls. -/
def Program.Mentions (p : Program) (names : List Text) (name : Text) : Prop :=
  name ∈ names ∨ ∃ m, p.Reaches names m ∧ ∃ s ∈ m.body, s.action.callee? = some name

/-- Every name that matters in the first program is undefined in both programs, or is defined in
both by alike methods. -/
def Program.Agree (names : List Text) (p q : Program) : Prop :=
  ∀ name, p.Mentions names name → Option.Rel Method.Alike (p.find? name) (q.find? name)

/-- Searches that have come to twins. -/
structure Frontier.Twin (p q : Program) (f f' : Frontier) : Prop where
  queue : Forall₂ (Method.Twin p q) f.queue f'.queue
  reached : Forall₂ (Method.Twin p q) f.reached f'.reached

theorem Frontier.Twin.reach {p q : Program} {cs cs' : List Method}
    (hcs : Forall₂ (Method.Twin p q) cs cs') :
    ∀ {f f' : Frontier}, f.Twin p q f' → (f.reach cs).Twin p q (f'.reach cs') := by
  induction hcs with
  | nil => exact fun hf => hf
  | @cons c c' cs cs' hc _ ih =>
      intro f f' hf
      have hnames : f.reached.map Method.name = f'.reached.map Method.name :=
        map_eq_of_forall₂ hf.reached fun _ _ hm => hm.alike.name
      unfold Frontier.reach
      rw [hnames, hc.alike.name]
      split
      · exact ih hf
      · exact ih ⟨List.rel_append hf.queue (.cons hc .nil),
          List.rel_append hf.reached (.cons hc .nil)⟩

/-- Resolved calls of twins. -/
structure CallEdge.Twin (p q : Program) (e e' : CallEdge) : Prop where
  site : e.site.Twin p q e'.site
  callee : e.callee.Twin p q e'.callee

/-- Call graphs that list twins in the same order. -/
structure CallGraph.Twin (p q : Program) (g g' : CallGraph) : Prop where
  entries : Forall₂ (Method.Twin p q) g.entries g'.entries
  reachable : Forall₂ (Method.Twin p q) g.reachable g'.reachable
  edges : Forall₂ (CallEdge.Twin p q) g.edges g'.edges
  unresolved : Forall₂ (Node.Twin p q) g.unresolved g'.unresolved

namespace Program.Agree

variable {p q : Program} {names : List Text} (h : Agree names p q)
include h

theorem find? {name : Text} (hname : p.Mentions names name) :
    Option.Rel (Method.Twin p q) (p.find? name) (q.find? name) := by
  have hrel := h name hname
  cases hp : p.find? name <;> cases hq : q.find? name <;> rw [hp, hq] at hrel <;> cases hrel
  · exact .none
  · exact .some ⟨‹_›, mem_of_find? hp, mem_of_find? hq⟩

theorem resolve? {m : Method} (hm : p.Reaches names m) {n n' : Node} (hn : n ∈ m.callSites)
    (hnn : n.Alike n') : Option.Rel (Method.Twin p q) (p.resolve? n) (q.resolve? n') := by
  unfold Program.resolve?
  rw [← hnn.action]
  cases hc : n.action.callee? with
  | none => exact .none
  | some name =>
      refine h.find? (.inr ⟨m, hm, ?_⟩)
      obtain ⟨i, s, hs, rfl⟩ := Method.mem_stmtNodes_iff.mp (List.mem_filter.mp hn).1
      exact ⟨s, List.mem_of_getElem? hs, hc⟩

theorem callees {m m' : Method} (hm : p.Reaches names m) (hmm : m.Twin p q m') :
    Forall₂ (Method.Twin p q) (p.callees m) (q.callees m') :=
  List.rel_filterMap (fun _ _ hn => h.resolve? hm hn.2 hn.1.alike) hmm.callSites

theorem entryMethods {found found' : List Method} {ns : List Text} (hns : ∀ n ∈ ns, n ∈ names)
    (hfound : Forall₂ (Method.Twin p q) found found') :
    SameOutcome (Forall₂ (Method.Twin p q)) (CallGraph.entryMethods p found ns)
      (CallGraph.entryMethods q found' ns) := by
  induction ns generalizing found found' with
  | nil => exact .ok hfound
  | cons name rest ih =>
      rw [List.forall_mem_cons] at hns
      have hrel := h.find? (.inl hns.1)
      unfold CallGraph.entryMethods
      cases hp : p.find? name <;> cases hq : q.find? name <;> rw [hp, hq] at hrel <;> cases hrel
      case none.none.none => exact .error _
      case some.some.some m m' hm =>
        refine ih hns.2 ?_
        have hmem := List.rel_mem (Method.Twin.biUnique p q) hm hfound
        by_cases hin : m ∈ found
        · rw [if_pos hin, if_pos (hmem.mp hin)]
          exact hfound
        · rw [if_neg hin, if_neg (mt hmem.mpr hin)]
          exact List.rel_append hfound (.cons hm .nil)

/-- Twin searches find twins, as long as what is queued in the first is reachable. -/
theorem explore {s s' : CallGraph.Search} (hp : s.graph.program = p) (hq : s'.graph.program = q)
    (hs : s.frontier.Sound p) (hreach : ∀ m ∈ s.graph.reachable, p.Reaches names m)
    (hf : s.frontier.Twin p q s'.frontier) :
    Forall₂ (Method.Twin p q) (CallGraph.explore s).reachable (CallGraph.explore s').reachable := by
  fun_induction CallGraph.explore s generalizing s' with
  | case1 g =>
      obtain ⟨g', queue'⟩ := s'
      obtain rfl : queue' = [] := List.forall₂_nil_left_iff.mp hf.queue
      rw [CallGraph.explore]
      exact hf.reached
  | case2 g m rest ih =>
      obtain ⟨g', queue'⟩ := s'
      obtain ⟨m', rest', hm, hrest, rfl⟩ : ∃ m' rest', m.Twin p q m' ∧
          Forall₂ (Method.Twin p q) rest rest' ∧ queue' = m' :: rest' :=
        List.forall₂_cons_left_iff.mp hf.queue
      have hmr : p.Reaches names m := hreach m (hs.queued m List.mem_cons_self)
      have hstep := CallGraph.Search.frontier_step hp m rest
      rw [CallGraph.explore]
      refine ih ((CallGraph.Search.kin_foldl_lookAt _ _).1.trans hp)
        ((CallGraph.Search.kin_foldl_lookAt _ _).1.trans hq) ?_ ?_ ?_
      · rw [hstep]
        exact Frontier.Sound.step hs
      · show ∀ c ∈ (CallGraph.Search.frontier _).reached, p.Reaches names c
        rw [hstep]
        intro c hc
        rcases Frontier.mem_of_mem_reach _ _ hc with hold | ⟨hcall, -⟩
        · exact hreach c hold
        · exact hmr.call hcall
      · rw [hstep, CallGraph.Search.frontier_step hq m' rest']
        exact Frontier.Twin.reach (h.callees hmr hm) ⟨hrest, hf.reached⟩

theorem reachable :
    SameOutcome (fun g g' => Forall₂ (Method.Twin p q) g.entries g'.entries ∧
      Forall₂ (Method.Twin p q) g.reachable g'.reachable)
      (CallGraph.build p names) (CallGraph.build q names) := by
  refine (h.entryMethods (fun _ hn => hn) .nil).attach.bind ?_
  rintro ms ms' ⟨hms, hentries, -⟩
  have hdef : ∀ m ∈ ms, p.Reaches names m ∧ m ∈ p.methods := by
    intro m hm
    have hnamed := ((CallGraph.mem_entryMethods_iff hentries).mp hm).resolve_left List.not_mem_nil
    obtain ⟨name, hname, hfind⟩ := hnamed
    exact ⟨.entry hname hfind, mem_of_find? hfind⟩
  refine .ok ⟨?_, h.explore (CallGraph.program_start p ms) (CallGraph.program_start q ms') ?_ ?_ ?_⟩
  · rwa [CallGraph.entries_explore_start p ms, CallGraph.entries_explore_start q ms']
  · rw [CallGraph.frontier_start]
    exact (Frontier.sound_nil p).reach fun m hm => (hdef m hm).2
  · show ∀ m ∈ (CallGraph.start p ms).frontier.reached, p.Reaches names m
    rw [CallGraph.frontier_start]
    intro m hm
    exact (hdef m ((Frontier.mem_of_mem_reach _ _ hm).resolve_left List.not_mem_nil).1).1
  · rw [CallGraph.frontier_start, CallGraph.frontier_start]
    exact Frontier.Twin.reach hms ⟨.nil, .nil⟩

theorem callGraph :
    SameOutcome (CallGraph.Twin p q) (CallGraph.build p names) (CallGraph.build q names) := by
  refine h.reachable.attach.imp ?_
  rintro g g' ⟨⟨hentries, hreach⟩, hg, hg'⟩
  have hb := CallGraph.built_of_build hg
  have hb' := CallGraph.built_of_build hg'
  have hsites : Forall₂ (fun n n' => n.Twin p q n' ∧
      Option.Rel (Method.Twin p q) (g.program.resolve? n) (g'.program.resolve? n'))
      g.sites g'.sites := by
    rw [hb.program, hb'.program]
    refine List.rel_flatMap (forall₂_mem hreach) ?_
    rintro m m' ⟨hm, hmem, -⟩
    have hmr := (CallGraph.mem_reachable_iff hg).mp hmem
    exact hm.callSites.imp fun n n' hn => ⟨hn.1, h.resolve? hmr hn.2 hn.1.alike⟩
  refine ⟨hentries, hreach, ?_, ?_⟩
  · rw [hb.holds.edges, hb'.holds.edges]
    refine List.rel_filterMap ?_ hsites
    rintro n n' ⟨hn, hres⟩
    exact option_rel_map hres fun _ _ hm => ⟨hn, hm⟩
  · rw [hb.holds.unresolved, hb'.holds.unresolved]
    refine (List.rel_filter ?_ hsites).imp fun _ _ hn => hn.1
    rintro n n' ⟨-, hres⟩
    simp only [option_rel_isNone hres]

end Program.Agree

/-! ## Supergraphs -/

/-- Kinds of edges that name twins. -/
inductive EdgeKind.Twin (p q : Program) : EdgeKind → EdgeKind → Prop where
  | normal : Twin p q .normal .normal
  | callToReturn : Twin p q .callToReturn .callToReturn
  | call {c c' : Method} (callee : c.Twin p q c') : Twin p q (.call c) (.call c')
  | ret {n n' : Node} {c c' : Method} (site : n.Twin p q n') (callee : c.Twin p q c') :
      Twin p q (.ret n c) (.ret n' c')

/-- Edges of the same kind that run between twins. -/
structure Edge.Twin (p q : Program) (e e' : Edge) : Prop where
  source : e.source.Twin p q e'.source
  target : e.target.Twin p q e'.target
  kind : e.kind.Twin p q e'.kind

/-- Supergraphs that list twins in the same order. -/
structure Supergraph.Twin (p q : Program) (g g' : Supergraph) : Prop where
  entryMethods : Forall₂ (Method.Twin p q) g.entryMethods g'.entryMethods
  methods : Forall₂ (Method.Twin p q) g.methods g'.methods
  nodes : Forall₂ (Node.Twin p q) g.nodes g'.nodes
  edges : Forall₂ (Edge.Twin p q) g.edges g'.edges

theorem FlowEdge.Twin.lift {p q : Program} {e e' : FlowEdge} (h : e.Twin p q e') :
    e.lift.Twin p q e'.lift := by
  refine ⟨h.source, h.target, ?_⟩
  unfold FlowEdge.lift
  rw [← h.source.alike.action]
  cases e.source.action.isCall
  · exact .normal
  · exact .callToReturn

theorem CallEdge.Twin.lift {p q : Program} {e e' : CallEdge} (h : e.Twin p q e')
    {rs rs' : List Node} (hrs : Forall₂ (Node.Twin p q) rs rs') :
    Forall₂ (Edge.Twin p q) (e.lift rs) (e'.lift rs') :=
  .cons ⟨h.site, h.callee.entry, .call h.callee⟩
    (List.rel_map (fun _ _ hr => ⟨h.callee.exit, hr, .ret h.site h.callee⟩) hrs)

theorem Supergraph.twin_of_built {p q : Program} {g g' : Supergraph} (hg : Built p g)
    (hg' : Built q g') (hcalls : g.calls.Twin p q g'.calls)
    (hflows : Forall₂ (ControlFlow.Twin p q) g.flows g'.flows) : g.Twin p q g' := by
  have hinside : Forall₂ (FlowEdge.Twin p q) (g.flows.flatMap (·.edges))
      (g'.flows.flatMap (·.edges)) := List.rel_flatMap hflows fun _ _ hc => hc.edges
  refine ⟨hcalls.entries, hcalls.reachable, ?_, ?_⟩
  · rw [hg.nodes_eq, hg'.nodes_eq]
    exact List.rel_flatMap hcalls.reachable fun _ _ hm => hm.nodes
  · rw [hg.edges_eq_lifted, hg'.edges_eq_lifted]
    refine List.rel_append (List.rel_map (fun _ _ he => he.lift) hinside)
      (List.rel_flatMap hcalls.edges fun e e' he => he.lift ?_)
    -- Where the caller goes on is found by comparing nodes.
    refine List.rel_map (fun _ _ hf => hf.target) (List.rel_filter (fun f f' hf => ?_) hinside)
    simpa using Relator.rel_eq (Node.Twin.biUnique p q) hf.source he.site

theorem Program.Agree.supergraph {p q : Program} {names : List Text} (h : Agree names p q) :
    SameOutcome (Supergraph.Twin p q) (Supergraph.build p names) (Supergraph.build q names) := by
  have hparts : SameOutcome (fun g g' => g.calls.Twin p q g'.calls ∧
      Forall₂ (ControlFlow.Twin p q) g.flows g'.flows)
      (Supergraph.build p names) (Supergraph.build q names) :=
    h.callGraph.bind fun _ _ hcalls =>
      (SameOutcome.mapM hcalls.reachable fun _ _ hm => hm.controlFlow).bind fun _ _ hflows =>
        .ok (by simpa only [Supergraph.calls_assemble, Supergraph.flows_assemble]
          using ⟨hcalls, hflows⟩)
  refine hparts.attach.imp ?_
  rintro g g' ⟨⟨hcalls, hflows⟩, hg, hg'⟩
  exact Supergraph.twin_of_built (Supergraph.built_of_build hg) (Supergraph.built_of_build hg')
    hcalls hflows

end ConstFlow
