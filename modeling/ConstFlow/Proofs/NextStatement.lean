import ConstFlow.Proofs.Accepted
import ConstFlow.Proofs.EdgeStructure

/-!
# Control flow is what comes next

The edges of a method, node by node. `Method.Leads` says where a statement leads, from the statement
alone; a graph that was built has for each statement the edges that this says, in the same order,
and no others (`outEdges_stmt`). Since the edges are made statement by statement, all of them
are those of the first node, then those of the second, and so on (`edges_eq_flatMap`).

A graph is not built for want of a label, and the label that is missing first is the one that is
complained about.
-/

namespace ConstFlow

namespace Method

variable {m : Method} {i : Nat} {s : Stmt} {es : List FlowEdge}

/-- The edges that leave a statement: to the exit from a return, to its label from a jump, to its
label and then to the next statement from a branch, and to the next statement from any other. -/
inductive Leads (m : Method) (i : Nat) (s : Stmt) : List FlowEdge → Prop where
  | ret {x : Option Var} (action : s.action = .ret x) :
      Leads m i s [⟨s.node, m.exit, .ret⟩]
  | jump {l : Text} {t : Nat} (action : s.action = .jump l) (label : m.labels.get? l = some t) :
      Leads m i s [⟨s.node, m.nodeAt t, .goto⟩]
  | branch {op : Operator} {x y : Var} {l : Text} {t : Nat} (action : s.action = .branch op x y l)
      (label : m.labels.get? l = some t) :
      Leads m i s [⟨s.node, m.nodeAt t, .branchTrue⟩, ⟨s.node, m.nodeAt (i + 1), .branchFalse⟩]
  | next (noReturn : ∀ x, s.action ≠ .ret x) (noJump : s.action.jumpLabel? = none) :
      Leads m i s [⟨s.node, m.nodeAt (i + 1), .fallThrough⟩]

theorem get?_of_labelTarget {l : Text} {t : Nat} (h : m.labelTarget l = .ok t) :
    m.labels.get? l = some t := by
  unfold labelTarget at h
  split at h
  · obtain rfl := Except.ok.inj h
    assumption
  · cases h

theorem leads_of_edgesFrom (h : m.edgesFrom i s = .ok es) : m.Leads i s es := by
  unfold edgesFrom at h
  split at h
  · rename_i ha
    obtain rfl := Except.ok.inj h
    exact .ret ha
  · rename_i ha
    obtain ⟨t, ht, h⟩ := except_bind_eq_ok h
    obtain rfl := Except.ok.inj h
    exact .jump ha (get?_of_labelTarget ht)
  · rename_i ha
    obtain ⟨t, ht, h⟩ := except_bind_eq_ok h
    obtain rfl := Except.ok.inj h
    exact .branch ha (get?_of_labelTarget ht)
  · rename_i hret hjump hbranch
    obtain rfl := Except.ok.inj h
    refine .next hret ?_
    cases ha : s.action with
    | jump l => exact absurd ha (hjump l)
    | branch op x y l => exact absurd ha (hbranch op x y l)
    | _ => rfl

theorem nodeAt_cases (m : Method) (i : Nat) :
    (∃ s, m.body[i]? = some s ∧ m.nodeAt i = s.node ∧ s.method = m.name ∧ s.index = i) ∨
      m.body.length ≤ i ∧ m.nodeAt i = m.exit := by
  unfold nodeAt
  split
  · rename_i hs
    exact Or.inl ⟨_, hs, rfl, place hs⟩
  · rename_i hnone
    exact Or.inr ⟨List.getElem?_eq_none_iff.mp hnone, rfl⟩

/-! ## Missing labels -/

theorem labelTarget_undefined {l : Text} (hl : l ∉ m.labels.keys) :
    m.labelTarget l = .error (.undefinedLabel m.name l) := by
  rw [labelTarget, (m.labels.get?_eq_none_iff l).mpr hl]

theorem edgesFrom_undefined {l : Text} (hl : l ∈ s.action.jumpLabel?) (hno : l ∉ m.labels.keys) :
    m.edgesFrom i s = .error (.undefinedLabel m.name l) := by
  have htarget := labelTarget_undefined hno
  unfold edgesFrom
  cases ha : s.action with
  | jump k =>
      rw [ha] at hl
      obtain rfl : k = l := Option.some.inj hl
      simp only [htarget]
      rfl
  | branch op x y k =>
      rw [ha] at hl
      obtain rfl : k = l := Option.some.inj hl
      simp only [htarget]
      rfl
  | _ => rw [ha] at hl; cases hl

theorem bodyEdges_undefined {l : Text} {after : List Stmt} (hl : l ∈ s.action.jumpLabel?)
    (hno : l ∉ m.labels.keys) :
    ∀ {before : List Stmt} {i : Nat},
      (∀ r ∈ before, ∀ k ∈ r.action.jumpLabel?, k ∈ m.labels.keys) →
        m.bodyEdges i (before ++ s :: after) = .error (.undefinedLabel m.name l)
  | [], i, _ => by
      rw [List.nil_append, bodyEdges, edgesFrom_undefined hl hno]
      rfl
  | r :: before, i, hbefore => by
      rw [List.forall_mem_cons] at hbefore
      obtain ⟨es, hes⟩ := exists_edgesFrom hbefore.1 i
      rw [List.cons_append, bodyEdges, hes, bodyEdges_undefined hl hno hbefore.2]
      rfl

/-- A statement of the body jumps to a label that the method lacks, and none before it does. -/
def FirstMissing (m : Method) (l : Text) : Prop :=
  ∃ before s after, m.body = before ++ s :: after ∧ l ∈ s.action.jumpLabel? ∧ l ∉ m.labels.keys ∧
    ∀ r ∈ before, ∀ k ∈ r.action.jumpLabel?, k ∈ m.labels.keys

theorem exists_firstMissing (h : ¬ ∀ s ∈ m.body, ∀ l ∈ s.action.jumpLabel?, l ∈ m.labels.keys) :
    ∃ l, m.FirstMissing l := by
  obtain ⟨before, s, after, hbody, hs, hbefore⟩ := exists_first_of_not_forall h
  simp only [not_forall] at hs
  obtain ⟨l, hl, hno⟩ := hs
  exact ⟨l, before, s, after, hbody, hl, hno, hbefore⟩

end Method

namespace ControlFlow

variable {m : Method}

theorem build_eq_error_iff {e : Graph.Error} :
    build m = .error e ↔ ∃ l, m.FirstMissing l ∧ e = .undefinedLabel m.name l := by
  have hmissing : ∀ l, m.FirstMissing l → build m = .error (.undefinedLabel m.name l) := by
    rintro l ⟨before, s, after, hbody, hl, hno, hbefore⟩
    rw [build_eq, hbody, Method.bodyEdges_undefined hl hno hbefore]
    rfl
  constructor
  · intro h
    have hsome : ¬ ∀ s ∈ m.body, ∀ l ∈ s.action.jumpLabel?, l ∈ m.labels.keys := by
      intro hall
      obtain ⟨g, hg⟩ := exists_build hall
      rw [hg] at h
      cases h
    obtain ⟨l, hl⟩ := Method.exists_firstMissing hsome
    exact ⟨l, hl, Except.error.inj (h.symm.trans (hmissing l hl))⟩
  · rintro ⟨l, hl, rfl⟩
    exact hmissing l hl

/-! ## Edges node by node -/

section

variable {g : ControlFlow} (h : build m = .ok g)
include h

theorem edgesFrom_of_build {i : Nat} {s : Stmt} (hs : m.body[i]? = some s) :
    m.edgesFrom i s = .ok (m.leaving i s) := by
  obtain ⟨body, hbody, -⟩ := of_build h
  exact (Method.bodyEdges_eq hbody).1 (s, i) (List.mem_zipIdx_iff_getElem?.mpr hs)

theorem outEdges_stmt {i : Nat} {s : Stmt} (hs : m.body[i]? = some s) :
    g.outEdges s.node = m.leaving i s := by
  obtain ⟨hedges, hleaving⟩ := edges_of_build h
  rw [(indexed_of_build h).out, hedges, Method.filter_flowEdges_of_stmt hleaving hs]

theorem mem_edges_cases {e : FlowEdge} (he : e ∈ g.edges) :
    e = ⟨m.entry, m.nodeAt 0, .entry⟩ ∨
      ∃ (i : Nat) (s : Stmt), m.body[i]? = some s ∧ e.source = s.node ∧ e.target.pos ≠ 0 := by
  obtain ⟨hedges, hleaving⟩ := edges_of_build h
  rw [hedges] at he
  rcases List.mem_cons.mp he with rfl | he
  · exact Or.inl rfl
  · obtain ⟨⟨s, i⟩, hmem, he⟩ := List.mem_flatMap.mp he
    have hstmt := hleaving _ hmem
    exact Or.inr ⟨i, s, List.mem_zipIdx_iff_getElem?.mp hmem, hstmt.source e he, hstmt.target e he⟩

theorem outEdges_entry : g.outEdges m.entry = [⟨m.entry, m.nodeAt 0, .entry⟩] := by
  obtain ⟨hedges, hleaving⟩ := edges_of_build h
  rw [(indexed_of_build h).out, hedges, Method.flowEdges, List.filter_cons_of_pos (by simp),
    List.cons_eq_cons]
  refine ⟨rfl, List.filter_eq_nil_iff.mpr fun e he => ?_⟩
  obtain ⟨⟨s, i⟩, hmem, he⟩ := List.mem_flatMap.mp he
  rw [(hleaving _ hmem).source e he]
  simp [Stmt.node, Method.entry]

theorem outEdges_exit : g.outEdges m.exit = [] := by
  rw [(indexed_of_build h).out]
  refine List.filter_eq_nil_iff.mpr fun e he => decide_eq_true_iff.not.mpr fun hsource => ?_
  -- Positions tell the exit from the entry and from every statement.
  rcases mem_edges_cases h he with rfl | ⟨i, s, hs, hstmt, -⟩
  · exact absurd (congrArg Node.pos hsource) (Nat.succ_ne_zero _).symm
  · obtain ⟨hi, -⟩ := List.getElem?_eq_some_iff.mp hs
    have hpos : i + 1 = m.body.length + 1 := by
      rw [← Method.pos_node hs, ← hstmt, hsource]
      rfl
    omega

theorem inEdges_entry : g.inEdges m.entry = [] := by
  rw [(indexed_of_build h).into]
  refine List.filter_eq_nil_iff.mpr fun e he => decide_eq_true_iff.not.mpr fun htarget => ?_
  rcases mem_edges_cases h he with rfl | ⟨i, s, -, -, hpos⟩
  · exact m.pos_nodeAt_ne_zero 0 (congrArg Node.pos htarget)
  · exact hpos (congrArg Node.pos htarget)

theorem edges_eq_flatMap : g.edges = g.nodes.flatMap g.outEdges := by
  have hnodes : g.nodes = m.entry :: m.stmtNodes ++ [m.exit] := by
    rw [nodes, method_of_build h]
    rfl
  have hstmts : m.stmtNodes = m.body.zipIdx.map fun s => s.1.node := by
    rw [Method.stmtNodes]
    conv_lhs => rw [← List.zipIdx_map_fst 0 m.body, List.map_map]
    rfl
  rw [hnodes, List.cons_append, List.flatMap_cons, List.flatMap_append, List.flatMap_singleton,
    outEdges_entry h, outEdges_exit h, (edges_of_build h).1, hstmts, List.flatMap_map,
    List.append_nil]
  refine congrArg (_ :: ·) (List.flatMap_congr fun s hs => ?_)
  exact (outEdges_stmt h (List.mem_zipIdx_iff_getElem?.mp hs)).symm

end

/-- The control flow of a method, edge by edge. -/
structure FollowsBody (m : Method) (g : ControlFlow) : Prop where
  nodes : g.nodes = m.entry :: m.stmtNodes ++ [m.exit]
  nodup : g.nodes.Nodup
  ends : ∀ e ∈ g.edges, e.source ∈ g.nodes ∧ e.target ∈ g.nodes
  entry : g.outEdges m.entry = [⟨m.entry, m.nodeAt 0, .entry⟩]
  body : ∀ i s, m.body[i]? = some s → m.Leads i s (g.outEdges s.node)
  /-- An index is that of a statement, or past the last one. -/
  places : ∀ i,
    (∃ s, m.body[i]? = some s ∧ m.nodeAt i = s.node ∧ s.method = m.name ∧ s.index = i) ∨
      m.body.length ≤ i ∧ m.nodeAt i = m.exit
  exit : g.outEdges m.exit = []
  noneBefore : g.inEdges m.entry = []
  count : g.edges.length = 1 + m.body.length + m.body.countP fun s => s.action.isBranch
  /-- Edges are made node by node. -/
  made : g.edges = g.nodes.flatMap g.outEdges
  /-- Every edge enters one node. -/
  entering : (g.nodes.flatMap g.inEdges).Perm g.edges
  outEdges : ∀ n, g.outEdges n = g.edges.filter fun e => e.source = n
  inEdges : ∀ n, g.inEdges n = g.edges.filter fun e => e.target = n

/-- **Control flow is what comes next.** A graph is built unless a statement jumps to a label that
the method lacks, and then the first such label is complained about. -/
theorem build_follows_body (m : Method) :
    (∀ e, build m = .error e ↔ ∃ l, m.FirstMissing l ∧ e = .undefinedLabel m.name l) ∧
      ∀ g, build m = .ok g → g.FollowsBody m := by
  refine ⟨fun e => build_eq_error_iff, fun g h => ?_⟩
  have hnodes : g.nodes = m.nodes := by rw [nodes, method_of_build h]
  have hnodup : g.nodes.Nodup := hnodes ▸ m.nodes_nodup
  have hends : ∀ e ∈ g.edges, e.source ∈ g.nodes ∧ e.target ∈ g.nodes := by
    intro e he
    rw [hnodes]
    exact mem_nodes_of_build h he
  obtain ⟨hedges, hleaving⟩ := edges_of_build h
  exact
    { nodes := hnodes
      nodup := hnodup
      ends := hends
      entry := outEdges_entry h
      body := fun i s hs =>
        (outEdges_stmt h hs).symm ▸ Method.leads_of_edgesFrom (edgesFrom_of_build h hs)
      places := m.nodeAt_cases
      exit := outEdges_exit h
      noneBefore := inEdges_entry h
      count := hedges ▸ Method.length_flowEdges hleaving
      made := edges_eq_flatMap h
      entering := by
        rw [List.flatMap_congr fun n _ => (indexed_of_build h).into n]
        exact flatMap_filter_perm hnodup fun e he => (hends e he).2
      outEdges := (indexed_of_build h).out
      inEdges := (indexed_of_build h).into }

end ControlFlow

namespace Sample

/-- A branch to the next statement, and two equal jumps past the end. -/
def turns : Method :=
  .of "turns" []
    [⟨1, .branch .lt ⟨"turns", "x"⟩ ⟨"turns", "x"⟩ "on"⟩,
      ⟨2, .jump "past"⟩,
      ⟨2, .jump "past"⟩]
    (.set (.set .empty "on" 1) "past" 9)

end Sample

/-- Without its second label the method has no graph. -/
theorem ControlFlow.build_follows_body_sample :
    let m := Sample.turns
    let n := { m with labels := .set .empty "on" 1 }
    (∃ g, build m = .ok g ∧ g.FollowsBody m ∧
      g.outEdges (m.nodeAt 0) =
        [⟨m.nodeAt 0, m.nodeAt 1, .branchTrue⟩, ⟨m.nodeAt 0, m.nodeAt 1, .branchFalse⟩] ∧
      g.inEdges m.exit = [⟨m.nodeAt 1, m.exit, .goto⟩, ⟨m.nodeAt 2, m.exit, .goto⟩] ∧
      m.nodeAt 1 ≠ m.nodeAt 2 ∧ g.edges.length = 1 + 3 + 1) ∧
    build n = .error (.undefinedLabel "turns" "past") := by
  intro m n
  constructor
  · have hok : build m = .ok (drawn m m.flowEdges) := rfl
    exact ⟨_, hok, (build_follows_body m).2 _ hok, by decide, by decide, by decide, by decide⟩
  · refine ((build_follows_body n).1 _).mpr ⟨"past", ?_, rfl⟩
    exact ⟨m.body.take 1, ⟨"turns", 1, 2, .jump "past"⟩, m.body.drop 2, rfl, rfl, by decide,
      by decide⟩

end ConstFlow
