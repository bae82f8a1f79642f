import ConstFlow.Proofs.LoweredMethods
import ConstFlow.Proofs.Positions
import ConstFlow.Proofs.Scoping

/-!
# Accepted texts can be built

Building a graph relies on much that it does not check: that a method only touches variables of its
own, that its labels lie inside its body and its jumps go to labels. A text that is accepted has all
of this (`Accepted`), because every block that an item is lowered to has it, and so the supergraph
can be built from any methods that the text defines.
-/

namespace ConstFlow

namespace Source

/-- Blocks that have each item on its own line have their lines in the order of the items. -/
theorem pairwise_lines {text : Text} {items : List Item} {blocks : List (List Instr)}
    (h : List.Forall₂ (LinedUp text) items blocks)
    (hitems : (items.map Item.offset).Pairwise (· ≤ ·)) :
    (blocks.flatten.map Instr.line).Pairwise (· ≤ ·) := by
  induction h with
  | nil => exact .nil
  | @cons i block items blocks hblock hrest ih =>
      rw [List.map_cons, List.pairwise_cons] at hitems
      rw [List.flatten_cons, List.map_append, List.pairwise_append]
      refine ⟨?_, ih hitems.2, ?_⟩
      · refine List.pairwise_map.mpr (List.pairwise_of_forall_mem_list fun s hs t ht => ?_)
        rw [hblock s hs, hblock t ht]
      · intro a ha b hb
        obtain ⟨s, hs, rfl⟩ := List.mem_map.mp ha
        obtain ⟨t, ht, rfl⟩ := List.mem_map.mp hb
        obtain ⟨block', hblock', ht⟩ := List.mem_flatten.mp ht
        obtain ⟨i', hi', hlines⟩ := exists_left_of_mem hrest hblock'
        rw [hblock s hs, hlines t ht]
        exact Int.ofNat_le.mpr (Text.lineAt_mono text (hitems.1 _ (List.mem_map_of_mem hi')))

/-! ## Methods -/

section

variable {text : Text} {d : Decl}

theorem isLocal_method (text : Text) (d : Decl) : (d.method text).IsLocal := by
  intro x hx
  rcases List.mem_append.mp hx with hx | hx
  · obtain ⟨n, -, rfl⟩ := List.mem_map.mp hx
    rfl
  · obtain ⟨s, hs, hx⟩ := List.mem_flatMap.mp hx
    obtain ⟨i, -, k, -, ha⟩ := exists_item_of_mem_body hs
    rcases mentioned_lowerStatement ha hx with ⟨n, -, rfl⟩ | ⟨j, -, -, rfl⟩ <;> rfl

/-- The block of an item lies inside the body. -/
theorem start_lt {blocks : List (List Instr)} {j : Nat} {block : List Instr}
    (h : blocks[j]? = some block) (hne : block ≠ []) : start blocks j < blocks.flatten.length := by
  obtain ⟨hj, -⟩ := List.getElem?_eq_some_iff.mp h
  have hpos : 0 < block.length := List.length_pos_iff.mpr hne
  have hle : start blocks (j + 1) ≤ start blocks blocks.length := start_mono hj
  rw [start_next h, start_length] at hle
  omega

theorem Decl.Passes.label_lt (h : d.Passes text) {l : Text} {q : Nat}
    (hl : (l, q) ∈ (d.method text).labels.entries) : q < (d.method text).body.length := by
  rw [h.entries_labels] at hl
  obtain ⟨j, i, block, -, hb, -, rfl⟩ := mem_labelPositions_iff.mp hl
  rw [Nat.zero_add, d.length_body text]
  exact start_lt hb (d.blocks_ne_nil text block (List.mem_of_getElem? hb))

theorem Decl.Passes.params_nodup (h : d.Passes text) : (d.method text).params.Nodup := by
  refine List.Nodup.of_map Var.name ?_
  have hnames : (d.method text).params.map Var.name = d.params.map Name.text := by
    simp [Decl.method, Method.of, List.map_map]
  exact hnames ▸ h.params

end

/-- The statements of all methods have their lines in the order of the text. -/
theorem pairwise_lines_methods {text : Text} {ds : List Decl} (h : readDecls text = .ok ds) :
    (((ds.map (Decl.method text)).flatMap Method.body).map Stmt.line).Pairwise (· ≤ ·) := by
  have hblocks : List.Forall₂ (LinedUp text) (ds.flatMap Decl.items)
      (ds.flatMap (Decl.blocks text)) := by
    clear h
    induction ds with
    | nil => exact .nil
    | cons d ds ih =>
        exact List.rel_append ((d.lowersTo_blocks text).imp fun _ _ h => h.linedUp) ih
  have hlines : ((ds.map (Decl.method text)).flatMap Method.body).map Stmt.line =
      (ds.flatMap (Decl.blocks text)).flatten.map Instr.line := by
    have hbody : ∀ d : Decl, (d.method text).body.map Stmt.line =
        (d.blocks text).flatten.map Instr.line := by
      intro d
      rw [← d.map_instr_body text, List.map_map]
      rfl
    simp only [List.flatMap_map, List.map_flatMap, hbody, List.flatten_eq_flatMap,
      List.flatMap_assoc]
  rw [hlines]
  refine pairwise_lines hblocks ?_
  rw [List.map_flatMap]
  exact (of_readDecls h).1

end Source

/-! ## Graphs -/

theorem Method.exists_edgesFrom {m : Method} {s : Stmt}
    (h : ∀ l ∈ s.action.jumpLabel?, l ∈ m.labels.keys) (i : Nat) :
    ∃ es, m.edgesFrom i s = .ok es := by
  have hlabel : ∀ l ∈ s.action.jumpLabel?, ∃ t, m.labelTarget l = .ok t := by
    intro l hl
    cases hget : m.labels.get? l with
    | none => exact absurd (h l hl) ((m.labels.get?_eq_none_iff l).mp hget)
    | some t => exact ⟨t, by rw [Method.labelTarget, hget]⟩
  unfold Method.edgesFrom
  split
  · exact ⟨_, rfl⟩
  · rename_i l ha
    obtain ⟨t, ht⟩ := hlabel l (by rw [ha]; rfl)
    exact ⟨_, by rw [ht]; rfl⟩
  · rename_i op x y l ha
    obtain ⟨t, ht⟩ := hlabel l (by rw [ha]; rfl)
    exact ⟨_, by rw [ht]; rfl⟩
  · exact ⟨_, rfl⟩

/-- Control flow fails for want of a label only. -/
theorem ControlFlow.exists_build {m : Method}
    (h : ∀ s ∈ m.body, ∀ l ∈ s.action.jumpLabel?, l ∈ m.labels.keys) :
    ∃ c, build m = .ok c := by
  have hbody : ∀ ss : List Stmt, (∀ s ∈ ss, s ∈ m.body) → ∀ i, ∃ es, m.bodyEdges i ss = .ok es := by
    intro ss
    induction ss with
    | nil => exact fun _ i => ⟨[], rfl⟩
    | cons s ss ih =>
        intro hss i
        rw [List.forall_mem_cons] at hss
        obtain ⟨es, hes⟩ := Method.exists_edgesFrom (h s hss.1) i
        obtain ⟨more, hmore⟩ := ih hss.2 (i + 1)
        exact ⟨es ++ more, by rw [Method.bodyEdges, hes, hmore]; rfl⟩
  obtain ⟨es, hes⟩ := hbody m.body (fun _ hs => hs) 0
  exact ⟨_, by rw [build_eq, hes]; rfl⟩

section

variable {p : Program} {names : List Text}

theorem Program.exists_find?_iff {name : Text} :
    (∃ m, p.find? name = some m) ↔ name ∈ p.methods.map Method.name := by
  rw [← Option.isSome_iff_exists, Program.find?, List.find?_isSome, List.mem_map]
  simp only [decide_eq_true_eq]

/-- The first name that is not defined is the one that is complained about. -/
theorem CallGraph.entryMethods_undefined {name : Text} {after : List Text}
    (hname : name ∉ p.methods.map Method.name) :
    ∀ {before : List Text} {found : List Method}, (∀ n ∈ before, n ∈ p.methods.map Method.name) →
      entryMethods p found (before ++ name :: after) = .error (.undefinedEntry name)
  | [], found, _ => by
      cases hfind : p.find? name with
      | none => rw [List.nil_append, entryMethods, hfind]
      | some m => exact absurd (Program.exists_find?_iff.mp ⟨m, hfind⟩) hname
  | n :: before, found, hbefore => by
      rw [List.forall_mem_cons] at hbefore
      obtain ⟨m, hm⟩ := Program.exists_find?_iff.mpr hbefore.1
      rw [List.cons_append, entryMethods, hm]
      exact entryMethods_undefined hname hbefore.2

theorem Supergraph.build_undefined {name : Text} {before after : List Text}
    (hbefore : ∀ n ∈ before, n ∈ p.methods.map Method.name)
    (hname : name ∉ p.methods.map Method.name) :
    build p (before ++ name :: after) = .error (.undefinedEntry name) := by
  rw [build, CallGraph.build, CallGraph.entryMethods_undefined hname hbefore]
  rfl

theorem Supergraph.exists_build_iff
    (h : ∀ m ∈ p.methods, ∀ s ∈ m.body, ∀ l ∈ s.action.jumpLabel?, l ∈ m.labels.keys) :
    (∃ g, build p names = .ok g) ↔ ∀ name ∈ names, name ∈ p.methods.map Method.name := by
  simp only [← Program.exists_find?_iff]
  rw [← CallGraph.exists_build_iff]
  constructor
  · rintro ⟨g, hg⟩
    exact ⟨g.calls, calls_of_build hg⟩
  · rintro ⟨calls, hcalls⟩
    refine exists_build_of_flows hcalls fun m hm => ControlFlow.exists_build (h m ?_)
    exact (CallGraph.built_of_build hcalls).reachable.defined m hm

end

/-! ## Accepted texts -/

/-- What a method is like that stands in an accepted text of so many lines. -/
structure Method.Accepted (lines : Nat) (m : Method) : Prop where
  params : m.params.Nodup
  /-- Every statement knows the method that it is in, and its position there. -/
  places : m.stmtNodes.map (fun n => (n.method, n.index)) =
    (List.range m.body.length).map fun i : Nat => (m.name, (i : Int))
  lines : ∀ s ∈ m.body, 1 ≤ s.line ∧ s.line ≤ lines
  /-- All parameters, and all variables that are assigned or read, belong to the method. -/
  vars : m.IsLocal
  labels : ∀ l i, m.labels.get? l = some i → i < m.body.length
  targets : ∀ s ∈ m.body, ∀ l ∈ s.action.jumpLabel?, l ∈ m.labels.keys

/-- What a program is like that an accepted text is read as. -/
structure Program.Accepted (text : Text) (p : Program) : Prop where
  names : (p.methods.map Method.name).Nodup
  methods : ∀ m ∈ p.methods, m.Accepted (text.count (.scalar '\n') + 1)
  /-- Lines never go down, also from one method to the next. -/
  lines : ((p.methods.flatMap Method.body).map Stmt.line).Pairwise (· ≤ ·)

theorem Method.map_stmtNodes (m : Method) :
    m.stmtNodes.map (fun n => (n.method, n.index)) =
      (List.range m.body.length).map fun i : Nat => (m.name, (i : Int)) := by
  have hplace := congrArg (List.map fun x : Text × Nat => (x.1, (x.2 : Int))) m.placed
  rw [List.map_map, List.map_map] at hplace
  rw [stmtNodes, List.map_map]
  refine Eq.trans (List.map_congr_left fun s _ => ?_) hplace
  simp [Stmt.node, Node.index]

theorem Source.Decl.Passes.accepted {text : Text} {d : Decl} (h : d.Passes text) :
    (d.method text).Accepted (text.count (.scalar '\n') + 1) where
  params := h.params_nodup
  places := (d.method text).map_stmtNodes
  lines := by
    intro s hs
    obtain ⟨i, -, k, hline, -⟩ := exists_item_of_mem_body hs
    rw [hline]
    exact ⟨Int.ofNat_le.mpr (Nat.succ_le_succ (Nat.zero_le _)),
      Int.ofNat_le.mpr (Text.lineAt_le text i.offset)⟩
  vars := isLocal_method text d
  labels := fun l i hl => h.label_lt (((d.method text).labels.mem_entries_iff l i).mpr hl)
  targets := h.targets

/-- **Whatever text is accepted can be built.** Its program is well formed, and a supergraph is
built from exactly those entry methods that it defines; otherwise the first one that it does not
define is complained about. -/
theorem parse_accepted {text file : Text} {p : Program} (h : Source.parse text file = .ok p) :
    p.Accepted text ∧
      (∀ names, (∃ g, Supergraph.build p names = .ok g) ↔
        ∀ name ∈ names, name ∈ p.methods.map Method.name) ∧
      ∀ before name after, (∀ n ∈ before, n ∈ p.methods.map Method.name) →
        name ∉ p.methods.map Method.name →
        Supergraph.build p (before ++ name :: after) = .error (.undefinedEntry name) := by
  obtain ⟨ds, hread, hmethods, hpass⟩ := Source.of_parse h
  have hmethod : ∀ m ∈ p.methods, m.Accepted (text.count (.scalar '\n') + 1) := by
    rw [hmethods]
    intro m hm
    obtain ⟨d, hd, rfl⟩ := List.mem_map.mp hm
    exact (hpass d hd).accepted
  refine ⟨⟨p.distinct, hmethod, hmethods ▸ Source.pairwise_lines_methods hread⟩, fun names => ?_,
    fun before name after => Supergraph.build_undefined⟩
  exact Supergraph.exists_build_iff fun m hm => (hmethod m hm).targets

theorem parse_accepted_sample :
    ∃ p, Source.parse Sample.counting "counting.ir" = .ok p ∧ p.Accepted Sample.counting ∧
      (∃ g, Supergraph.build p ["step", "main"] = .ok g) ∧
      Supergraph.build p ["main", "stop", "go"] = .error (.undefinedEntry "stop") := by
  obtain ⟨p, hp, hnames⟩ := Sample.parse_counting
  obtain ⟨haccepted, hbuild, hundefined⟩ := parse_accepted hp
  simp only [hnames] at hbuild hundefined
  exact ⟨p, hp, haccepted, (hbuild _).mpr (by decide),
    hundefined ["main"] "stop" ["go"] (by decide) (by decide)⟩

end ConstFlow
