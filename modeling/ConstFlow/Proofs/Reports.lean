import ConstFlow.Proofs.Accepted
import ConstFlow.Proofs.LiteralSpilling
import ConstFlow.Report

/-!
# What reports show

A report shows facts under the bare names of variables, leaves temporaries out unless they are asked
for, and knows a temporary by its first character. It is faithful all the same: a fact at a node
binds variables of one method only, so no two of them have the same name, and no name in a text
starts like a temporary.

`Fact.ShownBy` says what a record shows of a fact. The rest goes up from there: the row of a node,
the rows of a method, and the report. The listing for people is read off the same rows.
-/

namespace ConstFlow

/-! ## The order of names -/

namespace CodePoint

/-- No character has the number of a surrogate. -/
theorem code_scalar_ne_surrogate (c : Char) (i : Fin 2048) :
    (scalar c).code ≠ (surrogate i).code := by
  have hc : c.toNat < 0xd800 ∨ 0xdfff < c.toNat ∧ c.toNat < 0x110000 := c.valid
  have hi := i.isLt
  simp only [code]
  omega

theorem code_injective : Function.Injective code := by
  intro a b h
  cases a with
  | scalar c =>
      cases b with
      | scalar d => exact congrArg scalar (Char.toNat_inj.mp h)
      | surrogate i => exact absurd h (code_scalar_ne_surrogate c i)
  | surrogate i =>
      cases b with
      | scalar d => exact absurd h.symm (code_scalar_ne_surrogate d i)
      | surrogate j => exact congrArg surrogate (Fin.ext (Nat.add_left_cancel h))

instance : Std.Asymm (fun a b : CodePoint => a < b) := ⟨fun _ _ => Nat.lt_asymm⟩

instance : Trans (fun a b : CodePoint => a < b) (fun a b : CodePoint => a < b)
    (fun a b : CodePoint => a < b) := ⟨Nat.lt_trans⟩

instance : Std.Trichotomous (fun a b : CodePoint => a < b) :=
  ⟨fun _ _ h h' => code_injective (Nat.le_antisymm (Nat.not_lt.mp h') (Nat.not_lt.mp h))⟩

end CodePoint

/-- Of two different texts, one comes first. -/
theorem Text.lt_of_not_lt {a b : Text} (h : ¬ b < a) (hne : a ≠ b) : a < b := by
  by_contra hlt
  exact hne (List.le_antisymm h hlt)

theorem Text.not_lt_trans {a b c : Text} (h : ¬ b < a) (h' : ¬ c < b) : ¬ c < a := by
  intro hca
  by_cases hbc : b = c
  · exact h (hbc ▸ hca)
  · exact h (List.lt_trans (Text.lt_of_not_lt h' hbc) hca)

/-! ## The rows of a fact -/

namespace Fact

variable {f : Fact} {method : Text}

section

variable (h : ∀ x ∈ f.vars, x.method = method)
include h

/-- The variables of one method differ in their names. -/
theorem nodup_names : (f.entries.map fun b => b.1.name).Nodup := by
  have hvars : f.vars.Nodup := f.bindings.nodup
  have hnames : (f.vars.map Var.name).Nodup := by
    refine hvars.map_on fun x hx y hy hxy => ?_
    obtain ⟨mx, nx⟩ := x
    obtain ⟨my, ny⟩ := y
    simp only at hxy
    rw [hxy, show mx = my from (h _ hx).trans (h _ hy).symm]
  rw [vars, Assoc.keys, List.map_map] at hnames
  exact hnames

/-- So sorting by names leaves no choice. -/
theorem pairwise_sorted : f.sorted.Pairwise fun a b => a.1.name < b.1.name := by
  have hperm : f.sorted.Perm f.entries := List.mergeSort_perm _ _
  have hnames : (f.sorted.map fun b => b.1.name).Nodup :=
    (hperm.map _).nodup_iff.mpr (nodup_names h)
  have hsorted : f.sorted.Pairwise fun a b => (!(b.1.name < a.1.name : Bool)) = true := by
    refine List.pairwise_mergeSort (fun a b c hab hbc => ?_) (fun a b => ?_) _
    · simp only [Bool.not_eq_true', decide_eq_false_iff_not] at hab hbc ⊢
      exact Text.not_lt_trans hab hbc
    · simp only [Bool.or_eq_true, Bool.not_eq_true', decide_eq_false_iff_not]
      exact List.le_total a.1.name b.1.name
  refine hsorted.imp₂ (fun a b hab hne => ?_) (List.pairwise_map.mp hnames)
  exact Text.lt_of_not_lt (by simpa using hab) hne

/-- Names that are in order are distinct, so no row replaces another. -/
theorem rows_eq (temps : Bool) : rows (some f) temps =
    (f.sorted.filter fun b => temps || !b.1.isTemp).map fun b => (b.1.name, b.2) := by
  refine Assoc.entries_foldl_set _ Assoc.empty ?_
  rw [Assoc.empty, List.nil_append, List.map_map, List.Nodup, List.pairwise_map]
  refine List.Pairwise.imp ?_ ((pairwise_sorted h).sublist List.filter_sublist)
  intro a b hlt (heq : a.1.name = b.1.name)
  exact List.lt_irrefl _ (heq ▸ hlt)

/-- The names of the rows are in order. -/
theorem pairwise_rows (temps : Bool) : ((rows (some f) temps).map Prod.fst).Pairwise (· < ·) := by
  rw [rows_eq h, List.map_map, List.pairwise_map]
  exact (pairwise_sorted h).sublist List.filter_sublist

/-- There is a row for every bound variable that is shown. -/
theorem mem_rows_iff {temps : Bool} {k : Text} {v : Value} :
    (k, v) ∈ rows (some f) temps ↔
      f.get ⟨method, k⟩ = v ∧ v ≠ .unset ∧ (temps = true ∨ Var.isTemp ⟨method, k⟩ = false) := by
  have hperm : f.sorted.Perm f.entries := List.mergeSort_perm _ _
  rw [rows_eq h, List.mem_map]
  constructor
  · rintro ⟨⟨x, w⟩, hb, heq⟩
    obtain ⟨rfl, rfl⟩ := Prod.mk.inj heq
    obtain ⟨hmem, hshown⟩ := List.mem_filter.mp hb
    have hentry := hperm.mem_iff.mp hmem
    obtain rfl : x.method = method := h x (List.mem_map.mpr ⟨_, hentry, rfl⟩)
    obtain ⟨hget, hne⟩ := (f.mem_entries_iff x w).mp hentry
    exact ⟨hget, hne, by simpa using hshown⟩
  · rintro ⟨hget, hne, hshown⟩
    have hentry : (⟨method, k⟩, v) ∈ f.entries := (f.mem_entries_iff _ v).mpr ⟨hget, hne⟩
    refine ⟨(⟨method, k⟩, v), List.mem_filter.mpr ⟨hperm.mem_iff.mpr hentry, ?_⟩, rfl⟩
    simpa using hshown

end

end Fact

/-! ## Records of facts -/

/-- A record shows what a fact knows of those variables of a method that are to be shown. Their
names are in order, a constant is a number, and any other value is called `NAC`. -/
structure Fact.ShownBy (f : Fact) (method : Text) (shown : Text → Prop)
    (fields : List (Text × Json)) : Prop where
  increasing : (fields.map Prod.fst).Pairwise (· < ·)
  bound : ∀ k, k ∈ fields.map Prod.fst ↔ f.get ⟨method, k⟩ ≠ .unset ∧ shown k
  value : ∀ k j, (k, j) ∈ fields → (∃ c, f.get ⟨method, k⟩ = .const c ∧ j = .int c) ∨
    f.get ⟨method, k⟩ = .nac ∧ j = .text "NAC"

/-- The value that a record shows. -/
def Value.ofJson : Json → Value
  | .int c => .const c
  | .text t => if t = "NAC" then .nac else .unset
  | _ => .unset

/-- The fact that a record shows, if it shows all variables of a method. -/
def Fact.ofFields (method : Text) (fields : List (Text × Json)) : Fact :=
  .ofList (fields.map fun r => (⟨method, r.1⟩, .ofJson r.2))

namespace Fact

variable {f : Fact} {method : Text} {shown : Text → Prop} {fields : List (Text × Json)}

theorem shownBy_rows {temps : Bool} (h : ∀ x ∈ f.vars, x.method = method)
    (hshown : ∀ k, f.get ⟨method, k⟩ ≠ .unset →
      (shown k ↔ temps = true ∨ Var.isTemp ⟨method, k⟩ = false)) :
    f.ShownBy method shown ((rows (some f) temps).map fun r => (r.1, r.2.toJson)) where
  increasing := by
    rw [List.map_map]
    exact pairwise_rows h temps
  bound k := by
    rw [List.map_map]
    constructor
    · intro hk
      obtain ⟨⟨k, v⟩, hrow, rfl⟩ := List.mem_map.mp hk
      obtain ⟨rfl, hne, htemp⟩ := (mem_rows_iff h).mp hrow
      exact ⟨hne, (hshown k hne).mpr htemp⟩
    · rintro ⟨hne, hk⟩
      exact List.mem_map.mpr ⟨(k, _), (mem_rows_iff h).mpr ⟨rfl, hne, (hshown k hne).mp hk⟩, rfl⟩
  value k j hj := by
    obtain ⟨⟨k, v⟩, hrow, heq⟩ := List.mem_map.mp hj
    obtain ⟨rfl, rfl⟩ := Prod.mk.inj heq
    obtain ⟨hget, hne, -⟩ := (mem_rows_iff h).mp hrow
    cases v with
    | unset => exact absurd rfl hne
    | const c => exact Or.inl ⟨c, hget, rfl⟩
    | nac => exact Or.inr ⟨hget, rfl⟩

theorem get_ofList {es : List (Var × Value)} (hnodup : (es.map Prod.fst).Nodup)
    (hdefined : ∀ b ∈ es, b.2 ≠ .unset) (x : Var) :
    (ofList es).get x = (es.lookup x).getD .unset := by
  rw [ofList, foldl_update_eq es empty hdefined,
    get_foldl_update (fun v w => if v = .unset then w else v) (by simp) x es empty hnodup]
  cases es.lookup x with
  | none => rfl
  | some v => by_cases hv : v = .unset <;> simp [hv]

namespace ShownBy

variable (hs : f.ShownBy method shown fields)
include hs

/-- A field shows the value of its variable. -/
theorem ofJson_eq {k : Text} {j : Json} (hj : (k, j) ∈ fields) :
    Value.ofJson j = f.get ⟨method, k⟩ := by
  rcases hs.value k j hj with ⟨c, hget, rfl⟩ | ⟨hget, rfl⟩
  · rw [hget]
    rfl
  · rw [hget]
    rfl

/-- If all variables that are bound are shown, the record gives back the fact. -/
theorem agrees_ofFields (h : ∀ x ∈ f.vars, x.method = method)
    (hall : ∀ k, f.get ⟨method, k⟩ ≠ .unset → shown k) :
    (ofFields method fields).agrees f = true := by
  let es : List (Var × Value) := fields.map fun r => (⟨method, r.1⟩, .ofJson r.2)
  have hvars : es.map Prod.fst = (fields.map Prod.fst).map fun k => ⟨method, k⟩ := by
    simp [es, Function.comp_def]
  have hnodup : (es.map Prod.fst).Nodup := by
    rw [hvars, List.Nodup, List.pairwise_map]
    refine hs.increasing.imp fun hlt heq => ?_
    exact List.lt_irrefl _ ((Var.mk.inj heq).2 ▸ hlt)
  have hvalue : ∀ x v, (x, v) ∈ es → v = f.get x ∧ v ≠ .unset := by
    intro x v hmem
    obtain ⟨⟨k, j⟩, hj, heq⟩ := List.mem_map.mp hmem
    obtain ⟨rfl, rfl⟩ := Prod.mk.inj heq
    rw [hs.ofJson_eq hj]
    exact ⟨rfl, ((hs.bound k).mp (List.mem_map.mpr ⟨_, hj, rfl⟩)).1⟩
  refine agrees_iff.mpr (funext fun x => ?_)
  rw [ofFields, get_ofList hnodup fun b hb => (hvalue b.1 b.2 hb).2]
  -- What is not in the record is not bound: it would be a variable of the method, and shown.
  cases hlookup : es.lookup x with
  | some v =>
      exact (hvalue x v ((Assoc.mem_entries_iff ⟨es, hnodup⟩ x v).mpr hlookup)).1
  | none =>
      rw [Assoc.lookup_eq_none_iff, hvars] at hlookup
      by_contra hbound
      have hx : f.get x ≠ .unset := Ne.symm hbound
      obtain ⟨_, k⟩ := x
      obtain rfl := h _ ((f.mem_vars_iff _).mpr hx)
      exact hlookup (List.mem_map_of_mem ((hs.bound k).mpr ⟨hx, hall k hx⟩))

end ShownBy

end Fact

/-! ## Rows and lines -/

theorem Value.asText_toJson (v : Value) : v.toJson.asText = v.text := by
  cases v <;> rfl

namespace Json

/-- The fields of a record. -/
def fields : Json → List (Text × Json)
  | record fields => fields
  | _ => []

/-- The line of a listing that a row stands for. -/
def rowLine (row : Json) : Text :=
  let field (name : Text) : Json := (row.get? name).getD null
  let label : Text := "[" ++ (field "index").asText ++ "@L" ++ (field "line").asText ++ "] " ++
    (field "stmt").asText
  let shown : List Text := (field "out").fields.map fun r => r.1 ++ "=" ++ r.2.asText
  "  " ++ Table.padded 32 label ++ " \x7b" ++ Text.join ", " shown ++ "\x7d"

end Json

/-- The line of a node shows what its row does. -/
theorem Table.rowLine_nodeJson (t : Table) (temps : Bool) (n : Node) :
    (t.nodeJson temps n).rowLine = t.nodeLine temps n := by
  have hshown : ((Fact.rows (t.outFact? n) temps).map fun r => (r.1, r.2.toJson)).map
      (fun r => r.1 ++ ("=" : Text) ++ r.2.asText) =
      (Fact.rows (t.outFact? n) temps).map fun r => r.1 ++ ("=" : Text) ++ r.2.text := by
    simp [Function.comp_def, Value.asText_toJson]
  rw [nodeLine, ← hshown]
  rfl

/-! ## Variables of a text -/

namespace Source

variable {text : Text} {d : Decl}

/-- The variables of a method are those that the text names, and temporaries. -/
theorem Decl.cases_of_owns {x : Var} (h : (d.method text).Owns x) :
    (∃ n ∈ d.variables, x = ⟨d.name.text, n.text⟩) ∨ ∃ j, x = temp d.name.text j := by
  rcases h.2 with hx | ⟨s, hs, hx⟩
  · obtain ⟨n, hn, rfl⟩ := List.mem_map.mp hx
    exact Or.inl ⟨n, List.mem_append_left _ hn, rfl⟩
  · obtain ⟨i, hi, k, -, ha⟩ := exists_item_of_mem_body hs
    have hmentioned : x ∈ mentioned s.action :=
      List.mem_append_left _ (Option.mem_toList.mpr hx)
    rcases mentioned_lowerStatement ha hmentioned with ⟨n, hn, rfl⟩ | ⟨j, -, -, rfl⟩
    · exact Or.inl ⟨n, List.mem_append_right _ (List.mem_flatMap.mpr ⟨i, hi, hn⟩), rfl⟩
    · exact Or.inr ⟨j, rfl⟩

/-- The first character tells which. -/
theorem Decl.isTemp_eq_false_iff (hd : ∀ n ∈ d.variables, n.Lettered) {x : Var}
    (h : (d.method text).Owns x) :
    x.isTemp = false ↔ x.name ∈ d.variables.map Name.text := by
  constructor
  · intro hx
    rcases Decl.cases_of_owns h with ⟨n, hn, rfl⟩ | ⟨j, rfl⟩
    · exact List.mem_map_of_mem hn
    · rw [show (temp d.name.text j).isTemp = true from isTemp_temp d.name.text j] at hx
      cases hx
  · intro hx
    obtain ⟨n, hn, hname⟩ := List.mem_map.mp hx
    have hnot : Var.isTemp ⟨x.method, n.text⟩ = false := (hd n hn).not_isTemp x.method
    rwa [hname] at hnot

end Source

/-! ## Facts of a run -/

/-- Both facts of every node of a method are there, and bind variables of the method only. -/
def Table.OwnedBy (t : Table) (m : Method) : Prop :=
  ∀ n ∈ m.nodes, ∃ before after, t.inFact? n = some before ∧ t.outFact? n = some after ∧
    (∀ x ∈ before.vars, m.Owns x) ∧ ∀ x ∈ after.vars, m.Owns x

theorem solve_ownedBy {p : Program} {names : List Text} {g : Supergraph}
    (h : Supergraph.build p names = .ok g) (hlocal : ∀ m ∈ p.methods, m.IsLocal) (s : Settings)
    (noted : List Mismatch) {m : Method} (hm : m ∈ g.methods) :
    (solve g s noted).run.table.OwnedBy m := by
  intro n hn
  have hb := Supergraph.built_of_build h
  have hg := hb.wellFormed
  have hmethods : ∀ m ∈ g.methods, m.IsLocal := fun m hm =>
    hlocal m (hb.calls.reachable.defined m hm)
  have hbegin := Run.begin_ready noted hg (Table.start_ready hg)
  have hrun := Run.after_budget g s noted (.start g)
  have hscoped : (solve g s noted).run.table.Scoped g := by
    rw [solve, hrun]
    exact (hb.scoped_takesIn hmethods).after hg hbegin (hb.scoped_start hmethods) _
  have hready : (solve g s noted).run.Ready g := by
    rw [solve, hrun]
    exact Run.after_ready hg _ hbegin
  have hnode : n ∈ g.nodes := hb.mem_nodes_iff.mpr ⟨m, hm, hn⟩
  have howns : ∀ f, (solve g s noted).run.table.inFact? n = some f ∨
      (solve g s noted).run.table.outFact? n = some f → ∀ x ∈ f.vars, m.Owns x := by
    intro f hf
    obtain ⟨m', hm', hn', hvars⟩ := hscoped n f hf
    obtain rfl := hb.eq_of_mem_nodes hm hm' hn hn'
    exact hvars
  have hin := hready.table.inFact?_eq hnode
  have hout := hready.table.outFact?_eq hnode
  exact ⟨_, _, hin, hout, howns _ (Or.inl hin), howns _ (Or.inr hout)⟩

/-! ## Reports -/

/-- The names that are shown of a method: those in the text, or all of them. -/
def Source.Decl.Shows (d : Decl) (temps : Bool) (k : Text) : Prop :=
  k ∈ d.variables.map Name.text ∨ temps = true

namespace Table

/-- The row of a node of a method. It shows both facts of the node, and if temporaries are asked
for, the facts can be had back from it. -/
def RowOf (t : Table) (d : Source.Decl) (temps : Bool) (n : Node) (row : Json) : Prop :=
  ∃ before after ins outs, t.inFact? n = some before ∧ t.outFact? n = some after ∧
    row = .record [("index", .int n.index), ("line", .int n.line), ("stmt", .text n.action.text),
      ("in", .record ins), ("out", .record outs)] ∧
    before.ShownBy d.name.text (d.Shows temps) ins ∧
    after.ShownBy d.name.text (d.Shows temps) outs ∧
    (temps = true → (Fact.ofFields d.name.text ins).agrees before = true ∧
      (Fact.ofFields d.name.text outs).agrees after = true)

/-- The part of a report about a method: a row for every node, in order. The listing has the same
rows as lines. -/
def PartOf (t : Table) (d : Source.Decl) (temps : Bool) (m : Method) (part : Text × Json) : Prop :=
  ∃ rows, part = (m.name, .list rows) ∧ List.Forall₂ (t.RowOf d temps) m.nodes rows ∧
    t.methodLines temps m =
      [] :: ("--- Method: " ++ m.signature ++ " ---" : Text) :: rows.map Json.rowLine

end Table

section

variable {text : Text} {d : Source.Decl}

theorem Source.Decl.shownBy_rows (hd : ∀ n ∈ d.variables, n.Lettered) {f : Fact}
    (h : ∀ x ∈ f.vars, (d.method text).Owns x) (temps : Bool) :
    f.ShownBy d.name.text (d.Shows temps)
      ((Fact.rows (some f) temps).map fun r => (r.1, r.2.toJson)) := by
  refine Fact.shownBy_rows (fun x hx => (h x hx).1) fun k hk => ?_
  have howns := h ⟨d.name.text, k⟩ ((f.mem_vars_iff _).mpr hk)
  rw [Source.Decl.isTemp_eq_false_iff hd howns]
  exact or_comm

variable {t : Table} (hd : ∀ n ∈ d.variables, n.Lettered) (ht : t.OwnedBy (d.method text))
include hd ht

theorem Table.rowOf_nodeJson (temps : Bool) {n : Node} (hn : n ∈ (d.method text).nodes) :
    t.RowOf d temps n (t.nodeJson temps n) := by
  obtain ⟨before, after, hin, hout, hbefore, hafter⟩ := ht n hn
  have hins := Source.Decl.shownBy_rows hd hbefore temps
  have houts := Source.Decl.shownBy_rows hd hafter temps
  refine ⟨before, after, _, _, hin, hout, ?_, hins, houts, fun htemps => ⟨?_, ?_⟩⟩
  · rw [nodeJson, hin, hout]
    rfl
  · exact hins.agrees_ofFields (fun x hx => (hbefore x hx).1) fun _ _ => Or.inr htemps
  · exact houts.agrees_ofFields (fun x hx => (hafter x hx).1) fun _ _ => Or.inr htemps

theorem Table.partOf_method (temps : Bool) :
    t.PartOf d temps (d.method text)
      ((d.method text).name, .list ((d.method text).nodes.map (t.nodeJson temps))) := by
  refine ⟨_, rfl, ?_, ?_⟩
  · rw [List.forall₂_map_right_iff, List.forall₂_same]
    exact fun n hn => rowOf_nodeJson hd ht temps hn
  · rw [methodLines, List.map_map]
    simp only [Function.comp_def, rowLine_nodeJson]

end

theorem ReportOptions.select_eq (o : ReportOptions) (g : Supergraph) :
    o.select g = g.methods.filter fun m => o.methods = [] ∨ m.name ∈ o.methods := by
  unfold select
  split
  · rename_i hempty
    simp [List.isEmpty_iff.mp hempty]
  · rename_i hsome
    simp [List.isEmpty_iff.not.mp hsome]

/-- A listing is made of the lines of the selected methods, between three lines at its head and two
at its foot. -/
theorem Table.exists_listing_eq (t : Table) (g : Supergraph) (o : ReportOptions) :
    ∃ head foot : List Text, head.length = 3 ∧ foot.length = 2 ∧
      t.listing g o = (head ++ (o.select g).flatMap (t.methodLines o.temps) ++ foot).flatMap
        fun line => line ++ Text.ofString "\n" := by
  let head : List Text :=
    ["=== " ++ t.analysis ++ " ===", "Converged: " ++ (if t.converged then "True" else "False"),
      "Iterations: " ++ toString t.iterations]
  refine ⟨head, [[], List.replicate 40 (.scalar '=')], rfl, rfl, ?_⟩
  rw [listing, listingLines, List.flatten_cons, List.flatten_cons, List.flatten_singleton,
    ← List.append_assoc]

/-- **Reports lose and invent nothing.** Of an accepted text and defined entries, a report has a
part for every reachable method that is selected, in the order of discovery. A part has a row for
every node, in order; each row shows just what the facts of its node know of the variables that are
shown. The listing has a line for every row, with the same names and values. -/
theorem reports_lose_nothing {text file : Text} {p : Program} (h : Source.parse text file = .ok p)
    {names : List Text} (hnames : ∀ name ∈ names, name ∈ p.methods.map Method.name) :
    ∃ ds g, Source.readDecls text = .ok ds ∧ Supergraph.build p names = .ok g ∧
      CallGraph.build p names = .ok g.calls ∧ (∀ m, m ∈ g.methods ↔ p.Reaches names m) ∧
      ∀ (s : Settings) (noted : List Mismatch) (o : ReportOptions),
        let t := (solve g s noted).run.table
        let selected := g.methods.filter fun m => o.methods = [] ∨ m.name ∈ o.methods
        (∃ parts, (t.report g o).get? "methods" = some (.record parts) ∧
          (parts.map Prod.fst).Nodup ∧
          List.Forall₂ (fun m part => ∃ d ∈ ds, m = d.method text ∧ t.PartOf d o.temps m part)
            selected parts) ∧
        ∃ head foot : List Text, head.length = 3 ∧ foot.length = 2 ∧
          t.listing g o = (head ++ selected.flatMap (t.methodLines o.temps) ++ foot).flatMap
            fun line => line ++ Text.ofString "\n" := by
  obtain ⟨ds, hread, hmethods, hpass⟩ := Source.of_parse h
  have hdecl : ∀ m ∈ p.methods, ∃ d ∈ ds, d.method text = m := fun m hm =>
    List.mem_map.mp (hmethods ▸ hm)
  have htargets : ∀ m ∈ p.methods, ∀ s ∈ m.body, ∀ l ∈ s.action.jumpLabel?, l ∈ m.labels.keys := by
    intro m hm
    obtain ⟨d, hd, rfl⟩ := hdecl m hm
    exact (hpass d hd).targets
  have hlocal : ∀ m ∈ p.methods, m.IsLocal := by
    intro m hm
    obtain ⟨d, -, rfl⟩ := hdecl m hm
    exact Source.isLocal_method text d
  obtain ⟨g, hbuild⟩ := (Supergraph.exists_build_iff htargets).mpr hnames
  have hb := Supergraph.built_of_build hbuild
  refine ⟨ds, g, hread, hbuild, Supergraph.calls_of_build hbuild,
    fun m => Supergraph.mem_methods_iff hbuild, fun s noted o => ?_⟩
  intro t selected
  have hselected : o.select g = selected := o.select_eq g
  have hlisting := t.exists_listing_eq g o
  rw [hselected] at hlisting
  refine ⟨⟨selected.map fun m => (m.name, .list (m.nodes.map (t.nodeJson o.temps))), ?_, ?_, ?_⟩,
    hlisting⟩
  · rw [← hselected]
    rfl
  · rw [List.map_map]
    exact hb.calls.reachable.distinct.sublist (List.filter_sublist.map _)
  · rw [List.forall₂_map_right_iff, List.forall₂_same]
    intro m hm
    have hmem : m ∈ g.methods := (List.mem_filter.mp hm).1
    obtain ⟨d, hd, rfl⟩ := hdecl m (hb.calls.reachable.defined m hmem)
    have howned := solve_ownedBy hbuild hlocal s noted hmem
    exact ⟨d, hd, rfl, Table.partOf_method ((Source.of_readDecls hread).2 d hd) howned o.temps⟩

theorem reports_lose_nothing_sample :
    ∃ p ds g, Source.parse Sample.counting "counting.ir" = .ok p ∧
      (∀ name ∈ (["main"] : List Text), name ∈ p.methods.map Method.name) ∧
      Source.readDecls Sample.counting = .ok ds ∧ Supergraph.build p ["main"] = .ok g ∧
      ∃ parts, ((solve g ⟨.lifo, none⟩ []).run.table.report g ⟨["step"], true⟩).get? "methods" =
          some (.record parts) ∧
        List.Forall₂
          (fun m part => ∃ d ∈ ds, m = d.method Sample.counting ∧
            (solve g ⟨.lifo, none⟩ []).run.table.PartOf d true m part)
          (g.methods.filter fun m => m.name = Text.ofString "step") parts := by
  obtain ⟨p, hparse, hmethods⟩ := Sample.parse_counting
  have hnames : ∀ name ∈ (["main"] : List Text), name ∈ p.methods.map Method.name := by
    rw [hmethods]
    decide
  obtain ⟨ds, g, hread, hbuild, -, -, hall⟩ := reports_lose_nothing hparse hnames
  obtain ⟨⟨parts, hparts, -, hforall⟩, -⟩ := hall ⟨.lifo, none⟩ [] ⟨["step"], true⟩
  refine ⟨p, ds, g, hparse, hnames, hread, hbuild, parts, hparts, ?_⟩
  simpa using hforall

end ConstFlow
