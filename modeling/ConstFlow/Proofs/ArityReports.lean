import ConstFlow.Proofs.VisitBound

/-!
# Reports of mismatched calls

A call may pass more or fewer arguments than its callee has parameters. The solver meets such a call
whenever it visits the entry of the callee, and tells of it the first time only, however many runs
share one analysis. `Session` is any sequence of such runs. What it tells is kept as one list of
mismatches:

* a run only extends the list, and by mismatches of the graph (`Run.Notes`);
* a node that was visited has all mismatches of its incoming edges in the list, so nothing is
  missing once a run has come to its fixpoint (`Run.Notes.complete`).
-/

namespace ConstFlow

/-! ## Noting mismatches -/

/-- Noting extends the list by those that are new, and repeats none. -/
theorem noteMismatches_spec : ∀ (ms : List Mismatch) {noted : List Mismatch}, noted.Nodup →
    ∃ new, noteMismatches noted ms = noted ++ new ∧ (noted ++ new).Nodup ∧
      (∀ m ∈ new, m ∈ ms) ∧ ∀ m ∈ ms, m ∈ noted ++ new
  | [], noted, h => ⟨[], by simp [noteMismatches], by simpa using h, by simp, by simp⟩
  | m :: rest, noted, h => by
    by_cases hm : m ∈ noted
    · obtain ⟨new, heq, hnodup, hsub, hall⟩ := noteMismatches_spec rest h
      refine ⟨new, by rw [noteMismatches, if_pos hm, heq], hnodup,
        fun a ha => List.mem_cons_of_mem m (hsub a ha), fun a ha => ?_⟩
      rcases List.mem_cons.mp ha with rfl | ha
      · exact List.mem_append_left new hm
      · exact hall a ha
    · have h' : (noted ++ [m]).Nodup := by
        simpa [List.nodup_append] using ⟨h, fun a ha hne => hm (hne ▸ ha)⟩
      obtain ⟨new, heq, hnodup, hsub, hall⟩ := noteMismatches_spec rest h'
      rw [List.append_assoc, List.singleton_append] at heq hnodup hall
      refine ⟨m :: new, by rw [noteMismatches, if_neg hm, heq], hnodup, fun a ha => ?_,
        fun a ha => ?_⟩
      · rcases List.mem_cons.mp ha with rfl | ha
        · exact List.mem_cons_self
        · exact List.mem_cons_of_mem m (hsub a ha)
      · rcases List.mem_cons.mp ha with rfl | ha
        · exact List.mem_append_right noted List.mem_cons_self
        · exact hall a ha

/-! ## The mismatches of a program -/

/-- A call of a reachable method does not pass as many arguments as the defined callee has
parameters. -/
structure Program.Mismatched (p : Program) (names : List Text) (m : Mismatch) : Prop where
  reached : ∃ caller, p.Reaches names caller ∧ m.site ∈ caller.callSites
  differs : ∃ args receiver callee, m.site.action = .call m.callee args receiver ∧
    p.find? m.callee = some callee ∧ m.args = args.length ∧ m.params = callee.params.length ∧
    args.length ≠ callee.params.length

/-- A call has one callee, so it has at most one mismatch. -/
theorem Program.Mismatched.eq_of_site_eq {p : Program} {names : List Text} {m m' : Mismatch}
    (h : p.Mismatched names m) (h' : p.Mismatched names m') (hsite : m.site = m'.site) :
    m = m' := by
  obtain ⟨args, receiver, callee, haction, hfind, hargs, hparams, -⟩ := h.differs
  obtain ⟨args', receiver', callee', haction', hfind', hargs', hparams', -⟩ := h'.differs
  rw [← hsite, haction] at haction'
  obtain ⟨hcallee, rfl, -⟩ := Action.call.inj haction'
  rw [← hcallee, hfind] at hfind'
  obtain rfl := Option.some.inj hfind'
  obtain ⟨site, name, args, params⟩ := m
  obtain ⟨site', name', args', params'⟩ := m'
  simp_all

/-- The mismatch of an edge, whatever fact it carries. -/
def Edge.misfit? (e : Edge) : Option Mismatch := e.mismatch? (some .empty)

theorem Edge.mismatch?_some (e : Edge) (f : Fact) : e.mismatch? (some f) = e.misfit? := by
  unfold Edge.misfit? Edge.mismatch?
  split <;> simp_all

theorem Edge.misfit?_eq_some_iff {e : Edge} {m : Mismatch} :
    e.misfit? = some m ↔ ∃ callee name args receiver, e.kind = .call callee ∧
      e.source.action = .call name args receiver ∧ args.length ≠ callee.params.length ∧
      m = ⟨e.source, callee.name, args.length, callee.params.length⟩ := by
  unfold Edge.misfit? Edge.mismatch?
  split
  · rename_i callee name args receiver _ hkind haction
    rw [hkind, haction]
    split
    · rename_i heq
      constructor
      · rintro ⟨⟩
      · rintro ⟨_, _, _, _, hk, ha, hne, -⟩
        cases hk
        cases ha
        exact absurd heq hne
    · rename_i hne
      constructor
      · rintro ⟨⟩
        exact ⟨callee, name, args, receiver, rfl, rfl, hne, rfl⟩
      · rintro ⟨_, _, _, _, hk, ha, -, rfl⟩
        cases hk
        cases ha
        rfl
  · rename_i hno
    constructor
    · rintro ⟨⟩
    · rintro ⟨callee, name, args, receiver, hkind, haction, -⟩
      exact absurd haction (hno .empty callee name args receiver rfl hkind)

/-- The edges of the graph meet the mismatches of the program. -/
theorem Supergraph.exists_misfit?_iff {p : Program} {names : List Text} {g : Supergraph}
    (h : build p names = .ok g) {m : Mismatch} :
    (∃ e ∈ g.edges, e.misfit? = some m) ↔ p.Mismatched names m := by
  have hb := built_of_build h
  constructor
  · rintro ⟨e, he, hm⟩
    obtain ⟨callee, name, args, receiver, hkind, haction, hne, rfl⟩ :=
      Edge.misfit?_eq_some_iff.mp hm
    rcases hb.mem_edges_iff.mp he with ⟨-, -, f, -, rfl⟩ | ⟨n, hn, c, hc, hcase⟩
    · simp only [FlowEdge.lift] at hkind
      split at hkind <;> cases hkind
    rcases hcase with rfl | ⟨-, -, f, -, -, rfl⟩
    · obtain rfl := EdgeKind.call.inj hkind
      obtain ⟨caller, hcaller, hsite⟩ := List.mem_flatMap.mp hn
      have hfind : p.find? name = some c := by
        rw [Program.resolve?, show n.action = _ from haction] at hc
        exact hc
      obtain rfl : c.name = name := by simpa using List.find?_some hfind
      exact ⟨⟨caller, (mem_methods_iff h).mp hcaller, hsite⟩,
        args, receiver, c, haction, hfind, rfl, rfl, hne⟩
    · cases hkind
  · rintro ⟨⟨caller, hreach, hsite⟩, args, receiver, callee, haction, hfind, hargs, hparams, hne⟩
    have hn : m.site ∈ g.calls.sites :=
      List.mem_flatMap.mpr ⟨caller, (mem_methods_iff h).mpr hreach, hsite⟩
    have hres : p.resolve? m.site = some callee := by
      rw [Program.resolve?, haction]
      exact hfind
    have hname : callee.name = m.callee := by simpa using List.find?_some hfind
    refine ⟨⟨m.site, callee.entry, .call callee⟩,
      hb.mem_edges_iff.mpr (Or.inr ⟨m.site, hn, callee, hres, Or.inl rfl⟩),
      Edge.misfit?_eq_some_iff.mpr ⟨callee, m.callee, args, receiver, rfl, haction, hne, ?_⟩⟩
    rw [hname, ← hargs, ← hparams]

/-! ## Runs -/

/-- On a ready table every edge carries a fact, so the mismatches of a node are those of its
incoming edges. -/
theorem mem_mismatchesAt_iff {g : Supergraph} (hg : g.WellFormed) {t : Table} (ht : t.Ready g)
    {n : Node} {m : Mismatch} :
    m ∈ mismatchesAt g t n ↔ ∃ e ∈ g.inEdges n, e.misfit? = some m := by
  rw [mismatchesAt, List.mem_filterMap]
  refine exists_congr fun e => and_congr_right fun he => ?_
  rw [outFact?_source hg ht he, Edge.mismatch?_some]

/-- What a run has told, beyond what was told before it. -/
structure Run.Notes (g : Supergraph) (noted : List Mismatch) (r : Run) : Prop where
  nodup : r.noted.Nodup
  grown : ∃ new, r.noted = noted ++ new ∧ ∀ m ∈ new, ∃ e ∈ g.edges, e.misfit? = some m
  /-- A node that is not pending was visited. -/
  visited : ∀ n ∈ g.nodes, n ∈ r.pending.toList ∨
    ∀ e ∈ g.inEdges n, ∀ m, e.misfit? = some m → m ∈ r.noted

namespace Run.Notes

variable {g : Supergraph} {noted : List Mismatch} {r r' : Run} {s : Settings} (hg : g.WellFormed)
include hg

theorem begin {t : Table} (h : noted.Nodup) : (Run.begin g noted t).Notes g noted where
  nodup := h
  grown := ⟨[], (List.append_nil noted).symm, by simp⟩
  visited n hn := Or.inl (mem_pending_begin noted hg n hn)

/-- One round tells of the mismatches at the visited node. -/
theorem step (hr : r.Ready g) (hstep : Step g s r r') (h : r.Notes g noted) :
    r'.Notes g noted := by
  obtain ⟨n, rest, effect, -, hv, -, -, hnoted⟩ := hstep.visited_noted hg hr
  obtain ⟨new, heq, hnodup, hsub, hall⟩ := noteMismatches_spec (mismatchesAt g r.table n) h.nodup
  rw [heq] at hnoted
  refine ⟨hnoted ▸ hnodup, ?_, fun k hk => ?_⟩
  · obtain ⟨old, hold, hedges⟩ := h.grown
    refine ⟨old ++ new, by rw [hnoted, hold, List.append_assoc], fun m hm => ?_⟩
    rcases List.mem_append.mp hm with hm | hm
    · exact hedges m hm
    · obtain ⟨e, he, hmis⟩ := (mem_mismatchesAt_iff hg hr.table).mp (hsub m hm)
      exact ⟨e, (hg.mem_inEdges_iff.mp he).1, hmis⟩
  · rw [hnoted]
    by_cases hkn : k = n
    · subst hkn
      exact Or.inr fun e he m hm => hall m ((mem_mismatchesAt_iff hg hr.table).mpr ⟨e, he, hm⟩)
    · rcases h.visited k hk with hpend | hdone
      · rw [hv.popped.mem_iff, List.mem_cons] at hpend
        exact Or.inl (hv.mem_pending (hpend.resolve_left hkn))
      · exact Or.inr fun e he m hm => List.mem_append_left new (hdone e he m hm)

theorem steps (hr : r.Ready g) (hsteps : Steps g s r r') (h : r.Notes g noted) :
    r'.Ready g ∧ r'.Notes g noted := by
  induction hsteps with
  | refl => exact ⟨hr, h⟩
  | tail _ hstep ih =>
      obtain ⟨n, rest, effect, hv⟩ := hstep.visits hg ih.1
      exact ⟨hv.ready hg ih.1, step hg ih.1 hstep ih.2⟩

/-- When nothing is pending, every mismatch of the graph was told. -/
theorem complete (h : r.Notes g noted) (hdone : r.pending.size = 0) {e : Edge} (he : e ∈ g.edges)
    {m : Mismatch} (hm : e.misfit? = some m) : m ∈ r.noted := by
  have hempty : r.pending.toList = [] := by
    rw [← List.length_eq_zero_iff, Worklist.length_toList, hdone]
  rcases h.visited e.target (hg.target_mem e he) with hpend | hall
  · rw [hempty] at hpend
    cases hpend
  · exact hall e (hg.mem_inEdges_iff.mpr ⟨he, rfl⟩) m hm

end Run.Notes

/-- What a run from a ready table leaves: a ready table, and a list that it has extended by new
mismatches of the program, by all of them if it came to its fixpoint. -/
theorem resume_notes {p : Program} {names : List Text} {g : Supergraph}
    (h : Supergraph.build p names = .ok g) (s : Settings) {noted : List Mismatch}
    (hnoted : noted.Nodup) {t : Table} (ht : t.Ready g) :
    (resume g s noted t).run.table.Ready g ∧ (resume g s noted t).run.noted.Nodup ∧
      (∃ new, (resume g s noted t).run.noted = noted ++ new ∧
        ∀ m ∈ new, p.Mismatched names m) ∧
      ((resume g s noted t).ending = .fixpoint →
        ∀ m, p.Mismatched names m → m ∈ (resume g s noted t).run.noted) := by
  have hg := Supergraph.wellFormed_of_build h
  obtain ⟨r, hsteps, hends⟩ := resume_ends hg ht s noted
  obtain ⟨hready, hnotes⟩ :=
    Run.Notes.steps hg (Run.begin_ready noted hg ht) hsteps (Run.Notes.begin hg hnoted)
  obtain ⟨new, hnew, hedges⟩ := hnotes.grown
  have hsound : ∀ m ∈ new, p.Mismatched names m :=
    fun m hm => (Supergraph.exists_misfit?_iff h).mp (hedges m hm)
  generalize resume g s noted t = f at hends
  cases hends with
  | fixpoint done =>
    refine ⟨⟨hready.table.before, hready.table.after⟩, hnotes.nodup, ⟨new, hnew, hsound⟩,
      fun _ m hm => ?_⟩
    obtain ⟨e, he, hmis⟩ := (Supergraph.exists_misfit?_iff h).mpr hm
    exact hnotes.complete hg done he hmis
  | stopped _ _ =>
    refine ⟨hready.table, hnotes.nodup, ⟨new, hnew, hsound⟩, ?_⟩
    rintro ⟨⟩

/-! ## Sessions -/

/-- A run that is asked for: from the start, or on with the table of an earlier run. -/
inductive Task where
  | solve (s : Settings)
  | resume (s : Settings) (earlier : Nat)

/-- Runs that share one analysis: how each of them has ended, the mismatches that were met, and the
records of all. -/
structure Session where
  runs : List Finished
  noted : List Mismatch
  log : List Log.Record

namespace Session

/-- Before any run. -/
def fresh : Session := ⟨[], [], []⟩

/-- Run once more. There is nothing to go on with where no earlier run has the number. -/
def perform (g : Supergraph) (warn : Bool) (S : Session) : Task → Session
  | .solve s =>
    let f := ConstFlow.solve g s S.noted
    ⟨S.runs ++ [f], f.run.noted, S.log ++ f.solveLog warn S.noted⟩
  | .resume s earlier =>
    match S.runs[earlier]? with
    | none => S
    | some before =>
      let f := ConstFlow.resume g s S.noted before.run.table
      ⟨S.runs ++ [f], f.run.noted, S.log ++ f.mismatchLog warn S.noted⟩

/-- The session of a sequence of runs. -/
def of (g : Supergraph) (warn : Bool) (tasks : List Task) : Session :=
  tasks.foldl (perform g warn) fresh

/-- The records of a session that come from the analysis. -/
def reports (S : Session) : List Log.Record := S.log.filter fun r => r.origin = .analysis

/-- What holds between the runs of a session. -/
structure Tells (p : Program) (names : List Text) (g : Supergraph) (warn : Bool) (S : Session) :
    Prop where
  tables : ∀ f ∈ S.runs, f.run.table.Ready g
  reports : S.reports = S.noted.map (Mismatch.record warn)
  nodup : S.noted.Nodup
  sound : ∀ m ∈ S.noted, p.Mismatched names m
  complete : (∃ f ∈ S.runs, f.ending = .fixpoint) → ∀ m, p.Mismatched names m → m ∈ S.noted

variable {p : Program} {names : List Text} {g : Supergraph} {warn : Bool} {S : Session}

theorem filter_mismatchLog (f : Finished) (noted : List Mismatch) :
    ((f.mismatchLog warn noted).filter fun r => r.origin = .analysis) =
      f.mismatchLog warn noted := by
  rw [List.filter_eq_self]
  intro r hr
  obtain ⟨m, -, rfl⟩ := List.mem_map.mp hr
  rfl

theorem filter_solveLog (f : Finished) (noted : List Mismatch) :
    ((f.solveLog warn noted).filter fun r => r.origin = .analysis) =
      f.mismatchLog warn noted := by
  rw [Finished.solveLog, List.filter_append, filter_mismatchLog]
  split <;> simp [fixpointRecord]

namespace Tells

/-- One more run from a ready table, with any records that tell of the same mismatches. -/
theorem push (hbuild : Supergraph.build p names = .ok g) (h : S.Tells p names g warn)
    (s : Settings) {t : Table} (ht : t.Ready g) {log : List Log.Record}
    (hlog : (log.filter fun r => r.origin = .analysis) =
      (resume g s S.noted t).mismatchLog warn S.noted) :
    Tells p names g warn
      ⟨S.runs ++ [resume g s S.noted t], (resume g s S.noted t).run.noted, S.log ++ log⟩ := by
  obtain ⟨hready, hnodup, ⟨new, hnew, hsound⟩, hcomplete⟩ := resume_notes hbuild s h.nodup ht
  refine ⟨fun f hf => ?_, ?_, hnodup, fun m hm => ?_, ?_⟩
  · rcases List.mem_append.mp hf with hf | hf
    · exact h.tables f hf
    · rw [List.mem_singleton.mp hf]
      exact hready
  · have hold : S.log.filter (fun r => r.origin = .analysis) =
        S.noted.map (Mismatch.record warn) := h.reports
    rw [Session.reports, List.filter_append, hold, hlog, Finished.mismatchLog]
    simp [hnew]
  · rw [hnew, List.mem_append] at hm
    exact hm.elim (h.sound m) (hsound m)
  · rintro ⟨f, hf, hfix⟩ m hm
    rcases List.mem_append.mp hf with hf | hf
    · rw [hnew]
      exact List.mem_append_left new (h.complete ⟨f, hf, hfix⟩ m hm)
    · rw [List.mem_singleton.mp hf] at hfix
      exact hcomplete hfix m hm

theorem perform (hbuild : Supergraph.build p names = .ok g) (h : S.Tells p names g warn)
    (task : Task) : (S.perform g warn task).Tells p names g warn := by
  cases task with
  | solve s =>
    have hstart := Table.start_ready (Supergraph.wellFormed_of_build hbuild)
    simp only [Session.perform, ConstFlow.solve]
    exact h.push hbuild s hstart (filter_solveLog _ S.noted)
  | resume s earlier =>
    rw [Session.perform]
    split
    · exact h
    · rename_i before hbefore
      have hready := h.tables before (List.mem_of_getElem? hbefore)
      exact h.push hbuild s hready (filter_mismatchLog _ S.noted)

theorem of (hbuild : Supergraph.build p names = .ok g) (warn : Bool) (tasks : List Task) :
    (Session.of g warn tasks).Tells p names g warn := by
  refine List.foldlRecOn tasks _ ⟨by simp [fresh], rfl, List.nodup_nil, by simp [fresh], ?_⟩
    fun S hS task _ => hS.perform hbuild task
  rintro ⟨f, hf, -⟩
  cases hf

end Tells

end Session

/-- **Mismatched calls are reported once, and in the end all of them are.** In any sequence of runs
that share one analysis, with any strategies and bounds, the records of the analysis tell of
mismatched calls of reachable methods, each call at most once. As soon as one of the runs has come
to its fixpoint, there is a record for every such call. -/
theorem mismatches_reported_once {p : Program} {names : List Text} {g : Supergraph}
    (h : Supergraph.build p names = .ok g) (warn : Bool) (tasks : List Task) :
    ∃ told : List Mismatch,
      (Session.of g warn tasks).reports = told.map (Mismatch.record warn) ∧
      (told.map Mismatch.site).Nodup ∧
      (∀ m ∈ told, p.Mismatched names m) ∧
      ((∃ f ∈ (Session.of g warn tasks).runs, f.ending = .fixpoint) →
        ∀ m, p.Mismatched names m → m ∈ told) := by
  have ht := Session.Tells.of h warn tasks
  refine ⟨_, ht.reports, ?_, ht.sound, ht.complete⟩
  exact ht.nodup.map_on fun m hm m' hm' => (ht.sound m hm).eq_of_site_eq (ht.sound m' hm')

namespace Sample

/-- A call with too few arguments, one to no method, and one that fits. -/
def hasty : Method :=
  .of "hasty" []
    [⟨2, .literal ⟨"hasty", "x"⟩ 1⟩, ⟨3, .call "pair" [⟨"hasty", "x"⟩] none⟩,
      ⟨4, .call "gone" [⟨"hasty", "x"⟩] none⟩,
      ⟨5, .call "pair" [⟨"hasty", "x"⟩, ⟨"hasty", "x"⟩] (some ⟨"hasty", "x"⟩)⟩]
    Assoc.empty

/-- A call back, with an argument too many. -/
def pair : Method :=
  .of "pair" [⟨"pair", "a"⟩, ⟨"pair", "b"⟩]
    [⟨8, .call "hasty" [⟨"pair", "a"⟩] none⟩, ⟨9, .ret (some ⟨"pair", "a"⟩)⟩]
    Assoc.empty

/-- A method that nothing calls. -/
def idle : Method :=
  .of "idle" [] [⟨12, .call "pair" [] none⟩] Assoc.empty

def miscalls : Program := ⟨[hasty, pair, idle], by decide⟩

def miscallGraph : Supergraph := graphOf miscalls ["hasty"]

/-- A run that is cut short, one that goes on from it, and two more. -/
def tasks : List Task :=
  [.solve ⟨.fifo, some 3⟩, .resume ⟨.lifo, none⟩ 0, .solve ⟨.fifo, none⟩, .resume ⟨.fifo, some 2⟩ 2]

end Sample

theorem mismatches_reported_once_sample :
    Supergraph.build Sample.miscalls ["hasty"] = .ok Sample.miscallGraph ∧
      (Session.of Sample.miscallGraph true (Sample.tasks.take 1)).reports.map Log.Record.text =
        [("WARNING interdataflow.inter_constprop: Call to hasty in pair (line 8) " ++
          "passes 1 argument(s) for 0 parameter(s)" : String)] ∧
      (Session.of Sample.miscallGraph true Sample.tasks).reports.length = 2 ∧
      ∃ told : List Mismatch,
        (Session.of Sample.miscallGraph true Sample.tasks).reports =
          told.map (Mismatch.record true) ∧
        (told.map Mismatch.site).Nodup ∧
        ∀ m, m ∈ told ↔ Sample.miscalls.Mismatched ["hasty"] m := by
  have hbuild : Supergraph.build Sample.miscalls ["hasty"] = .ok Sample.miscallGraph :=
    Sample.build_graphOf (by decide +kernel)
  have hfix : (Session.of Sample.miscallGraph true Sample.tasks).runs.any
      (fun f => f.ending = .fixpoint) = true := by decide +kernel
  obtain ⟨told, hreports, hnodup, hsound, hcomplete⟩ :=
    mismatches_reported_once hbuild true Sample.tasks
  refine ⟨hbuild, by decide +kernel, by decide +kernel, told, hreports, hnodup,
    fun m => ⟨hsound m, hcomplete ?_ m⟩⟩
  simpa using hfix

end ConstFlow
