import ConstFlow.Proofs.Accepted
import ConstFlow.Proofs.EdgeStructure

/-!
# The order of discovery

A call graph lists its reachable methods as a breadth-first search finds them. That order is said
here without a queue. The methods are the entries, and then what each of them calls, method by
method, leaving out what has come before (`reachable_ordered`). The list is on both sides of this
equation, and with the set of its methods it is determined: whatever comes next is called by
something that has come already.

From the equation it follows that nearer methods come first (`exists_reachesIn_of_before`). If `a`
is found before `b`, it occurs among the callees before every occurrence of `b`; so it is called by
a method that comes no later than any caller of `b`, and the number of calls is compared one call
earlier.
-/

namespace ConstFlow

/-! ## Leaving out repetitions -/

section

variable {α : Type} [BEq α] [LawfulBEq α]

theorem eraseDups_concat (as : List α) (b : α) :
    (as ++ [b]).eraseDups = if b ∈ as then as.eraseDups else as.eraseDups ++ [b] := by
  rw [List.eraseDups_append, List.cons_removeAll]
  by_cases h : b ∈ as
  · simp [h]
  · simp [h, List.eraseDups_cons]

theorem nodup_eraseDups (as : List α) : as.eraseDups.Nodup := by
  induction as using List.reverseRecOn with
  | nil => exact List.nodup_nil
  | append_singleton as b ih =>
      rw [eraseDups_concat]
      split
      · exact ih
      · rename_i hb
        exact ih.append (List.nodup_singleton b) (by simpa using hb)

theorem eraseDups_of_nodup {as : List α} (h : as.Nodup) : as.eraseDups = as := by
  induction as using List.reverseRecOn with
  | nil => rfl
  | append_singleton as b ih =>
      obtain ⟨has, -, hdisj⟩ := List.nodup_append.mp h
      rw [eraseDups_concat, if_neg fun hb => hdisj b hb b List.mem_cons_self rfl, ih has]

theorem eraseDups_append_cons_of_mem {as bs : List α} {b : α} (h : b ∈ as) :
    (as ++ b :: bs).eraseDups = (as ++ bs).eraseDups := by
  rw [List.eraseDups_append, List.eraseDups_append, List.cons_removeAll]
  simp [h]

theorem eraseDups_eraseDups_append (as bs : List α) :
    (as.eraseDups ++ bs).eraseDups = (as ++ bs).eraseDups := by
  induction bs using List.reverseRecOn with
  | nil => rw [List.append_nil, List.append_nil, eraseDups_of_nodup (nodup_eraseDups as)]
  | append_singleton bs b ih =>
      rw [← List.append_assoc, ← List.append_assoc, eraseDups_concat, eraseDups_concat, ih]
      simp only [List.mem_append, List.mem_eraseDups]

/-- Of two items that are left, the earlier one occurs before every occurrence of the other. -/
theorem pairwise_eraseDups (as : List α) :
    as.eraseDups.Pairwise fun a b => ∀ us vs, as = us ++ b :: vs → a ∈ us := by
  induction as using List.reverseRecOn with
  | nil => exact .nil
  | append_singleton as x ih =>
      -- An occurrence of `b` is the last item, or it is one of the items before.
      have hlast : ∀ a ∈ as, ∀ b us vs, as ++ [x] = us ++ b :: vs →
          (∀ vs', as = us ++ b :: vs' → a ∈ us) → a ∈ us := by
        intro a ha b us vs h hbefore
        rcases List.eq_nil_or_concat vs with rfl | ⟨vs', y, rfl⟩
        · obtain ⟨rfl, -⟩ := List.append_inj' h rfl
          exact ha
        · rw [List.concat_eq_append, ← List.cons_append, ← List.append_assoc] at h
          exact hbefore vs' (List.append_inj' h rfl).1
      have hkept : as.eraseDups.Pairwise fun a b => ∀ us vs, as ++ [x] = us ++ b :: vs → a ∈ us :=
        ih.imp_of_mem fun ha _ hab us vs h => hlast _ (List.mem_eraseDups.mp ha) _ us vs h (hab us)
      rw [eraseDups_concat]
      split
      · exact hkept
      · rename_i hx
        refine List.pairwise_append.mpr ⟨hkept, List.pairwise_singleton _ _, ?_⟩
        intro a ha b hb us vs h
        obtain rfl := List.mem_singleton.mp hb
        refine hlast a (List.mem_eraseDups.mp ha) b us vs h fun vs' has => absurd ?_ hx
        rw [has]
        exact List.mem_append_right us List.mem_cons_self

end

/-! ## Searching -/

namespace Frontier

theorem Sound.reached_reach {p : Program} {cs : List Method} (hcs : ∀ c ∈ cs, c ∈ p.methods) :
    ∀ {f : Frontier}, f.Sound p → (f.reach cs).reached = (f.reached ++ cs).eraseDups := by
  induction cs with
  | nil =>
      intro f hf
      rw [List.append_nil, eraseDups_of_nodup (.of_map Method.name hf.distinct)]
      rfl
  | cons c cs ih =>
      rw [List.forall_mem_cons] at hcs
      intro f hf
      unfold Frontier.reach
      split
      · rename_i hname
        rw [ih hcs.2 hf, eraseDups_append_cons_of_mem (hf.mem_of_name hcs.1 hname)]
      · rename_i hname
        rw [ih hcs.2 (hf.add hcs.1 hname), List.append_assoc, List.singleton_append]

/-- What was reached is what was looked at and then the queue; and it is the entries and then what
is called by the methods that were looked at. -/
def Ordered (p : Program) (entries : List Method) (f : Frontier) : Prop :=
  ∃ seen, f.reached = seen ++ f.queue ∧
    f.reached = (entries ++ seen.flatMap p.callees).eraseDups

theorem Ordered.step {p : Program} {entries rest reached : List Method} {m : Method}
    (hs : (Frontier.mk (m :: rest) reached).Sound p)
    (ho : (Frontier.mk (m :: rest) reached).Ordered p entries) :
    (Frontier.reach ⟨rest, reached⟩ (p.callees m)).Ordered p entries := by
  obtain ⟨seen, hsplit, horder⟩ := ho
  simp only at hsplit horder
  obtain ⟨new, hreached, hqueue⟩ := exists_new (p.callees m) ⟨rest, reached⟩
  refine ⟨seen ++ [m], ?_, ?_⟩
  · rw [hreached, hqueue, hsplit]
    simp
  · calc (Frontier.reach ⟨rest, reached⟩ (p.callees m)).reached
        = (reached ++ p.callees m).eraseDups :=
          hs.pop.reached_reach fun c hc => Program.mem_of_mem_callees hc
      _ = (entries ++ seen.flatMap p.callees ++ p.callees m).eraseDups := by
          rw [horder, eraseDups_eraseDups_append]
      _ = (entries ++ (seen ++ [m]).flatMap p.callees).eraseDups := by
          rw [List.flatMap_append, List.flatMap_singleton, List.append_assoc]

end Frontier

theorem CallGraph.explore_ordered {p : Program} {entries : List Method} (s : Search)
    (hp : s.graph.program = p) (hs : s.frontier.Sound p) (ho : s.frontier.Ordered p entries) :
    (explore s).reachable =
      (entries ++ (explore s).reachable.flatMap p.callees).eraseDups := by
  fun_induction explore s with
  | case1 g =>
      -- With nothing left in the queue, all that was reached was looked at.
      obtain ⟨seen, hsplit, horder⟩ := ho
      obtain rfl : g.reachable = seen := by simpa [Search.frontier] using hsplit
      exact horder
  | case2 g m rest ih =>
      refine ih ((Search.kin_foldl_lookAt _ _).1.trans hp) ?_ ?_
      · rw [Search.frontier_step hp]
        exact Frontier.Sound.step hs
      · rw [Search.frontier_step hp]
        exact Frontier.Ordered.step hs ho

namespace Program

/-- The methods to which a chain of so many calls leads from an entry. -/
inductive ReachesIn (p : Program) (names : List Text) : Nat → Method → Prop where
  | entry {name : Text} {m : Method} (named : name ∈ names) (defined : p.find? name = some m) :
      ReachesIn p names 0 m
  | call {k : Nat} {m c : Method} (caller : ReachesIn p names k m) (callee : c ∈ p.callees m) :
      ReachesIn p names (k + 1) c

theorem reaches_iff {p : Program} {names : List Text} {m : Method} :
    p.Reaches names m ↔ ∃ k, p.ReachesIn names k m := by
  constructor
  · intro h
    induction h with
    | entry named defined => exact ⟨0, .entry named defined⟩
    | call _ callee ih =>
        obtain ⟨k, hk⟩ := ih
        exact ⟨k + 1, hk.call callee⟩
  · rintro ⟨k, h⟩
    induction h with
    | entry named defined => exact .entry named defined
    | call _ callee ih => exact ih.call callee

end Program

namespace CallGraph

/-! ## Entries -/

theorem map_name_entryMethods {p : Program} :
    ∀ {names : List Text} {found ms : List Method}, entryMethods p found names = .ok ms →
      (∀ m ∈ found, m ∈ p.methods) → (found.map Method.name).Nodup →
        ms.map Method.name = (found.map Method.name ++ names).eraseDups
  | [], found, ms, h, _, hnodup => by
      obtain rfl := Except.ok.inj h
      rw [List.append_nil, eraseDups_of_nodup hnodup]
  | name :: rest, found, ms, h, hfound, hnodup => by
      simp only [entryMethods] at h
      split at h
      · cases h
      · rename_i m hm
        obtain rfl : m.name = name := by simpa using List.find?_some hm
        have hmem := Program.mem_of_find? hm
        split at h
        · rename_i hold
          rw [map_name_entryMethods h hfound hnodup,
            eraseDups_append_cons_of_mem (List.mem_map_of_mem hold)]
        · rename_i hnew
          have hname : m.name ∉ found.map Method.name := by
            intro hname
            obtain ⟨c, hc, hcn⟩ := List.mem_map.mp hname
            exact hnew (Program.eq_of_name_eq (hfound c hc) hmem hcn ▸ hc)
          rw [map_name_entryMethods h, List.map_append, List.map_singleton, List.append_assoc,
            List.singleton_append]
          · simpa [or_imp, forall_and] using ⟨hfound, hmem⟩
          · rw [List.map_append]
            exact hnodup.append (List.nodup_singleton _) (List.disjoint_singleton.mpr hname)

theorem build_eq_error_iff {p : Program} {names : List Text} {e : Graph.Error} :
    build p names = .error e ↔ ∃ before name after, names = before ++ name :: after ∧
      name ∉ p.methods.map Method.name ∧ (∀ n ∈ before, n ∈ p.methods.map Method.name) ∧
      e = .undefinedEntry name := by
  have hundefined : ∀ before name after, name ∉ p.methods.map Method.name →
      (∀ n ∈ before, n ∈ p.methods.map Method.name) →
        build p (before ++ name :: after) = .error (.undefinedEntry name) := by
    intro before name after hname hbefore
    rw [build, entryMethods_undefined hname hbefore]
    rfl
  constructor
  · intro h
    have hsome : ¬ ∀ name ∈ names, name ∈ p.methods.map Method.name := by
      simp only [← Program.exists_find?_iff]
      rw [← exists_build_iff]
      rintro ⟨g, hg⟩
      rw [hg] at h
      cases h
    obtain ⟨before, name, after, rfl, hname, hbefore⟩ := exists_first_of_not_forall hsome
    exact ⟨before, name, after, rfl, hname, hbefore,
      Except.error.inj (h.symm.trans (hundefined before name after hname hbefore))⟩
  · rintro ⟨before, name, after, rfl, hname, hbefore, rfl⟩
    exact hundefined before name after hname hbefore

section

variable {p : Program} {names : List Text} {g : CallGraph} (h : build p names = .ok g)
include h

theorem map_name_entries : g.entries.map Method.name = names.eraseDups := by
  obtain ⟨ms, he, rfl⟩ := of_build h
  rw [entries_explore_start]
  exact map_name_entryMethods he (by simp) List.nodup_nil

/-! ## Reachable methods -/

theorem reachable_ordered :
    g.reachable = (g.entries ++ g.reachable.flatMap p.callees).eraseDups := by
  have hentries : ∀ m ∈ g.entries, m ∈ p.methods := fun m hm => mem_methods_of_mem_entries h hm
  have hsound := Frontier.sound_nil p
  obtain ⟨new, hreached, hqueue⟩ := Frontier.exists_new g.entries ⟨[], []⟩
  have hordered : (start p g.entries).frontier.Ordered p g.entries := by
    rw [frontier_start]
    refine ⟨[], by rw [hreached, hqueue]; rfl, ?_⟩
    rw [hsound.reached_reach hentries, List.flatMap_nil, List.append_nil]
    rfl
  have horder := explore_ordered _ (program_start p _) (sound_start h) hordered
  rwa [← eq_explore h] at horder

theorem reachable_pairwise : g.reachable.Pairwise fun a b =>
    ∀ us vs, g.entries ++ g.reachable.flatMap p.callees = us ++ b :: vs → a ∈ us := by
  have hpairs := pairwise_eraseDups (g.entries ++ g.reachable.flatMap p.callees)
  rwa [← reachable_ordered h] at hpairs

theorem exists_reachesIn_of_before {k : Nat} {a b : Method}
    (hbefore : ∀ us vs, g.entries ++ g.reachable.flatMap p.callees = us ++ b :: vs → a ∈ us)
    (hb : p.ReachesIn names k b) : ∃ j ≤ k, p.ReachesIn names j a := by
  have hentry : ∀ m ∈ g.entries, p.ReachesIn names 0 m := by
    intro m hm
    obtain ⟨name, hname, hfind⟩ := (mem_entries_iff h).mp hm
    exact .entry hname hfind
  induction hb generalizing a with
  | @entry name b hname hfind =>
      obtain ⟨us, vs, hentries⟩ := List.append_of_mem ((mem_entries_iff h).mpr ⟨name, hname, hfind⟩)
      refine ⟨0, Nat.le_refl 0, hentry a ?_⟩
      rw [hentries]
      refine List.mem_append_left _ (hbefore us (vs ++ g.reachable.flatMap p.callees) ?_)
      rw [hentries, List.append_assoc, List.cons_append]
  | @call k c b hc hcall ih =>
      have hmem : c ∈ g.reachable := (mem_reachable_iff h).mpr (Program.reaches_iff.mpr ⟨k, hc⟩)
      obtain ⟨ss, ts, hreachable⟩ := List.append_of_mem hmem
      obtain ⟨xs, ys, hcallees⟩ := List.append_of_mem hcall
      have hsplit : g.entries ++ g.reachable.flatMap p.callees =
          (g.entries ++ (ss.flatMap p.callees ++ xs)) ++ b :: (ys ++ ts.flatMap p.callees) := by
        rw [hreachable, List.flatMap_append, List.flatMap_cons, hcallees]
        simp
      -- So `a` is an entry, or called by something before `c`, or called by `c`.
      rcases List.mem_append.mp (hbefore _ _ hsplit) with ha | ha
      · exact ⟨0, Nat.zero_le _, hentry a ha⟩
      · rcases List.mem_append.mp ha with ha | ha
        · obtain ⟨d, hd, had⟩ := List.mem_flatMap.mp ha
          have hpairs := reachable_pairwise h
          rw [hreachable] at hpairs
          have hdc := (List.pairwise_append.mp hpairs).2.2 d hd c List.mem_cons_self
          rw [← hreachable] at hdc
          obtain ⟨j, hj, hd⟩ := ih hdc
          exact ⟨j + 1, Nat.succ_le_succ hj, hd.call had⟩
        · exact ⟨k + 1, Nat.le_refl _, hc.call (hcallees ▸ List.mem_append_left _ ha)⟩

/-! ## Calls -/

theorem sites_nodup : g.sites.Nodup := by
  rw [sites, List.nodup_flatMap]
  refine ⟨fun m _ => m.callSites_nodup, ?_⟩
  refine List.Pairwise.imp ?_ (List.pairwise_map.mp (built_of_build h).reachable.distinct)
  intro m c hne n hm hc
  exact hne ((Method.method_of_mem_nodes (Method.mem_nodes_of_mem_callSites hm)).symm.trans
    (Method.method_of_mem_nodes (Method.mem_nodes_of_mem_callSites hc)))

theorem mem_methods_of_mem_edges {e : CallEdge} (he : e ∈ g.edges) :
    e.callee ∈ p.methods ∧ e.site.action.callee? = some e.callee.name := by
  obtain ⟨-, hres⟩ := (built_of_build h).mem_edges_iff.mp he
  rw [Program.resolve?, Option.bind_eq_some_iff] at hres
  obtain ⟨name, hname, hfind⟩ := hres
  have hcallee : e.callee.name = name := by simpa using List.find?_some hfind
  exact ⟨Program.mem_of_find? hfind, hcallee ▸ hname⟩

theorem not_mem_methods_of_mem_unresolved {n : Node} (hn : n ∈ g.unresolved) :
    ∃ name, n.action.callee? = some name ∧ name ∉ p.methods.map Method.name := by
  rw [(built_of_build h).holds.unresolved] at hn
  obtain ⟨hsite, hnone⟩ := List.mem_filter.mp hn
  obtain ⟨m, -, hm⟩ := List.mem_flatMap.mp hsite
  have hcall := (List.mem_filter.mp hm).2
  rw [(built_of_build h).program, Option.isNone_iff_eq_none, Program.resolve?] at hnone
  cases ha : n.action with
  | call name args receiver =>
      refine ⟨name, rfl, fun hname => ?_⟩
      obtain ⟨c, hc⟩ := Program.exists_find?_iff.mpr hname
      rw [ha] at hnone
      exact absurd (hc.symm.trans hnone) (by simp)
  | _ => rw [ha] at hcall; cases hcall

end

namespace Holds

variable {g : CallGraph} {sites : List Node} (h : g.Holds sites)
include h

theorem map_site_edges :
    g.edges.map CallEdge.site = sites.filter fun n => (g.program.resolve? n).isSome := by
  rw [h.edges, List.map_filterMap, ← List.filterMap_eq_filter]
  refine List.filterMap_congr fun n _ => ?_
  cases hr : g.program.resolve? n <;> simp [Option.guard, hr]

theorem sites_perm : (g.edges.map CallEdge.site ++ g.unresolved).Perm sites := by
  have hnot : (fun n => (g.program.resolve? n).isNone) =
      fun n => !(g.program.resolve? n).isSome := by
    funext n
    exact (Option.not_isSome _).symm
  rw [h.map_site_edges, h.unresolved, hnot]
  exact List.filter_append_perm _ sites

theorem calleesOf_eq_nil {n : Node} (hn : n ∉ g.edges.map CallEdge.site) : g.calleesOf n = [] := by
  rw [h.callees, List.map_eq_nil_iff, List.filter_eq_nil_iff]
  intro e he hsite
  exact hn (of_decide_eq_true hsite ▸ List.mem_map_of_mem he)

/-- Every call has one edge, so the others are filtered out. -/
theorem calleesOf_site (hnd : (g.edges.map CallEdge.site).Nodup) {e : CallEdge} (he : e ∈ g.edges) :
    g.calleesOf e.site = [e.callee] := by
  have hone : (g.edges.filter fun e' => e'.site = e.site) = [e] := by
    have hpick := filter_flatMap_of_mem (f := fun e' => [e']) (q := fun e' => e'.site = e.site)
      (List.Nodup.of_map _ hnd) he
    rw [List.flatMap_singleton'] at hpick
    rw [hpick]
    · simp
    · intro e' he' hne e'' he''
      obtain rfl := List.mem_singleton.mp he''
      exact decide_eq_false fun hsite => hne (List.inj_on_of_nodup_map hnd he' he hsite)
  rw [h.callees, hone]
  rfl

end Holds

/-! ## The graph as a whole -/

/-- What a call graph is made of. -/
structure Discovered (p : Program) (names : List Text) (g : CallGraph) : Prop where
  entries : g.entries.map Method.name = names.eraseDups ∧ ∀ m ∈ g.entries, m ∈ p.methods
  reachable : ∀ m, m ∈ g.reachable ↔ ∃ k, p.ReachesIn names k m
  nodup : g.reachable.Nodup
  order : g.reachable = (g.entries ++ g.reachable.flatMap p.callees).eraseDups
  /-- Whatever comes earlier can be reached with no more calls. -/
  nearest : g.reachable.Pairwise fun a b =>
    ∀ k, p.ReachesIn names k b → ∃ j ≤ k, p.ReachesIn names j a
  /-- The calls in reachable methods, each once, are those with an edge and those without. -/
  sites : (g.edges.map CallEdge.site ++ g.unresolved).Perm (g.reachable.flatMap Method.callSites) ∧
    (g.edges.map CallEdge.site ++ g.unresolved).Nodup
  edges : ∀ e ∈ g.edges, e.callee ∈ p.methods ∧ e.site.action.callee? = some e.callee.name
  unresolved : ∀ n ∈ g.unresolved, ∃ name, n.action.callee? = some name ∧
    name ∉ p.methods.map Method.name
  outside : ∀ m ∈ p.methods, m ∉ g.reachable → ∀ n ∈ m.callSites,
    n ∉ g.edges.map CallEdge.site ∧ n ∉ g.unresolved
  direct : ∀ e ∈ g.edges, g.calleesOf e.site = [e.callee] ∧ g.resolution? e.site = some .direct
  missing : ∀ n ∈ g.unresolved, g.calleesOf n = [] ∧ g.resolution? n = some .unresolved
  others : ∀ n, n ∉ g.edges.map CallEdge.site → n ∉ g.unresolved →
    g.calleesOf n = [] ∧ g.resolution? n = none
  callers : ∀ m ∈ p.methods,
    g.sitesOf m = (g.edges.filter fun e => e.callee = m).map CallEdge.site

/-- **A call graph holds what can be reached, in the order of a breadth-first search.** It is not
built if an entry is not defined, and then the first such entry is complained about. -/
theorem build_discovers (p : Program) (names : List Text) :
    (∀ e, build p names = .error e ↔ ∃ before name after, names = before ++ name :: after ∧
      name ∉ p.methods.map Method.name ∧ (∀ n ∈ before, n ∈ p.methods.map Method.name) ∧
      e = .undefinedEntry name) ∧
    ∀ g, build p names = .ok g → g.Discovered p names := by
  refine ⟨fun e => build_eq_error_iff, fun g h => ?_⟩
  have hb := built_of_build h
  have hsites := hb.holds.sites_perm
  have hnodup : (g.edges.map CallEdge.site ++ g.unresolved).Nodup :=
    hsites.nodup_iff.mpr (sites_nodup h)
  obtain ⟨hedges, -, hdisj⟩ := List.nodup_append.mp hnodup
  refine
    { entries := ⟨map_name_entries h, fun m hm => mem_methods_of_mem_entries h hm⟩
      reachable := fun m => (mem_reachable_iff h).trans Program.reaches_iff
      nodup := .of_map Method.name hb.reachable.distinct
      order := reachable_ordered h
      nearest := (reachable_pairwise h).imp fun hab k hk => exists_reachesIn_of_before h hab hk
      sites := ⟨hsites, hnodup⟩
      edges := fun e he => mem_methods_of_mem_edges h he
      unresolved := fun n hn => not_mem_methods_of_mem_unresolved h hn
      outside := ?_
      direct := ?_
      missing := ?_
      others := ?_
      callers := ?_ }
  · intro m hm hno n hn
    rw [← not_or, ← List.mem_append, hsites.mem_iff]
    intro hsite
    obtain ⟨c, hc, hnc⟩ := List.mem_flatMap.mp hsite
    have hmc := Program.eq_of_mem_nodes hm (hb.reachable.defined c hc)
      (Method.mem_nodes_of_mem_callSites hn) (Method.mem_nodes_of_mem_callSites hnc)
    exact hno (hmc ▸ hc)
  · intro e he
    refine ⟨hb.holds.calleesOf_site hedges he, ?_⟩
    rw [resolution?, if_pos ((hb.holds.resolved _).mpr (List.mem_map_of_mem he))]
  · intro n hn
    have hno : n ∉ g.edges.map CallEdge.site := fun he => hdisj n he n hn rfl
    refine ⟨hb.holds.calleesOf_eq_nil hno, ?_⟩
    rw [resolution?, if_neg ((hb.holds.resolved n).not.mpr hno), if_pos hn]
  · intro n hno hn
    refine ⟨hb.holds.calleesOf_eq_nil hno, ?_⟩
    rw [resolution?, if_neg ((hb.holds.resolved n).not.mpr hno), if_neg hn]
  · intro m hm
    refine (hb.holds.callers m.name).trans ?_
    refine congrArg (List.map CallEdge.site) (List.filter_congr fun e he => ?_)
    have hcallee := (mem_methods_of_mem_edges h he).1
    exact decide_eq_decide.mpr ⟨Program.eq_of_name_eq hcallee hm, congrArg Method.name⟩

end CallGraph

namespace Sample

/-- A method without parameters that calls others, one after another. -/
def caller (name : Text) (callees : List Text) : Method :=
  .of name [] (callees.map fun callee => ⟨1, .call callee [] none⟩) .empty

/-- Nothing calls `idle`, and nothing is called `gone`. -/
def web : Program :=
  ⟨[caller "idle" ["left"], caller "deep" ["start"], caller "left" ["deep", "gone"],
    caller "right" ["left"], caller "start" ["left", "right"]], by decide⟩

end Sample

/-- Both `left` and `right` are one call away from an entry, but `right` is an entry too. The call
of `left` in `idle` is no call of the graph. -/
theorem CallGraph.build_discovers_sample :
    let g := (Sample.graphOf Sample.web ["start", "right", "start"]).calls
    let left := Sample.caller "left" ["deep", "gone"]
    CallGraph.build Sample.web ["start", "right", "start"] = .ok g ∧
      g.Discovered Sample.web ["start", "right", "start"] ∧
      g.reachable.map Method.name = ["start", "right", "left", "deep"] ∧
      (g.sitesOf left).map Node.method = ["start", "right"] ∧
      g.unresolved = [left.nodeAt 1] ∧
      CallGraph.build Sample.web ["start", "none", "gone"] = .error (.undefinedEntry "none") := by
  intro g left
  have hok : CallGraph.build Sample.web ["start", "right", "start"] = .ok g :=
    Supergraph.calls_of_build (Sample.build_graphOf (by decide +kernel))
  obtain ⟨-, hdiscovers⟩ := build_discovers Sample.web ["start", "right", "start"]
  obtain ⟨herror, -⟩ := build_discovers Sample.web ["start", "none", "gone"]
  refine ⟨hok, hdiscovers g hok, by decide +kernel, by decide +kernel, by decide +kernel, ?_⟩
  exact (herror _).mpr ⟨["start"], "none", ["gone"], rfl, by decide +kernel, by decide +kernel, rfl⟩

end ConstFlow
