import ConstFlow.Config
import ConstFlow.Proofs.CallReach

/-!
# Configurations from mappings

What a mapping reads as, field by field, is `Config.Reads`. All values that a configuration holds
read as themselves (`Config.reads_fields`), whatever they were read from: texts that stand for other
values, tuples of names and strategies go through the same checks once more and come out unchanged.
So a mapping with more on top of it gives what the configuration that it gave would give with the
same on top (`Config.ofMapping_update`).

A mapping that gives no configuration is mostly `Explained`: there is a message about it. The only
values that are not are those that have to be shown and cannot be.
-/

namespace ConstFlow

/-! ## Mappings on top of others -/

namespace Assoc

variable {α β : Type} [DecidableEq α]

theorem get?_foldl_set {es : List (α × β)} (h : (es.map Prod.fst).Nodup) (m : Assoc α β) (k : α) :
    (es.foldl (fun m e => m.set e.1 e.2) m).get? k = (es.lookup k).or (m.get? k) := by
  induction es generalizing m with
  | nil => rfl
  | cons e es ih =>
      obtain ⟨hnew, hes⟩ := List.nodup_cons.mp h
      rw [List.foldl_cons, ih hes, get?_set, List.lookup_cons]
      by_cases hk : k = e.1
      · have hnone : es.lookup k = none := (lookup_eq_none_iff es k).mpr (hk ▸ hnew)
        simp [hk ▸ hnone, hk]
      · simp [hk, beq_false_of_ne hk]

/-- What is on top is seen first. -/
theorem get?_update (m n : Assoc α β) (k : α) :
    (m.update n).get? k = (n.get? k).or (m.get? k) := get?_foldl_set n.nodup m k

theorem contains_eq (m : Assoc α β) (k : α) : m.contains k = (m.get? k).isSome := by
  rw [Bool.eq_iff_iff, contains, decide_eq_true_iff, ← not_iff_not, ← m.get?_eq_none_iff]
  simp

theorem contains_update (m n : Assoc α β) (k : α) :
    (m.update n).contains k = (n.contains k || m.contains k) := by
  rw [contains_eq, contains_eq, contains_eq, get?_update, Option.isSome_or]

theorem filter_keys_foldl_set {q : α → Bool} {es : List (α × β)} (h : (es.map Prod.fst).Nodup)
    {m : Assoc α β} (hm : ∀ k ∈ m.keys, q k = true → k ∉ es.map Prod.fst) :
    (es.foldl (fun m e => m.set e.1 e.2) m).keys.filter q =
      m.keys.filter q ++ (es.map Prod.fst).filter q := by
  induction es generalizing m with
  | nil => simp
  | cons e es ih =>
      obtain ⟨hnew, hes⟩ := List.nodup_cons.mp h
      rw [List.foldl_cons, ih hes, keys_set]
      · split
        · rename_i hmem
          have hq : q e.1 = false := by
            by_contra hq
            exact hm e.1 hmem (by simpa using hq) List.mem_cons_self
          simp [hq]
        · simp [List.filter_cons]
          split <;> simp
      · intro k hk hq hmem
        rw [keys_set] at hk
        split at hk
        · exact hm k hk hq (List.mem_cons_of_mem _ hmem)
        · rcases List.mem_append.mp hk with hk | hk
          · exact hm k hk hq (List.mem_cons_of_mem _ hmem)
          · exact hnew (List.mem_singleton.mp hk ▸ hmem)

end Assoc

theorem unknownNames_eq_nil_iff {d : Assoc Text Setting} :
    unknownNames d = [] ↔ d.keys.filter (fun n => !Config.options.contains n) = [] := by
  rw [unknownNames, ← List.length_eq_zero_iff, List.length_mergeSort, List.length_eq_zero_iff]

theorem unknownNames_update {d₁ d₂ : Assoc Text Setting} (h : unknownNames d₁ = []) :
    unknownNames (d₁.update d₂) = unknownNames d₂ := by
  have hknown := unknownNames_eq_nil_iff.mp h
  have hkeys : (d₁.update d₂).keys.filter (fun n => !Config.options.contains n) =
      d₁.keys.filter (fun n => !Config.options.contains n) ++
        d₂.keys.filter (fun n => !Config.options.contains n) := by
    refine Assoc.filter_keys_foldl_set d₂.nodup fun k hk hq => ?_
    exact absurd (List.mem_filter.mpr ⟨hk, hq⟩) (hknown ▸ List.not_mem_nil)
  rw [hknown, List.nil_append] at hkeys
  exact congrArg (List.mergeSort · fun a b => !(b < a)) hkeys

/-! ## What a mapping reads as -/

section

variable {α : Type} {name : Text} {read : Setting → Except ConfigFailure α} {kept v : α}
  {d d' : Assoc Text Setting}

theorem valueOr_congr (h : d.get? name = d'.get? name) :
    valueOr d name read kept = valueOr d' name read kept := by
  rw [valueOr, valueOr, h]

/-- Of what lies below only the value matters. -/
theorem valueOr_update (h : valueOr d name read kept = .ok v)
    (h' : valueOr d' name read kept = .ok v) (e : Assoc Text Setting) :
    valueOr (d.update e) name read kept = valueOr (d'.update e) name read kept := by
  cases he : e.get? name with
  | some s =>
      refine valueOr_congr ?_
      rw [Assoc.get?_update, Assoc.get?_update, he, Option.some_or, Option.some_or]
  | none =>
      have hbelow : ∀ b : Assoc Text Setting, (b.update e).get? name = b.get? name := fun b => by
        rw [Assoc.get?_update, he, Option.none_or]
      rw [valueOr_congr (hbelow d), valueOr_congr (hbelow d'), h, h']

end

namespace Config

/-- What a mapping reads as, field by field; a field that it does not name has its default. -/
structure Reads (room : Nat) (d : Assoc Text Setting) (c : Config) : Prop where
  analysis : valueOr d "analysis_id" (readAnalysis room) default.analysis = .ok c.analysis
  entries : valueOr d "entry_methods" readEntries default.entries = .ok c.entries
  strategy : valueOr d "strategy" (readStrategy room) default.strategy = .ok c.strategy
  bound : valueOr d "max_iterations" readBound default.maxIterations = .ok c.maxIterations
  warning : valueOr d "warn_arity_mismatch" readWarning default.warnArity = .ok c.warnArity

variable {room : Nat} {d : Assoc Text Setting} {c c' : Config}

theorem ofMapping_eq_ok_iff :
    ofMapping room d = .ok c ↔ unknownNames d = [] ∧ Reads room d c ∧ c.problems = [] := by
  constructor
  · intro h
    simp only [ofMapping] at h
    split at h
    · cases h
    · rename_i hunknown
      obtain ⟨analysis, hanalysis, h⟩ := except_bind_eq_ok h
      obtain ⟨entries, hentries, h⟩ := except_bind_eq_ok h
      obtain ⟨strategy, hstrategy, h⟩ := except_bind_eq_ok h
      obtain ⟨bound, hbound, h⟩ := except_bind_eq_ok h
      obtain ⟨warning, hwarning, h⟩ := except_bind_eq_ok h
      split at h
      · rename_i hproblems
        obtain rfl := Except.ok.inj h
        exact ⟨by simpa using hunknown, ⟨hanalysis, hentries, hstrategy, hbound, hwarning⟩,
          hproblems⟩
      · cases h
  · rintro ⟨hunknown, ⟨hanalysis, hentries, hstrategy, hbound, hwarning⟩, hproblems⟩
    simp [ofMapping, hunknown, hanalysis, hentries, hstrategy, hbound, hwarning, hproblems,
      bind, Except.bind, pure, Except.pure]

/-- The order of the names does not matter, nor do names that are not looked up. -/
theorem ofMapping_congr {d' : Assoc Text Setting} (hnames : unknownNames d = unknownNames d')
    (h : ∀ name, d.get? name = d'.get? name) : ofMapping room d = ofMapping room d' := by
  simp only [ofMapping, hnames, valueOr_congr (h _)]

/-- The values of a configuration read as themselves. -/
theorem reads_fields (room : Nat) (c : Config) : Reads room c.fields c where
  analysis := rfl
  entries := rfl
  strategy := rfl
  bound := by
    show readBound (.json (c.maxIterations.elim .null .int)) = _
    cases c.maxIterations <;> rfl
  warning := rfl

theorem unknownNames_fields (c : Config) : unknownNames c.fields = [] :=
  unknownNames_eq_nil_iff.mpr (show options.filter _ = [] by decide)

/-- Under changes a mapping can be replaced by the configuration that it gives. -/
theorem ofMapping_update (h : ofMapping room d = .ok c) (e : Assoc Text Setting) :
    ofMapping room (d.update e) = ofMapping room (c.fields.update e) := by
  obtain ⟨hknown, hreads, -⟩ := ofMapping_eq_ok_iff.mp h
  have hfields := reads_fields room c
  simp only [ofMapping, unknownNames_update hknown, unknownNames_update c.unknownNames_fields,
    valueOr_update hreads.analysis hfields.analysis e,
    valueOr_update hreads.entries hfields.entries e,
    valueOr_update hreads.strategy hfields.strategy e, valueOr_update hreads.bound hfields.bound e,
    valueOr_update hreads.warning hfields.warning e]

/-- A name that is not changed keeps its value. -/
theorem Reads.get?_fields (h : Reads room (c.fields.update d) c') {name : Text}
    (hname : d.get? name = none) : c'.fields.get? name = c.fields.get? name := by
  have hbelow : (c.fields.update d).get? name = c.fields.get? name := by
    rw [Assoc.get?_update, hname, Option.none_or]
  have hkept : ∀ {α : Type} {read : Setting → Except ConfigFailure α} {kept v v' : α},
      valueOr c.fields name read kept = .ok v →
      valueOr (c.fields.update d) name read kept = .ok v' → v' = v := by
    intro α read kept v v' hv hv'
    rw [valueOr_congr hbelow, hv] at hv'
    exact (Except.ok.inj hv').symm
  have hc := reads_fields room c
  by_cases hoption : name ∈ options
  · simp only [options, List.mem_cons, List.not_mem_nil, or_false] at hoption
    rcases hoption with rfl | rfl | rfl | rfl | rfl
    · exact congrArg (fun a => some (Setting.json (.text a))) (hkept hc.analysis h.analysis)
    · exact congrArg (fun es => some (Setting.names es)) (hkept hc.entries h.entries)
    · exact congrArg (fun s => some (Setting.strategy s)) (hkept hc.strategy h.strategy)
    · exact congrArg (fun b => some (Setting.json (Option.elim b .null .int)))
        (hkept hc.bound h.bound)
    · exact congrArg (fun w => some (Setting.json (.bool w))) (hkept hc.warning h.warning)
  · rw [(c'.fields.get?_eq_none_iff name).mpr hoption, (c.fields.get?_eq_none_iff name).mpr hoption]

end Config

/-! ## Failures that are explained -/

/-- What fails has a message. -/
def Explained {α : Type} (x : Except ConfigFailure α) : Prop :=
  ∀ f, x = .error f → ∃ e, f = .error e

/-- A value can be had as a text. -/
def Setting.HasText (room : Nat) (v : Setting) : Prop := ∃ t, v.text? room = .ok t

section

variable {α β : Type} {room : Nat} {d : Assoc Text Setting}

theorem explained_ok (a : α) : Explained (.ok a) := by
  rintro f ⟨⟩

theorem Explained.cases {x : Except ConfigFailure α} (h : Explained x) :
    (∃ a, x = .ok a) ∨ ∃ e, x = .error (.error e) := by
  cases x with
  | ok a => exact Or.inl ⟨a, rfl⟩
  | error f =>
      obtain ⟨e, rfl⟩ := h f rfl
      exact Or.inr ⟨e, rfl⟩

theorem explained_error (e : ConfigError) : Explained (.error (.error e) : Except _ α) := by
  rintro f ⟨⟩
  exact ⟨e, rfl⟩

theorem explained_bind {x : Except ConfigFailure α} {f : α → Except ConfigFailure β}
    (hx : Explained x) (hf : ∀ a, Explained (f a)) : Explained (x >>= f) := by
  cases x with
  | error e =>
      rintro _ ⟨⟩
      exact hx e rfl
  | ok a => exact hf a

theorem explained_valueOr {name : Text} {read : Setting → Except ConfigFailure α} {kept : α}
    (h : ∀ v, d.get? name = some v → Explained (read v)) :
    Explained (valueOr d name read kept) := by
  unfold valueOr
  split
  · rename_i v hv
    exact h v hv
  · exact explained_ok kept

theorem explained_readAnalysis {v : Setting} (h : v.HasText room) :
    Explained (readAnalysis room v) := by
  obtain ⟨t, ht⟩ := h
  rw [readAnalysis, ht]
  exact explained_ok t

theorem explained_readEntries (v : Setting) : Explained (readEntries v) := by
  unfold readEntries
  split
  · exact explained_ok _
  · split
    · exact explained_ok _
    · exact explained_error _
  · exact explained_ok _
  · exact explained_error _

theorem explained_readStrategy {v : Setting} (h : v.HasText room) :
    Explained (readStrategy room v) := by
  obtain ⟨t, ht⟩ := h
  unfold readStrategy
  split
  · exact explained_ok _
  · rw [ht]
    refine explained_bind (explained_ok t) fun t => ?_
    split
    · exact explained_ok _
    · exact explained_error _

theorem explained_readBound (v : Setting) : Explained (readBound v) := by
  unfold readBound
  split
  · exact explained_ok _
  · exact explained_ok _
  · exact explained_error _

theorem explained_readWarning (v : Setting) : Explained (readWarning v) := by
  unfold readWarning
  split
  · exact explained_ok _
  · exact explained_error _

/-- Two options take any value, as a text. If those have one, all that goes wrong has a message. -/
theorem Config.explained_ofMapping
    (h : ∀ name ∈ (["analysis_id", "strategy"] : List Text), ∀ v, d.get? name = some v →
      v.HasText room) : Explained (Config.ofMapping room d) := by
  have hanalysis :
      Explained (valueOr d "analysis_id" (readAnalysis room) Config.default.analysis) :=
    explained_valueOr fun v hv => explained_readAnalysis (h "analysis_id" (by simp) v hv)
  have hstrategy : Explained (valueOr d "strategy" (readStrategy room) Config.default.strategy) :=
    explained_valueOr fun v hv => explained_readStrategy (h "strategy" (by simp) v hv)
  unfold Config.ofMapping
  simp only
  split
  · exact explained_error _
  · refine explained_bind hanalysis fun _ => ?_
    refine explained_bind (explained_valueOr fun v _ => explained_readEntries v) fun _ => ?_
    refine explained_bind hstrategy fun _ => ?_
    refine explained_bind (explained_valueOr fun v _ => explained_readBound v) fun _ => ?_
    refine explained_bind (explained_valueOr fun v _ => explained_readWarning v) fun _ => ?_
    split
    · exact explained_ok _
    · exact explained_error _

/-- The fields of a configuration have texts, so only a change can fail without a message. -/
theorem Config.explained_withOptions {c : Config} (hself : d.contains "self" = false)
    (h : ∀ name ∈ (["analysis_id", "strategy"] : List Text), ∀ v, d.get? name = some v →
      v.HasText room) : Explained (c.withOptions room d) := by
  rw [Config.withOptions, hself]
  refine Config.explained_ofMapping fun name hname v hv => ?_
  rw [Assoc.get?_update] at hv
  cases hd : d.get? name with
  | some u =>
      rw [hd, Option.some_or] at hv
      exact Option.some.inj hv ▸ h name hname u hd
  | none =>
      rw [hd, Option.none_or] at hv
      simp only [List.mem_cons, List.not_mem_nil, or_false] at hname
      rcases hname with rfl | rfl
      · exact ⟨c.analysis, by rw [← Option.some.inj hv]; rfl⟩
      · exact ⟨c.strategy.fullName, by rw [← Option.some.inj hv]; rfl⟩

end

end ConstFlow
