import ConstFlow.Proofs.ExitCodes

/-!
# Overriding options

A configuration can be changed again and again, and each time all of its values are checked anew. It
makes no difference whether two mappings are applied one after the other or as one: the values of a
configuration read as themselves, so what was changed first can as well be changed together with
what comes later (`Config.withOptions_update`). A request puts its flags on top of a file in this
way (`Request.configure_eq_ofMapping`).

The outcome of a change is a configuration or a message for almost all mappings. It is neither for a
mapping that names `self`, which is what the configuration itself goes by, nor where a value has to
be shown that cannot be.
-/

namespace ConstFlow

/-! ## One change after another -/

namespace Config

variable {room : Nat} {c c₁ c₂ : Config} {d₁ d₂ : Assoc Text Setting}

theorem withOptions_eq_ok_iff : c.withOptions room d₁ = .ok c₁ ↔
    d₁.contains "self" = false ∧ ofMapping room (c.fields.update d₁) = .ok c₁ := by
  unfold withOptions
  cases d₁.contains "self" <;> simp

/-- To change a configuration twice is to change it once, by both mappings. -/
theorem withOptions_update (h : c.withOptions room d₁ = .ok c₁) :
    c₁.withOptions room d₂ = c.withOptions room (d₁.update d₂) := by
  obtain ⟨hself, hfirst⟩ := withOptions_eq_ok_iff.mp h
  have hknown : unknownNames d₁ = [] := by
    rw [← unknownNames_update c.unknownNames_fields]
    exact (ofMapping_eq_ok_iff.mp hfirst).1
  have hnames : unknownNames (c.fields.update (d₁.update d₂)) =
      unknownNames ((c.fields.update d₁).update d₂) := by
    rw [unknownNames_update c.unknownNames_fields, unknownNames_update hknown,
      unknownNames_update (ofMapping_eq_ok_iff.mp hfirst).1]
  have hmerged : ofMapping room (c.fields.update (d₁.update d₂)) =
      ofMapping room (c₁.fields.update d₂) := by
    rw [← ofMapping_update hfirst d₂]
    refine ofMapping_congr hnames fun name => ?_
    rw [Assoc.get?_update, Assoc.get?_update, Assoc.get?_update, Assoc.get?_update, Option.or_assoc]
  rw [withOptions, withOptions, Assoc.contains_update, hself, Bool.or_false, hmerged]

/-- What is not named keeps its value. -/
theorem get?_fields_withOptions (h : c.withOptions room d₁ = .ok c₁) {name : Text}
    (hname : d₁.get? name = none) : c₁.fields.get? name = c.fields.get? name :=
  (ofMapping_eq_ok_iff.mp (withOptions_eq_ok_iff.mp h).2).2.1.get?_fields hname

theorem problems_withOptions (h : c.withOptions room d₁ = .ok c₁) : c₁.problems = [] :=
  (ofMapping_eq_ok_iff.mp (withOptions_eq_ok_iff.mp h).2).2.2

end Config

/-! ## Requests -/

namespace Command

/-- A configuration file that holds a record. -/
def HoldsRecord (host : Host) (path : Text) (fields : List (Text × Json)) : Prop :=
  ∃ cs, host.HoldsText path cs ∧ Json.read host.machine.reading cs = .ok (.record fields)

variable {host : Host} {path : Text} {fields : List (Text × Json)} {r : Request} {base : Config}

theorem HoldsRecord.loadConfig_eq (h : HoldsRecord host path fields) :
    loadConfig host path =
      (Config.ofMapping host.machine.showing (Config.mapping fields)).mapError .ofConfig := by
  obtain ⟨cs, hcs, hjson⟩ := h
  rw [loadConfig_of_text hcs, configOfText, hjson]

theorem HoldsRecord.base_eq (h : HoldsRecord host path fields) (hpath : r.config = some path)
    (hnamed : path.isEmpty = false)
    (hbase : Config.ofMapping host.machine.showing (Config.mapping fields) = .ok base) :
    r.base host = .ok base := by
  rw [Request.base, hpath]
  simp only [hnamed, Bool.false_eq_true, if_false, h.loadConfig_eq, hbase]
  rfl

/-- The mapping of a file with the flags of a request on top, as a change of what the file gives. -/
theorem Request.ofMapping_overrides {room : Nat} {d : Assoc Text Setting}
    (h : Config.ofMapping room d = .ok base) :
    Config.ofMapping room (d.update r.overrides) = base.withOptions room r.overrides := by
  rw [Config.withOptions, r.contains_self_overrides, Config.ofMapping_update h]
  rfl

/-- The flags of a request go on top of the mapping that its configuration comes from. -/
theorem Request.configure_eq_ofMapping {d : Assoc Text Setting} (hbase : r.base host = .ok base)
    (hd : Config.ofMapping host.machine.showing d = .ok base) :
    (r.configure host).result =
      (Config.ofMapping host.machine.showing (d.update r.overrides)).mapError .ofConfig := by
  rw [result_configure, hbase]
  show (if r.changes = [] then Except.ok base
    else (base.withOptions host.machine.showing r.overrides).mapError Trouble.ofConfig) = _
  split
  · rename_i hnone
    have hkeep : d.update r.overrides = d := by
      rw [Assoc.update, r.entries_overrides, hnone]
      rfl
    rw [hkeep, hd]
    rfl
  · rw [ofMapping_overrides hd]

end Command

open Command in
/-- **Overrides compose.** A configuration that is made from a mapping, or by changing another, has
no problems. To change one twice is to change it once by both mappings, with the same configuration
or the same failure, and what neither names keeps its value. Unless a change names `self`, or gives
an option a value that has no text where a text is wanted, the outcome is a configuration or an
error with a message. The flags of a request on top of a configuration file are again one mapping
updated with another, and about those there is always a message. -/
theorem overrides_compose (room : Nat) (c : Config) (d₁ d₂ : Assoc Text Setting) :
    (∀ c', Config.ofMapping room d₁ = .ok c' ∨ c.withOptions room d₁ = .ok c' →
      c'.problems = []) ∧
    (∀ c₁, c.withOptions room d₁ = .ok c₁ →
      c₁.withOptions room d₂ = c.withOptions room (d₁.update d₂) ∧
      ∀ c₂, c₁.withOptions room d₂ = .ok c₂ →
        ∀ name, d₁.get? name = none → d₂.get? name = none →
          c₂.fields.get? name = c.fields.get? name) ∧
    (d₁.contains "self" = false →
      (∀ name ∈ (["analysis_id", "strategy"] : List Text), ∀ v, d₁.get? name = some v →
        v.HasText room) →
      (∃ c', c.withOptions room d₁ = .ok c') ∨ ∃ e, c.withOptions room d₁ = .error (.error e)) ∧
    ∀ (r : Request) (host : Host) (path : Text) (fields : List (Text × Json)) (base : Config),
      r.config = some path → path.isEmpty = false → HoldsRecord host path fields →
      Config.ofMapping host.machine.showing (Config.mapping fields) = .ok base →
        (r.configure host).result = (Config.ofMapping host.machine.showing
          ((Config.mapping fields).update r.overrides)).mapError .ofConfig ∧
        ((∃ c', (r.configure host).result = .ok c') ∨
          ∃ e, (r.configure host).result = .error (.config e)) := by
  refine ⟨?_, ?_, fun hself htexts => (Config.explained_withOptions hself htexts).cases, ?_⟩
  · rintro c' (h | h)
    · exact (Config.ofMapping_eq_ok_iff.mp h).2.2
    · exact Config.problems_withOptions h
  · intro c₁ h₁
    have hupdate : c₁.withOptions room d₂ = c.withOptions room (d₁.update d₂) :=
      Config.withOptions_update h₁
    refine ⟨hupdate, fun c₂ h₂ name hd₁ hd₂ => ?_⟩
    refine Config.get?_fields_withOptions (hupdate.symm.trans h₂) ?_
    rw [Assoc.get?_update, hd₁, hd₂]
    rfl
  · intro r host path fields base hpath hnamed hholds hbase
    have hconfigure := Request.configure_eq_ofMapping (hholds.base_eq hpath hnamed hbase) hbase
    refine ⟨hconfigure, ?_⟩
    rw [hconfigure, Request.ofMapping_overrides hbase]
    rcases (r.explained_overrides host.machine.showing base).cases with ⟨c', h⟩ | ⟨e, h⟩
    · exact Or.inl ⟨c', by rw [h]; rfl⟩
    · exact Or.inr ⟨e, by rw [h]; rfl⟩

namespace Sample

/-- From the back of the worklist, nine visits at most. -/
def nineVisits : List (Text × Json) := [("strategy", .text "LIFO"), ("max_iterations", .int 9)]

/-- No visit at all, which is no bound. -/
def noVisits : List (Text × Json) := [("max_iterations", .int 0)]

/-- A change that bears the name of what is changed. -/
def selfChange : List (Text × Json) := [("self", .int 1)]

/-- A file with the options of `nineVisits`, the bound given twice. -/
def optionFile : String :=
  "\x7b\"strategy\": \"LIFO\", \"max_iterations\": 8, \"max_iterations\": 9\x7d"

def optionHost : Host :=
  { Command.Sample.host with
    read := fun path =>
      if path = "options.json" then .ok optionFile.toUTF8 else .error .notFound }

/-- Whether the options of `nineVisits` were read. -/
def readsNineVisits : Except Json.ReadError Json → Bool
  | .ok (.record [(a, .text s), (b, .int n)]) =>
    a = "strategy" ∧ s = "LIFO" ∧ b = "max_iterations" ∧ n = 9
  | _ => false

theorem holdsRecord : Command.HoldsRecord optionHost "options.json" nineVisits := by
  have hread : readsNineVisits (Json.read 988 (Text.foldNewlines optionFile.toList)) = true := by
    decide +kernel
  refine ⟨Text.foldNewlines optionFile.toList,
    ⟨rfl, optionFile.toUTF8, optionFile, rfl, by decide +kernel, rfl⟩, ?_⟩
  unfold readsNineVisits at hread
  split at hread
  · rename_i hfields
    obtain ⟨rfl, rfl, rfl, rfl⟩ := of_decide_eq_true hread
    exact hfields
  · cases hread

/-- A request that names the file, and other visits at most. -/
def rebounded : Command.Request :=
  { Command.Request.blank .check .warning with
    config := some "options.json", maxIterations := some (some 7), entries := [some "go"] }

end Sample

/-- A change that names `self` comes to nothing, neither on its own nor with others, and there is no
message about that. -/
theorem self_not_overridden :
    let d := Config.mapping Sample.selfChange
    Config.default.withOptions 990 .empty = .ok .default ∧
      Config.default.withOptions 990 d = .error .selfNamed ∧
      Config.default.withOptions 990 (Assoc.empty.update d) = .error .selfNamed ∧
      Config.ofMapping 990 d = .error (.error (.unknownOptions ["self"])) := by
  have hknown : unknownNames (Config.mapping Sample.selfChange) = ["self"] := by decide +kernel
  refine ⟨?_, rfl, rfl, ?_⟩
  · exact Config.withOptions_eq_ok_iff.mpr ⟨rfl, Config.ofMapping_eq_ok_iff.mpr
      ⟨Config.unknownNames_fields _, Config.reads_fields _ _, rfl⟩⟩
  · simp only [Config.ofMapping, hknown]
    rfl

open Command in
theorem overrides_compose_sample :
    let c₁ : Config := ⟨analysisName, ["main"], .lifo, some 9, false⟩
    let d₁ := Config.mapping Sample.nineVisits
    let d₂ := Config.mapping Sample.noVisits
    Config.default.withOptions 990 d₁ = .ok c₁ ∧
      c₁.withOptions 990 d₂ = .error (.error (.invalid [.boundNotPositive])) ∧
      Config.default.withOptions 990 (d₁.update d₂) =
        .error (.error (.invalid [.boundNotPositive])) ∧
      c₁.problems = [] ∧
      HoldsRecord Sample.optionHost "options.json" Sample.nineVisits ∧
      (Sample.rebounded.configure Sample.optionHost).result =
        .ok ⟨analysisName, ["go"], .lifo, some 7, false⟩ := by
  intro c₁ d₁ d₂
  obtain ⟨hvalid, hcompose, -, hrequest⟩ := overrides_compose 990 Config.default d₁ d₂
  have hfile : Config.ofMapping 990 d₁ = .ok c₁ :=
    Config.ofMapping_eq_ok_iff.mpr
      ⟨unknownNames_eq_nil_iff.mpr (by decide), ⟨rfl, rfl, rfl, rfl, rfl⟩, rfl⟩
  have hfirst : Config.default.withOptions 990 d₁ = .ok c₁ :=
    Config.withOptions_eq_ok_iff.mpr ⟨rfl, Config.ofMapping_eq_ok_iff.mpr
      ⟨unknownNames_eq_nil_iff.mpr (by decide), ⟨rfl, rfl, rfl, rfl, rfl⟩, rfl⟩⟩
  have hsecond : c₁.withOptions 990 d₂ = .error (.error (.invalid [.boundNotPositive])) := by
    have hknown : unknownNames (c₁.fields.update d₂) = [] :=
      unknownNames_eq_nil_iff.mpr (by decide)
    have hself : d₂.contains "self" = false := rfl
    rw [Config.withOptions, hself]
    simp only [Config.ofMapping, hknown]
    rfl
  have hresult := (hrequest Sample.rebounded Sample.optionHost "options.json" _ c₁ rfl rfl
    Sample.holdsRecord hfile).1
  have hmerged : Config.ofMapping 990 (d₁.update Sample.rebounded.overrides) =
      .ok ⟨analysisName, ["go"], .lifo, some 7, false⟩ :=
    Config.ofMapping_eq_ok_iff.mpr
      ⟨unknownNames_eq_nil_iff.mpr (by decide), ⟨rfl, rfl, rfl, rfl, rfl⟩, rfl⟩
  refine ⟨hfirst, hsecond, (hcompose c₁ hfirst).1.symm.trans hsecond, hvalid c₁ (Or.inr hfirst),
    Sample.holdsRecord, hresult.trans ?_⟩
  exact congrArg (Except.mapError Trouble.ofConfig) hmerged

end ConstFlow
