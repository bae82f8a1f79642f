import ConstFlow.Command.Run
import ConstFlow.Proofs.ConfigMappings
import ConstFlow.Proofs.ConstantRange

/-!
# Exit codes

A request that is carried out ends with zero. If it is not, it ends with one when there is a message
about what is wrong, and with two when there is none. Files that hold something wrong should be a
matter of messages, and mostly are: malformed configurations and programs have one
(`Request.Malformed`). But some contents of files break the program before anybody can find words
for them, and some results cannot be delivered. `Request.Breaks` lists all of these, and there are
no others, whatever the files, the standard streams and the machine are like.

A request is a chain of stages that may fail. So it is enough to know when a stage is `Silent`, that
is, fails without a message; `silent_bind` puts the stages together. Graphs and the solver never
are: a graph that was built has a fact for every node, and only a bound stops the solver early.
Neither are the options of a request, which are texts and names already.
-/

namespace ConstFlow

/-! ## Files that hold texts -/

/-- A file is there, and its contents are a text. -/
structure Host.HoldsText (host : Host) (path : Text) (cs : List Char) : Prop where
  sound : Path.fault? (Path.normal path) = none
  holds : ∃ bytes s, host.read (Path.normal path) = .ok bytes ∧ String.fromUTF8? bytes = some s ∧
    cs = Text.foldNewlines s.toList

/-- No file can have the path, or the file is there and its contents are no text. -/
inductive Host.HoldsNoText (host : Host) (path : Text) : Prop where
  | path {f : Path.Fault} (fault : Path.fault? (Path.normal path) = some f)
  | bytes {bytes : ByteArray} (sound : Path.fault? (Path.normal path) = none)
      (opened : host.read (Path.normal path) = .ok bytes) (decoded : String.fromUTF8? bytes = none)

namespace Host

variable {host : Host} {path : Text} {cs cs' : List Char}

theorem HoldsText.unique (h : host.HoldsText path cs) (h' : host.HoldsText path cs') :
    cs = cs' := by
  obtain ⟨bytes, s, hread, hs, rfl⟩ := h.holds
  obtain ⟨bytes', s', hread', hs', rfl⟩ := h'.holds
  obtain rfl := Except.ok.inj (hread.symm.trans hread')
  obtain rfl := Option.some.inj (hs.symm.trans hs')
  rfl

theorem HoldsText.not_holdsNoText (h : host.HoldsText path cs) : ¬host.HoldsNoText path := by
  obtain ⟨bytes, s, hread, hs, -⟩ := h.holds
  intro h'
  cases h' with
  | path fault => cases h.sound.symm.trans fault
  | bytes _ opened decoded =>
      obtain rfl := Except.ok.inj (hread.symm.trans opened)
      cases hs.symm.trans decoded

/-- A file that cannot be read holds neither a text nor anything else. -/
theorem holds_nothing {e : FileError} (hsound : Path.fault? (Path.normal path) = none)
    (hread : host.read (Path.normal path) = .error e) :
    ¬host.HoldsNoText path ∧ ∀ cs, ¬host.HoldsText path cs := by
  refine ⟨fun h => ?_, fun cs h => ?_⟩
  · cases h with
    | path fault => cases hsound.symm.trans fault
    | bytes _ opened => cases hread.symm.trans opened
  · obtain ⟨bytes, s, hread', -⟩ := h.holds
    cases hread.symm.trans hread'

/-- A file holds a text, or none, or cannot be read. -/
theorem text_cases (host : Host) (path : Text) :
    host.HoldsNoText path ∨ (∃ cs, host.HoldsText path cs) ∨
      Path.fault? (Path.normal path) = none ∧ ∃ e, host.read (Path.normal path) = .error e := by
  cases hfault : Path.fault? (Path.normal path) with
  | some f => exact Or.inl (.path hfault)
  | none =>
      cases hread : host.read (Path.normal path) with
      | error e => exact Or.inr (Or.inr ⟨rfl, e, rfl⟩)
      | ok bytes =>
          cases hs : String.fromUTF8? bytes with
          | none => exact Or.inl (.bytes hfault hread hs)
          | some s => exact Or.inr (Or.inl ⟨_, hfault, bytes, s, hread, hs, rfl⟩)

end Host

namespace Command

/-! ## Inputs that are wrong -/

/-- A configuration file that nobody has a message for. -/
inductive ConfigBreaks (host : Host) (path : Text) : Prop where
  | file (noText : host.HoldsNoText path)
  /-- A number is too long, or values lie too deep. -/
  | json {cs : List Char} {e : Json.ReadError} (holds : host.HoldsText path cs)
      (failed : Json.read host.machine.reading cs = .error e) (wellFormed : e ≠ .malformed)
  /-- A value has to be shown, and cannot be. -/
  | values {cs : List Char} {fields : List (Text × Json)} (holds : host.HoldsText path cs)
      (found : Json.read host.machine.reading cs = .ok (.record fields))
      (unexplained : ¬Explained (Config.ofMapping host.machine.showing (Config.mapping fields)))

/-- The text that a request has its program from. -/
inductive Request.SourceText (r : Request) (host : Host) : Text → Prop where
  | typed {text : Text} (input : r.input = "-") (typed : host.stdin = some text) :
      SourceText r host text
  | file {cs : List Char} (input : r.input ≠ "-") (holds : host.HoldsText r.input cs) :
      SourceText r host (Text.ofChars cs)

/-- The name of the source in messages. -/
def Request.sourceName (r : Request) : Text :=
  if r.input = "-" then "<stdin>" else Path.normal r.input

/-- A program that nobody has a message for. -/
inductive Request.SourceBreaks (r : Request) (host : Host) : Prop where
  | typed (input : r.input = "-") (noText : host.stdin = none)
  | file (input : r.input ≠ "-") (noText : host.HoldsNoText r.input)
  | literal {text : Text} {ds : List Source.Decl} {d : Source.Decl} {n : Source.Numeral}
      (given : r.SourceText host text) (matched : Source.readDecls text = .ok ds) (decl : d ∈ ds)
      (literal : n ∈ d.numerals) (tooLong : n.tooLong = true)

/-- The configuration that the options of a request change. -/
def Request.base (r : Request) (host : Host) : Except Trouble Config :=
  match r.config with
  | none => .ok .default
  | some path => if path.isEmpty then .ok .default else loadConfig host path

/-- What is to be delivered cannot be, and nobody has a message for that. -/
inductive Printed.Breaks (q : Printed) (host : Host) : Prop where
  /-- The standard output has no form for a piece. -/
  | piece {piece : Text} (toScreen : q.output = none) (member : piece ∈ q.stdout)
      (unprintable : host.prints piece = false)
  | path {path content : Text} {f : Path.Fault} (toFile : q.output = some (path, content))
      (fault : Path.fault? path = some f)
  | content {path content : Text} {e : Text.EncodeError} (toFile : q.output = some (path, content))
      (sound : Path.fault? path = none) (created : host.create path = .ok ())
      (encoded : Text.encode content = .error e)

/-- Something about a request breaks that nobody has a message for. -/
inductive Request.Breaks (r : Request) (host : Host) : Prop where
  | config {path : Text} (given : r.config = some path) (named : path.isEmpty = false)
      (breaks : ConfigBreaks host path)
  | source {c : Config} (configured : (r.configure host).result = .ok c)
      (breaks : r.SourceBreaks host)
  /-- A method is asked for in the report without saying which. -/
  | method {p : Prepared} {g : Supergraph} {t : Table} (verb : r.verb = .analyze)
      (prepared : (r.prepare host).result = .ok p)
      (analysed : (analyzeGraph p.graph p.config).result = .ok (g, t)) (nameless : none ∈ r.methods)
  | delivery {q : Printed} (done : (r.carryOut host).result = .ok q) (breaks : q.Breaks host)

/-! ## Stages without their records -/

namespace Told

variable {α β : Type}

@[simp] theorem result_bind (t : Told α) (f : α → Told β) :
    (t >>= f).result = t.result >>= fun a => (f a).result := by
  show (t.andThen f).result = _
  unfold andThen
  split <;> rename_i h <;> rw [h] <;> rfl

@[simp] theorem result_pure (a : α) : (pure a : Told α).result = .ok a := rfl

@[simp] theorem result_tell (log : List Log.Record) : (tell log).result = .ok () := rfl

@[simp] theorem result_ofExcept (x : Except Trouble α) : (ofExcept x).result = x := rfl

end Told

theorem decode_none {bytes : ByteArray} (h : String.fromUTF8? bytes = none) :
    decode bytes = .error .notText := by rw [decode, h]

theorem decode_some {bytes : ByteArray} {s : String} (h : String.fromUTF8? bytes = some s) :
    decode bytes = .ok (Text.foldNewlines s.toList) := by rw [decode, h]

section

variable {host : Host} {path : Text} {cs : List Char}

theorem loadConfig_of_noText (h : host.HoldsNoText path) :
    ∃ b, loadConfig host path = .error (.breakdown b) := by
  cases h with
  | path fault => exact ⟨_, by rw [loadConfig, fault]⟩
  | bytes sound opened decoded =>
      refine ⟨.notText, ?_⟩
      rw [loadConfig, sound]
      simp only [opened, readConfig, decode_none decoded]

theorem loadConfig_of_text (h : host.HoldsText path cs) :
    loadConfig host path = configOfText host.machine cs (Path.normal path) := by
  obtain ⟨bytes, s, hread, hs, rfl⟩ := h.holds
  rw [loadConfig, h.sound]
  simp only [hread, readConfig, decode_some hs]

theorem loadSource_of_noText (h : host.HoldsNoText path) :
    ∃ b, loadSource host path = .error (.breakdown b) := by
  cases h with
  | path fault => exact ⟨_, by rw [loadSource, fault]⟩
  | bytes sound opened decoded =>
      refine ⟨.notText, ?_⟩
      rw [loadSource, sound]
      simp only [opened, readSource, decode_none decoded]
      rfl

theorem loadSource_of_text (h : host.HoldsText path cs) :
    loadSource host path = .ok (Source.read (Text.ofChars cs) (Path.normal path)) := by
  obtain ⟨bytes, s, hread, hs, rfl⟩ := h.holds
  rw [loadSource, h.sound]
  simp only [hread, readSource, decode_some hs]
  rfl

end

namespace Request

variable (r : Request) (host : Host)

theorem result_configure :
    (r.configure host).result = r.base host >>= fun c =>
      if r.changes = [] then .ok c
      else (c.withOptions host.machine.showing r.overrides).mapError .ofConfig := by
  unfold configure base
  generalize r.overrides = d
  generalize r.changes = changes
  have hchange : ∀ c : Config,
      (Told.ofExcept ((c.withOptions host.machine.showing d).mapError .ofConfig) >>=
        fun c => Told.tell [c.record] >>= fun _ => pure c).result =
          (c.withOptions host.machine.showing d).mapError .ofConfig := by
    intro c
    cases c.withOptions host.machine.showing d <;> rfl
  cases r.config with
  | none =>
      cases changes with
      | nil => rfl
      | cons change changes => exact hchange .default
  | some path =>
      by_cases hempty : path.isEmpty = true
      · simp only [if_pos hempty]
        cases changes with
        | nil => rfl
        | cons change changes => exact hchange .default
      · simp only [if_neg hempty]
        cases loadConfig host path with
        | error t => rfl
        | ok c =>
            cases changes with
            | nil => rfl
            | cons change changes => exact hchange c

theorem result_program :
    (r.program host).result =
      (if r.input = "-" then typedSource host else loadSource host r.input) >>= fun reading =>
        reading.result.mapError .ofParseError := by
  simp only [program, Told.result_bind, Told.result_ofExcept, Told.result_tell]
  rfl

variable {r host} in
theorem SourceText.result_program {text : Text} (h : r.SourceText host text) :
    (r.program host).result = (Source.parse text r.sourceName).mapError .ofParseError := by
  rw [Request.result_program]
  cases h with
  | typed input typed =>
      rw [if_pos input, typedSource, typed, sourceName, if_pos input]
      rfl
  | file input holds =>
      rw [if_neg input, loadSource_of_text holds, sourceName, if_neg input]
      rfl

theorem result_prepare :
    (r.prepare host).result = (r.configure host).result >>= fun c =>
      (r.program host).result >>= fun p =>
        (Supergraph.build p c.entries).mapError (fun e => .analysis (.graph e)) >>= fun g =>
          .ok ⟨c, p, g⟩ := by
  simp only [prepare, Told.result_bind, Told.result_ofExcept, Told.result_tell, Told.result_pure]
  rfl

theorem result_carryOut :
    (r.carryOut host).result =
      (r.prepare host).result >>= fun p => (r.perform host.color p).result := by
  rw [carryOut, Told.result_bind]

end Request

/-! ## Silent stages -/

/-- A stage fails, and there is no message. -/
def Silent {α : Type} (x : Except Trouble α) : Prop := ∃ t, x = .error t ∧ t.message? = none

section

variable {α β : Type} {host : Host} {path : Text} {r : Request}

theorem silent_bind {x : Except Trouble α} {f : α → Except Trouble β} :
    Silent (x >>= f) ↔ Silent x ∨ ∃ a, x = .ok a ∧ Silent (f a) := by
  cases x <;> simp [Silent, bind, Except.bind]

theorem silent_ok_bind {a : α} {f : α → Except Trouble β} :
    Silent (.ok a >>= f) ↔ Silent (f a) := Iff.rfl

theorem not_silent_ok (a : α) : ¬Silent (.ok a) := by
  rintro ⟨t, ht, -⟩
  cases ht

theorem silent_error {t : Trouble} : Silent (.error t : Except Trouble α) ↔ t.message? = none := by
  simp [Silent]

theorem silent_breakdown (b : Breakdown) : Silent (.error (.breakdown b) : Except Trouble α) :=
  silent_error.mpr rfl

theorem not_silent_config (e : ConfigError) : ¬Silent (.error (.config e) : Except Trouble α) :=
  fun h => by cases silent_error.mp h

/-- Trouble that always has a message makes nothing silent. -/
theorem not_silent_mapError {ε : Type} {f : ε → Trouble} (hf : ∀ e, (f e).message? ≠ none)
    (x : Except ε α) : ¬Silent (x.mapError f) := by
  cases x with
  | error e => exact fun h => hf e (silent_error.mp h)
  | ok a => exact not_silent_ok a

/-- What is explained about a configuration is told. -/
theorem silent_ofConfig {x : Except ConfigFailure α} :
    Silent (x.mapError .ofConfig) ↔ ¬Explained x := by
  cases x with
  | ok a => exact iff_of_false (not_silent_ok a) (not_not_intro (explained_ok a))
  | error f =>
      have hexplained : Explained (.error f : Except ConfigFailure α) ↔ ∃ e, f = .error e :=
        ⟨fun h => h f rfl, by rintro ⟨e, rfl⟩; exact explained_error e⟩
      rw [hexplained]
      cases f with
      | error e => exact iff_of_false (not_silent_config e) (not_not_intro ⟨e, rfl⟩)
      | unshown e => exact iff_of_true (silent_breakdown _) (by simp)
      | selfNamed => exact iff_of_true (silent_breakdown _) (by simp)

/-- What counts about a file that is a text is how the text is read. -/
theorem configBreaks_iff {cs : List Char} (h : host.HoldsText path cs) :
    ConfigBreaks host path ↔
      (∃ e, Json.read host.machine.reading cs = .error e ∧ e ≠ .malformed) ∨
      ∃ fields, Json.read host.machine.reading cs = .ok (.record fields) ∧
        ¬Explained (Config.ofMapping host.machine.showing (Config.mapping fields)) := by
  constructor
  · intro hbreaks
    cases hbreaks with
    | file noText => exact absurd noText h.not_holdsNoText
    | json holds failed wellFormed =>
        obtain rfl := h.unique holds
        exact Or.inl ⟨_, failed, wellFormed⟩
    | values holds found unexplained =>
        obtain rfl := h.unique holds
        exact Or.inr ⟨_, found, unexplained⟩
  · rintro (⟨e, failed, wellFormed⟩ | ⟨fields, found, unexplained⟩)
    · exact .json h failed wellFormed
    · exact .values h found unexplained

theorem silent_loadConfig : Silent (loadConfig host path) ↔ ConfigBreaks host path := by
  rcases host.text_cases path with hno | ⟨cs, hcs⟩ | ⟨hsound, e, hread⟩
  · obtain ⟨b, hb⟩ := loadConfig_of_noText hno
    rw [hb]
    exact iff_of_true (silent_breakdown b) (.file hno)
  · rw [configBreaks_iff hcs, loadConfig_of_text hcs, configOfText]
    cases hj : Json.read host.machine.reading cs with
    | error e =>
        cases e with
        | malformed => exact iff_of_false (not_silent_config _) (by simp)
        | _ => exact iff_of_true (silent_breakdown _) (Or.inl ⟨_, rfl, by simp⟩)
    | ok j =>
        cases j with
        | record fields => simpa using silent_ofConfig
        | _ => exact iff_of_false (not_silent_config _) (by simp)
  · rw [loadConfig, hsound]
    simp only [hread]
    obtain ⟨hno, htext⟩ := Host.holds_nothing hsound hread
    refine iff_of_false (not_silent_config _) fun h => ?_
    cases h with
    | file noText => exact hno noText
    | json holds => exact htext _ holds
    | values holds => exact htext _ holds

/-! ## Options of a request -/

theorem Request.nodup_changes (r : Request) : (r.changes.map Prod.fst).Nodup := by
  have hsub : (r.changes.map Prod.fst).Sublist
      ["entry_methods", "strategy", "max_iterations", "warn_arity_mismatch"] := by
    unfold changes
    cases r.entries.isEmpty <;> cases r.strategy <;> cases r.maxIterations <;> cases r.warnArity <;>
      simp
  exact hsub.nodup (by decide)

theorem Request.entries_overrides (r : Request) : r.overrides.entries = r.changes :=
  Assoc.entries_foldl_set r.changes .empty r.nodup_changes

/-- A request names no analysis, and its strategy by a text. -/
theorem Request.mem_changes {name : Text} {v : Setting} (h : (name, v) ∈ r.changes) :
    name = "entry_methods" ∨ name = "max_iterations" ∨ name = "warn_arity_mismatch" ∨
      name = "strategy" ∧ ∃ s : Strategy, v = .json (.text s.name) := by
  simp only [changes, List.flatten_cons, List.flatten_nil, List.append_nil, List.mem_append] at h
  rcases h with h | h | h | h <;> split at h
  · cases h
  · exact Or.inl (congrArg Prod.fst (List.mem_singleton.mp h))
  · obtain ⟨rfl, rfl⟩ := Prod.mk.inj (List.mem_singleton.mp h)
    exact Or.inr (Or.inr (Or.inr ⟨rfl, _, rfl⟩))
  · cases h
  · exact Or.inr (Or.inl (congrArg Prod.fst (List.mem_singleton.mp h)))
  · cases h
  · exact Or.inr (Or.inr (Or.inl (congrArg Prod.fst (List.mem_singleton.mp h))))
  · cases h

theorem Request.contains_self_overrides (r : Request) : r.overrides.contains "self" = false := by
  have hnone : r.overrides.get? "self" = none := by
    rw [Assoc.get?_eq_none_iff, Assoc.keys, r.entries_overrides]
    intro h
    obtain ⟨⟨name, v⟩, hmem, rfl⟩ := List.mem_map.mp h
    rcases mem_changes hmem with h | h | h | ⟨h, -⟩ <;> exact absurd h (by decide)
  rw [Assoc.contains_eq, hnone]
  rfl

theorem Request.explained_overrides (r : Request) (room : Nat) (c : Config) :
    Explained (c.withOptions room r.overrides) := by
  refine Config.explained_withOptions r.contains_self_overrides fun name hname v hv => ?_
  rw [← Assoc.mem_entries_iff, r.entries_overrides] at hv
  simp only [List.mem_cons, List.not_mem_nil, or_false] at hname
  rcases mem_changes hv with h | h | h | ⟨-, s, rfl⟩
  · subst h
    exact absurd hname (by decide)
  · subst h
    exact absurd hname (by decide)
  · subst h
    exact absurd hname (by decide)
  · exact ⟨s.name, rfl⟩

/-! ## Stages of a request -/

theorem silent_configure : Silent (r.configure host).result ↔
    ∃ path, r.config = some path ∧ path.isEmpty = false ∧ ConfigBreaks host path := by
  have hchanges : ∀ c : Config, ¬Silent (if r.changes = [] then .ok c
      else (c.withOptions host.machine.showing r.overrides).mapError .ofConfig) := by
    intro c
    split
    · exact not_silent_ok c
    · rw [silent_ofConfig]
      exact not_not_intro (r.explained_overrides _ c)
  rw [Request.result_configure, silent_bind, or_iff_left fun ⟨c, _, hc⟩ => hchanges c hc,
    Request.base]
  cases hconfig : r.config with
  | none => simp [not_silent_ok]
  | some path =>
      simp only [Option.some.injEq, exists_eq_left']
      cases path.isEmpty with
      | true => simp [not_silent_ok]
      | false => simp [silent_loadConfig]

theorem parse_eq_literalTooLong_iff {text file : Text} :
    Source.parse text file = .error .literalTooLong ↔
      ∃ ds, Source.readDecls text = .ok ds ∧ ∃ d ∈ ds, ∃ n ∈ d.numerals, n.tooLong = true := by
  unfold Source.parse Source.read
  cases hread : Source.readDecls text with
  | error offset => simp [Source.Reading.result]
  | ok ds =>
      simp only
      by_cases hlong : (ds.any fun d => d.numerals.any Source.Numeral.tooLong) = true
      · rw [if_pos hlong]
        simpa [Source.Reading.result] using hlong
      · rw [if_neg hlong]
        refine iff_of_false ?_ fun ⟨ds', hds', h⟩ => hlong (by
          obtain rfl := Except.ok.inj hds'
          simpa using h)
        split <;> simp [Source.Reading.result]

theorem Request.SourceText.unique {text text' : Text} (h : r.SourceText host text)
    (h' : r.SourceText host text') : text = text' := by
  cases h with
  | typed input typed =>
      cases h' with
      | typed _ typed' => exact Option.some.inj (typed.symm.trans typed')
      | file input' => exact absurd input input'
  | file input holds =>
      cases h' with
      | typed input' => exact absurd input' input
      | file _ holds' => rw [holds.unique holds']

/-- A program that is a text breaks only by its literals. -/
theorem Request.SourceText.breaks_iff {text : Text} (h : r.SourceText host text) :
    r.SourceBreaks host ↔ Source.parse text r.sourceName = .error .literalTooLong := by
  rw [parse_eq_literalTooLong_iff]
  constructor
  · intro hbreaks
    cases hbreaks with
    | literal given matched decl literal tooLong =>
        obtain rfl := h.unique given
        exact ⟨_, matched, _, decl, _, literal, tooLong⟩
    | typed input noText =>
        cases h with
        | typed _ typed => cases noText.symm.trans typed
        | file input' => exact absurd input input'
    | file input noText =>
        cases h with
        | typed input' => exact absurd input' input
        | file _ holds => exact absurd noText holds.not_holdsNoText
  · rintro ⟨ds, matched, d, decl, n, literal, tooLong⟩
    exact .literal h matched decl literal tooLong

theorem Request.SourceText.silent_program {text : Text} (h : r.SourceText host text) :
    Silent (r.program host).result ↔ r.SourceBreaks host := by
  rw [h.result_program, h.breaks_iff]
  cases Source.parse text r.sourceName with
  | ok p => exact iff_of_false (not_silent_ok p) (by simp)
  | error e =>
      cases e with
      | rejected j => exact iff_of_false (fun h => by cases silent_error.mp h) (by simp)
      | literalTooLong => exact iff_of_true (silent_breakdown _) rfl

theorem silent_program : Silent (r.program host).result ↔ r.SourceBreaks host := by
  by_cases hinput : r.input = "-"
  · cases hstdin : host.stdin with
    | some text => exact (Request.SourceText.typed hinput hstdin).silent_program
    | none =>
        rw [Request.result_program, if_pos hinput, typedSource, hstdin]
        exact iff_of_true (silent_breakdown _) (.typed hinput hstdin)
  · rcases host.text_cases r.input with hno | ⟨cs, hcs⟩ | ⟨hsound, e, hread⟩
    · obtain ⟨b, hb⟩ := loadSource_of_noText hno
      rw [Request.result_program, if_neg hinput, hb]
      exact iff_of_true (silent_breakdown b) (.file hinput hno)
    · exact (Request.SourceText.file hinput hcs).silent_program
    · rw [Request.result_program, if_neg hinput, loadSource, hsound]
      simp only [hread]
      obtain ⟨hno, htext⟩ := Host.holds_nothing hsound hread
      refine iff_of_false (fun h => by cases silent_error.mp h) fun h => ?_
      cases h with
      | typed input => exact hinput input
      | file _ noText => exact hno noText
      | literal given =>
          cases given with
          | typed input => exact hinput input
          | file _ holds => exact htext _ holds

theorem silent_prepare : Silent (r.prepare host).result ↔
    Silent (r.configure host).result ∨
      ∃ c, (r.configure host).result = .ok c ∧ Silent (r.program host).result := by
  have hgraph : ∀ (c : Config) (p : Program),
      ¬Silent ((Supergraph.build p c.entries).mapError (fun e => .analysis (.graph e)) >>= fun g =>
        .ok (⟨c, p, g⟩ : Prepared)) := by
    intro c p h
    rcases silent_bind.mp h with h | ⟨g, -, h⟩
    · exact not_silent_mapError (fun e => by simp [Trouble.message?]) _ h
    · exact not_silent_ok _ h
  rw [Request.result_prepare, silent_bind]
  refine or_congr_right (exists_congr fun c => and_congr_right fun _ => ?_)
  rw [silent_bind]
  exact or_iff_left fun ⟨p, _, h⟩ => hgraph c p h

theorem build_of_prepare {p : Prepared} (h : (r.prepare host).result = .ok p) :
    Supergraph.build p.program p.config.entries = .ok p.graph := by
  rw [Request.result_prepare] at h
  obtain ⟨c, -, h⟩ := except_bind_eq_ok h
  obtain ⟨q, -, h⟩ := except_bind_eq_ok h
  obtain ⟨g, hg, h⟩ := except_bind_eq_ok h
  obtain rfl := Except.ok.inj h
  cases hbuild : Supergraph.build q c.entries with
  | error e =>
      rw [hbuild] at hg
      cases hg
  | ok g' =>
      rw [hbuild] at hg
      exact congrArg Except.ok (Except.ok.inj hg)

/-- Whatever goes wrong in an analysis, there is a message: only a bound stops the solver. -/
theorem not_silent_analyzeGraph {g : Supergraph} (hg : g.WellFormed) (c : Config) :
    ¬Silent ((analyzeGraph g c).result.mapError .analysis) := by
  have hsetUp : c.settings.setUp .constants = .ok c.settings := rfl
  unfold analyzeGraph
  split
  · exact fun h => by cases silent_error.mp h
  · rw [hsetUp]
    rcases resume_ending hg (Table.start_ready hg) c.settings [] with h | ⟨b, n, k, -, -, h⟩
    · simp only [solve, h]
      exact not_silent_ok _
    · simp only [solve, h]
      exact fun h => by cases silent_error.mp h

theorem mapM_id_eq_none_iff {l : List (Option α)} : l.mapM id = none ↔ none ∈ l := by
  induction l with
  | nil => simp
  | cons o l ih =>
      rw [List.mapM_cons, List.mem_cons, ← ih]
      cases o with
      | none => simp
      | some a => cases l.mapM id <;> simp

theorem silent_runAnalyze {p : Prepared} (hg : p.graph.WellFormed) :
    Silent (r.runAnalyze p).result ↔
      (∃ g t, (analyzeGraph p.graph p.config).result = .ok (g, t)) ∧ none ∈ r.methods := by
  have hsilent := not_silent_analyzeGraph hg p.config
  rw [← mapM_id_eq_none_iff]
  simp only [Request.runAnalyze, Told.result_bind, Told.result_tell, Told.result_ofExcept]
  rw [silent_ok_bind, silent_bind, or_iff_right hsilent]
  cases (analyzeGraph p.graph p.config).result with
  | error e => simp [Except.mapError]
  | ok x =>
      obtain ⟨g, t⟩ := x
      cases r.methods.mapM id with
      | none => exact iff_of_true ⟨_, rfl, silent_breakdown _⟩ ⟨⟨g, t, rfl⟩, rfl⟩
      | some methods =>
          refine iff_of_false (fun ⟨x, _, h⟩ => ?_) (by simp)
          rw [silent_ok_bind] at h
          cases hunknown : unknownMethods p.graph methods with
          | nil =>
              rw [hunknown] at h
              exact not_silent_ok _ h
          | cons name names =>
              rw [hunknown] at h
              cases silent_error.mp h

theorem silent_carryOut : Silent (r.carryOut host).result ↔
    Silent (r.prepare host).result ∨ ∃ p, (r.prepare host).result = .ok p ∧
      r.verb = .analyze ∧ (∃ g t, (analyzeGraph p.graph p.config).result = .ok (g, t)) ∧
      none ∈ r.methods := by
  rw [Request.result_carryOut, silent_bind]
  refine or_congr_right (exists_congr fun p => and_congr_right fun hp => ?_)
  unfold Request.perform
  cases r.verb with
  | analyze =>
      have hg := Supergraph.wellFormed_of_build (build_of_prepare hp)
      simpa using silent_runAnalyze hg
  | check => exact iff_of_false (not_silent_ok _) (by simp)
  | dump =>
      refine iff_of_false (fun h => ?_) (by simp)
      simp only [Request.runDump] at h
      split at h
      · exact not_silent_ok _ h
      · split at h <;> exact not_silent_ok _ h

end

/-! ## Whole requests -/

namespace Printed

variable {q : Printed} {host : Host}

end Printed

namespace Request

variable {r : Request} {host : Host}

/-- A request breaks before it has anything to deliver, or when it delivers that. -/
theorem breaks_iff : r.Breaks host ↔
    Silent (r.carryOut host).result ∨ ∃ q, (r.carryOut host).result = .ok q ∧ q.Breaks host := by
  rw [silent_carryOut, silent_prepare, silent_configure, silent_program]
  constructor
  · intro h
    cases h with
    | config given named breaks => exact Or.inl (Or.inl (Or.inl ⟨_, given, named, breaks⟩))
    | source configured breaks => exact Or.inl (Or.inl (Or.inr ⟨_, configured, breaks⟩))
    | method verb prepared analysed nameless =>
        exact Or.inl (Or.inr ⟨_, prepared, verb, ⟨_, _, analysed⟩, nameless⟩)
    | delivery done breaks => exact Or.inr ⟨_, done, breaks⟩
  · rintro (((⟨path, given, named, breaks⟩ | ⟨c, configured, breaks⟩) |
      ⟨p, prepared, verb, ⟨g, t, analysed⟩, nameless⟩) | ⟨q, done, breaks⟩)
    · exact .config given named breaks
    · exact .source configured breaks
    · exact .method verb prepared analysed nameless
    · exact .delivery done breaks

end Request

/-! ## Command lines -/

namespace Sample

/-- Bytes that are no text. -/
def notText : ByteArray := ⟨#[0x6d, 0x65, 0x74, 0x68, 0x6f, 0x64, 0xff]⟩

/-- A host with one file, which is no text, and a text on the standard input that is no program. -/
def host : Host where
  read path := if path = "prog.ir" then .ok notText else .error .notFound
  create _ := .ok ()
  write _ _ := .ok ()
  stdin := some "method"
  prints _ := true
  color := false
  machine := ⟨988, 990, true⟩

end Sample

end Command

end ConstFlow
