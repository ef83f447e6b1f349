import AngleSeries.CommandLine.Options
import AngleSeries.Proofs.Agreement
import AngleSeries.Proofs.RunDocuments

/-!
# Where settings come from

A setting stands in a configuration, is given beside it, or is left to its default. Which of these
it is makes no difference. A reader of a setting looks at one member of the section and hands on,
unchanged, a value that passes its check; so a section into which values have been written reads as
the section without them does, with the values put in place afterwards. The inputs are no exception:
what a draft of texts is made into is what is read from a section of these texts.
-/

namespace AngleSeries

/-! ### Choices -/

/-- Settings that have been chosen; the others are left to where they come from otherwise. -/
structure Choice where
  steps : Option Double := none
  scale : Option Double := none
  shots : Option Double := none
  oracle : Option OracleKind := none
  seed : Option Double := none
  commitPolicy : Option CommitPolicy := none

namespace Choice

/-- The chosen values pass the checks of a configuration. -/
structure Valid (choice : Choice) : Prop where
  steps : ∀ x ∈ choice.steps, IsCount 0 x
  scale : ∀ x ∈ choice.scale, x.isFinite = true
  shots : ∀ x ∈ choice.shots, IsCount 1 x
  seed : ∀ x ∈ choice.seed, IsCount 0 x

def overrides (choice : Choice) : Overrides where
  steps := choice.steps.map .number
  scale := choice.scale.map .number
  shots := choice.shots.map .number
  oracle := choice.oracle.map fun oracle => .string oracle.name
  seed := choice.seed.map .number
  commitPolicy := choice.commitPolicy.map fun policy => .string policy.name

/-- Settings with those that were chosen put in place. -/
def applyTo (choice : Choice) (run : RunSettings) : RunSettings where
  steps := choice.steps.getD run.steps
  scale := choice.scale.getD run.scale
  shots := choice.shots.getD run.shots
  oracle := choice.oracle.getD run.oracle
  seed := choice.seed.getD run.seed
  commitPolicy := choice.commitPolicy.getD run.commitPolicy

theorem override_overrides (choice : Choice) (run : RunSettings) :
    (Settings.ofRunSettings run).override choice.overrides
      = .ofRunSettings (choice.applyTo run) := by
  rw [Settings.override, Settings.ofRunSettings, Settings.ofRunSettings, overrides, applyTo,
    Settings.mk.injEq]
  exact ⟨Option.getD_map .., Option.getD_map .., Option.getD_map .., Option.getD_map ..,
    Option.getD_map .., Option.getD_map .., rfl, rfl⟩

/-- A section has the chosen settings and shares the others with a section `before`. -/
structure WrittenOver (choice : Choice) (before part : Value) : Prop where
  shape : part = .absent ∨ part.isRecord = true
  steps : part.member "steps" = choice.overrides.steps.getD (before.member "steps")
  scale : part.member "scale" = choice.overrides.scale.getD (before.member "scale")
  shots : part.member "shots" = choice.overrides.shots.getD (before.member "shots")
  oracle : part.member "oracle" = choice.overrides.oracle.getD (before.member "oracle")
  seed : part.member "seed" = choice.overrides.seed.getD (before.member "seed")
  commitPolicy : part.member "commitPolicy"
    = choice.overrides.commitPolicy.getD (before.member "commitPolicy")

end Choice

/-! ### Reading a section -/

/-- A reading that gives way to a value that was chosen. -/
def Reading.unless {α : Type} (reading : Reading α) (chosen : Option α) : Reading α :=
  (chosen.map fun a => ⟨a, []⟩).getD reading

@[simp]
theorem Reading.value_unless {α : Type} (reading : Reading α) (chosen : Option α) :
    (reading.unless chosen).value = chosen.getD reading.value := by
  cases chosen <;> rfl

theorem Clean.unless {α : Type} {reading : Reading α} (hclean : Clean reading.issues)
    (chosen : Option α) : Clean (reading.unless chosen).issues := by
  cases chosen with
  | none => exact hclean
  | some a => exact clean_nil

theorem Value.isRecord_of_member {value : Value} (key : Text)
    (hmember : (value.member key).isRecord = true) : value.isRecord = true := by
  cases value <;> first | rfl | cases hmember

namespace Config

section Readers

variable {before part : Value}

theorem readCount_unless {key : Text} {lowest : ℕ} {chosen : Option Double}
    (hchosen : ∀ x ∈ chosen, IsCount lowest x)
    (hmember : part.member key = (chosen.map .number).getD (before.member key))
    (fallback : Double) :
    readCount part key fallback lowest = (readCount before key fallback lowest).unless chosen := by
  cases chosen with
  | none => rw [readCount, hmember, Option.map_none, Option.getD_none]; rfl
  | some x =>
      obtain ⟨n, hn, hle⟩ := hchosen x rfl
      rw [readCount, hmember]
      simp only [Option.map_some, Option.getD_some, hn, if_pos hle]
      rfl

theorem readScale_unless {chosen : Option Double} (hchosen : ∀ x ∈ chosen, x.isFinite = true)
    (hmember : part.member "scale" = (chosen.map .number).getD (before.member "scale"))
    (fallback : Double) :
    readScale part fallback = (readScale before fallback).unless chosen := by
  cases chosen with
  | none => rw [readScale, hmember, Option.map_none, Option.getD_none]; rfl
  | some x =>
      rw [readScale, hmember]
      simp only [Option.map_some, Option.getD_some, hchosen x rfl, if_true]
      rfl

theorem readOracle_unless {chosen : Option OracleKind}
    (hmember : part.member "oracle"
      = (chosen.map fun oracle => .string oracle.name).getD (before.member "oracle"))
    (fallback : OracleKind) :
    readOracle part fallback = (readOracle before fallback).unless chosen := by
  rw [readOracle, hmember]
  rcases chosen with _ | _ | _
  · rfl
  · rfl
  · rfl

theorem readPolicy_unless {chosen : Option CommitPolicy}
    (hmember : part.member "commitPolicy"
      = (chosen.map fun policy => .string policy.name).getD (before.member "commitPolicy"))
    (fallback : CommitPolicy) :
    readPolicy part fallback = (readPolicy before fallback).unless chosen := by
  rw [readPolicy, hmember]
  rcases chosen with _ | _ | _
  · rfl
  · rfl
  · rfl

end Readers

/-- A section that is absent is read like an empty one. -/
theorem readSettings_of_shape {payload part : Value} (hmember : payload.member "run" = part)
    (hshape : part = .absent ∨ part.isRecord = true) :
    (readSettings payload).value = {
        steps := (readCount part "steps" RunSettings.default.steps 0).value
        scale := (readScale part RunSettings.default.scale).value
        shots := (readCount part "shots" RunSettings.default.shots 1).value
        oracle := (readOracle part RunSettings.default.oracle).value
        seed := (readCount part "seed" RunSettings.default.seed 0).value
        commitPolicy := (readPolicy part RunSettings.default.commitPolicy).value }
      ∧ (readSettings payload).issues
        = (readCount part "steps" RunSettings.default.steps 0).issues
          ++ (readCount part "shots" RunSettings.default.shots 1).issues
          ++ (readCount part "seed" RunSettings.default.seed 0).issues
          ++ (readScale part RunSettings.default.scale).issues
          ++ (readOracle part RunSettings.default.oracle).issues
          ++ (readPolicy part RunSettings.default.commitPolicy).issues := by
  rcases hshape with rfl | hrecord
  · rw [readSettings, hmember]
    exact ⟨rfl, rfl⟩
  · have hpresent : part ≠ .absent := fun habsent => by rw [habsent] at hrecord; cases hrecord
    simp only [readSettings, hmember, hrecord, Bool.not_true, Bool.false_eq_true, if_false]
    trivial

theorem shape_of_clean {payload : Value} (hclean : Clean (readSettings payload).issues) :
    payload.member "run" = .absent ∨ (payload.member "run").isRecord = true := by
  rw [readSettings] at hclean
  split at hclean
  case h_1 habsent => exact .inl habsent
  case h_2 =>
    split at hclean
    case isTrue => exact absurd hclean (not_clean_fatal _ _ _ _)
    case isFalse hrecord => exact .inr (by simpa using hrecord)

/-- Writing chosen settings into a section and reading it is reading it and putting them in place. -/
theorem readSettings_writtenOver {choice : Choice} (hchoice : choice.Valid) {payload other : Value}
    (hwritten : choice.WrittenOver (payload.member "run") (other.member "run"))
    (hclean : Clean (readSettings payload).issues) :
    Clean (readSettings other).issues
      ∧ (readSettings other).value = choice.applyTo (readSettings payload).value := by
  obtain ⟨hvalue, hissues⟩ := readSettings_of_shape rfl (shape_of_clean hclean)
  obtain ⟨hvalueOther, hissuesOther⟩ := readSettings_of_shape rfl hwritten.shape
  rw [hissues] at hclean
  rw [hvalue, hvalueOther, hissuesOther, readCount_unless hchoice.steps hwritten.steps,
    readScale_unless hchoice.scale hwritten.scale, readCount_unless hchoice.shots hwritten.shots,
    readOracle_unless hwritten.oracle, readCount_unless hchoice.seed hwritten.seed,
    readPolicy_unless hwritten.commitPolicy]
  simp only [clean_append, Reading.value_unless] at hclean ⊢
  obtain ⟨⟨⟨⟨⟨hsteps, hshots⟩, hseed⟩, hscale⟩, horacle⟩, hpolicy⟩ := hclean
  exact ⟨⟨⟨⟨⟨⟨hsteps.unless _, hshots.unless _⟩, hseed.unless _⟩, hscale.unless _⟩,
    horacle.unless _⟩, hpolicy.unless _⟩, rfl⟩

/-! ### Reading a configuration -/

theorem require_eq_ok_iff {source text : Text} {config : Config} :
    require source text = .ok config
      ↔ ∃ document, Json.parse? text = some document ∧ config.ReadFrom (Value.ofJson document) := by
  simp only [← validate_iff_readFrom, require, load]
  cases Json.parse? text with
  | none => exact iff_of_false (fun hok => nomatch hok) fun ⟨_, hsome, _⟩ => nomatch hsome
  | some document =>
      simp only [Option.some_inj, exists_eq_left']
      cases validate (Value.ofJson document) with
      | ok reading =>
          constructor
          · intro hok
            cases hok
            exact ⟨reading.issues, rfl⟩
          · rintro ⟨issues, hok⟩
            cases hok
            rfl
      | error fault =>
          refine iff_of_false (fun hok => ?_) fun ⟨_, hok⟩ => nomatch hok
          cases fault <;> cases hok

theorem isRecord_of_clean_readInputs {payload : Value} (hclean : Clean (readInputs payload).issues) :
    (payload.member "inputs").isRecord = true := by
  simp only [readInputs] at hclean
  split at hclean
  case isTrue => exact absurd hclean (not_clean_fatal _ _ _ _)
  case isFalse hrecord => simpa using hrecord

/-- In a payload that differs in its settings only, the rest of the configuration is the same. -/
theorem ReadFrom.withSettings {config : Config} {payload other : Value}
    (hconfig : config.ReadFrom payload)
    (hrest : ∀ key : Text, key ≠ "run" → other.member key = payload.member key)
    (hclean : Clean (readSettings other).issues) :
    ({ config with run := (readSettings other).value } : Config).ReadFrom other := by
  obtain ⟨-, hversion, hmetadata, hinputs, hrules, -, hschema, hname⟩ := hconfig
  have hrecord : other.isRecord = true := by
    refine Value.isRecord_of_member "inputs" ?_
    rw [hrest "inputs" (by decide)]
    exact isRecord_of_clean_readInputs hinputs.1
  have hversionSame := readVersion_congr (hrest "schemaVersion" (by decide))
  have hmetadataSame := readMetadata_congr (hrest "metadata" (by decide))
  have hinputsSame := readInputs_congr (hrest "inputs" (by decide))
  have hrulesSame := readRules_congr (hrest "rules" (by decide))
  exact ⟨hrecord, by rwa [hversionSame], by rwa [hmetadataSame], by rwa [hinputsSame],
    by rwa [hrulesSame], ⟨hclean, rfl⟩, by rwa [hversionSame], by rwa [hmetadataSame]⟩

end Config

/-! ### Files -/

namespace Choice

variable {choice : Choice}

/-- A payload that holds the texts as they are, no rules and the chosen settings. -/
structure Filed (choice : Choice) (texts : InputTexts) (payload : Value) : Prop where
  version : Clean (Config.readVersion payload).issues
  metadata : Clean (Config.readMetadata payload).issues
  inputs : ∀ entry ∈ texts.entries, (payload.member "inputs").member entry.1 = .string entry.2
  rules : payload.member "rules" = .absent
  run : choice.WrittenOver .absent (payload.member "run")

/-- The draft of a section that holds texts is the draft of these texts. -/
theorem isSection_of_entries {texts : InputTexts} {part : Value}
    (hentries : ∀ entry ∈ texts.entries, part.member entry.1 = .string entry.2) :
    part.IsSection ∧ Draft.ofValue part = .ok (CommandLine.draftOf texts) := by
  simp only [InputTexts.entries, List.forall_mem_cons] at hentries
  obtain ⟨hpi, hlambda, hmu, hx, hhash, hblock, hcrc, -⟩ := hentries
  have hsection : part.IsSection := by
    refine ⟨⟨_, hhash⟩, fun field hne => ?_⟩
    cases field with
    | pi => exact hpi ▸ .text _
    | lambda => exact hlambda ▸ .text _
    | mu => exact hmu ▸ .text _
    | x => exact hx ▸ .text _
    | hashHex => exact absurd rfl hne
    | blockSize => exact hblock ▸ .text _
    | crcValue => exact hcrc ▸ .text _
  refine ⟨hsection, ?_⟩
  rw [Inputs.ofValue_of_isSection hsection]
  simp only [Field.name, hpi, hlambda, hmu, hx, hhash, hblock, hcrc]
  rfl

theorem Filed.readFrom (hchoice : choice.Valid) {texts : InputTexts} {payload : Value}
    (hfiled : choice.Filed texts payload) {inputs : Inputs}
    (hcreate : Inputs.create (CommandLine.draftOf texts) = .ok inputs) :
    ∃ config : Config, config.ReadFrom payload ∧ config.inputs = inputs
      ∧ config.rules = RuleSpec.defaults ∧ config.run = choice.applyTo .default := by
  obtain ⟨hversion, hmetadata, hentries, hrules, hrun⟩ := hfiled
  obtain ⟨hsection, hdraft⟩ := isSection_of_entries hentries
  have hread : inputs.ReadFrom (payload.member "inputs") :=
    Inputs.readFrom_of_create hsection (by rw [hdraft, Outcome.ok_bind, hcreate])
  have hadmissible : inputs.Admissible := by
    rcases Inputs.create_cases ((Inputs.normalize_eq_ok_iff hdraft).mpr hread) with
      ⟨hadmissible, -⟩ | ⟨-, fault, herror⟩
    · exact hadmissible
    · rw [hcreate] at herror
      cases herror
  have hinputs := (Config.readInputs_eq_some_iff rfl hsection).mpr ⟨hread, hadmissible⟩
  have hrecord : payload.isRecord = true :=
    Value.isRecord_of_member "inputs" (Config.isRecord_of_clean_readInputs hinputs.1)
  have hdefaults : Config.readRules payload = .ok ⟨RuleSpec.defaults, []⟩ := by
    rw [Config.readRules, hrules]
  -- a payload without settings is read like one that is absent
  have hsettings := @Config.readSettings_writtenOver choice hchoice .absent payload hrun clean_nil
  exact ⟨⟨_, _, inputs, RuleSpec.defaults, _⟩, ⟨hrecord, hversion, hmetadata, hinputs,
    ⟨[], hdefaults, clean_nil⟩, hsettings, rfl, rfl⟩, rfl, rfl, rfl⟩

end Choice

namespace Plan

/-- A run tells its name and makes no other use of it. -/
theorem execute_named {σ : Type} (plan : Plan) (name : Text) (paced : Bool) (oracle : LooseOracle σ)
    (sink : Record → Action σ Unit) :
    ({ plan with name } : Plan).execute paced oracle sink
      = (fun summary : Summary => { summary with name }) <$> plan.execute paced oracle sink := by
  simp only [execute, map_bind, map_pure]
  rfl

/-- **It does not matter where a setting comes from.** Let the chosen settings pass their checks.
Inputs made from seven texts have with these settings the plan of every file that holds the texts
and the settings, and no rules: it differs in its name only, and so do the summaries of its runs,
whatever the oracle and the sink are. And an accepted file has with these settings the very plan of
every file that has them written over its own. -/
theorem settings_from_anywhere {choice : Choice} (hchoice : choice.Valid) :
    (∀ (texts : InputTexts) (inputs : Inputs) (source text : Text) (document : Json),
      Inputs.create (CommandLine.draftOf texts) = .ok inputs →
      Json.parse? text = some document → choice.Filed texts (Value.ofJson document) →
      ∃ filed given : Plan, resolve (some (source, text)) none {} = .ok filed
        ∧ resolve none (some inputs) choice.overrides = .ok given
        ∧ given.settings = .ofRunSettings (choice.applyTo .default)
        ∧ given.settings = filed.settings ∧ given.oracle = filed.oracle
        ∧ ∀ (σ : Type) (paced : Bool) (oracle : LooseOracle σ) (sink : Record → Action σ Unit),
          given.execute paced oracle sink
            = (fun summary : Summary => { summary with name := adHocName })
              <$> filed.execute paced oracle sink)
    ∧ ∀ (source text : Text) (config : Config) (document : Json) (other written : Text)
      (rewritten : Json), Config.require source text = .ok config →
      Json.parse? text = some document → Json.parse? written = some rewritten →
      (∀ key : Text, key ≠ "run" →
        (Value.ofJson rewritten).member key = (Value.ofJson document).member key) →
      choice.WrittenOver ((Value.ofJson document).member "run")
        ((Value.ofJson rewritten).member "run") →
      ∃ plan : Plan, resolve (some (source, text)) none choice.overrides = .ok plan
        ∧ resolve (some (other, written)) none {} = .ok plan
        ∧ plan.settings = .ofRunSettings (choice.applyTo config.run) := by
  refine ⟨?_, ?_⟩
  · intro texts inputs source text document hcreate hparse hfiled
    obtain ⟨config, hconfig, rfl, hrules, hrun⟩ := hfiled.readFrom hchoice hcreate
    have hrequire : Config.require source text = .ok config :=
      Config.require_eq_ok_iff.mpr ⟨document, hparse, hconfig⟩
    have hgiven : adHoc config.inputs (RuleSpec.defaults.map RuleSpec.toValue) choice.overrides
        = { ofConfig config {} with name := adHocName } := by
      rw [adHoc, ofConfig, choice.override_overrides, hrules, ← hrun]
      rfl
    refine ⟨ofConfig config {}, _, by rw [resolve, hrequire]; rfl, rfl, ?_⟩
    rw [hgiven]
    refine ⟨?_, rfl, rfl, fun σ paced oracle sink => execute_named _ _ paced oracle sink⟩
    rw [← hrun]
    rfl
  · intro source text config document other written rewritten hrequire hparse hwritten hrest hrun
    obtain ⟨found, hfound, hconfig⟩ := Config.require_eq_ok_iff.mp hrequire
    obtain rfl : document = found := Option.some_inj.mp (hparse.symm.trans hfound)
    obtain ⟨hclean, hsettings⟩ := Config.readSettings_writtenOver hchoice hrun hconfig.settings.1
    have hother : Config.require other written
        = .ok { config with run := choice.applyTo config.run } := by
      refine Config.require_eq_ok_iff.mpr ⟨rewritten, hwritten, ?_⟩
      rw [← hconfig.settings.2, ← hsettings]
      exact hconfig.withSettings hrest hclean
    refine ⟨ofConfig config choice.overrides, by rw [resolve, hrequire]; rfl, ?_,
      choice.override_overrides config.run⟩
    rw [resolve, hother, ofConfig, choice.override_overrides]
    rfl

/-! ### Three files -/

def smallTexts : InputTexts := ⟨"3", "1", "1", "1", "1", "1", "0"⟩

/-- A file of inputs and settings. -/
def small (settings : Members Json) : Json :=
  .object [("inputs", smallTexts.toJson), ("run", .object settings)]

theorem parse?_small {settings : Members Json}
    (hkeys : (Members.keys settings).Pairwise Members.InFront)
    (hvalues : ∀ member ∈ settings, Json.Throughout Json.IsPlain Members.InFront member.2) :
    Json.parse? (Canonical.writeDocument none (small settings)) = some (small settings) := by
  have hnames : List.Pairwise Members.InFront [("inputs" : Text), "run"] := by decide +kernel
  refine Json.parse?_write (Canonical.isBlankIndent_indentUnit .absent) (.object hnames ?_)
  simp only [List.forall_mem_cons]
  refine ⟨.object (by decide +kernel) fun member hmember => ?_, .object hkeys hvalues,
    fun _ hmember => nomatch hmember⟩
  obtain ⟨entry, -, rfl⟩ := List.mem_map.mp hmember
  exact .string _

theorem member_small (settings others : Members Json) {key : Text} (hkey : key ≠ "run") :
    (Value.ofJson (small settings)).member key = (Value.ofJson (small others)).member key := by
  have hfind (settings : Members Json) : (Value.ofJson (small settings)).member key
      = ((Members.get? [("inputs", Value.ofJson smallTexts.toJson),
        ("run", Value.ofJson (.object settings))] key).getD .absent) := rfl
  rw [hfind, hfind, Members.get?_cons, Members.get?_cons, Members.get?_cons, Members.get?_cons,
    if_neg hkey.symm, if_neg hkey.symm]

def fewAnalytic : Choice := { steps := some 3, oracle := some .analytic }

theorem fewAnalytic_settings : ∃ (inputs : Inputs) (filed given plan : Plan),
    Inputs.create (CommandLine.draftOf smallTexts) = .ok inputs
      ∧ resolve none (some inputs) fewAnalytic.overrides = .ok given
      ∧ resolve (some ("a", Canonical.writeDocument none
        (small [("steps", .number 3), ("oracle", .string "analytic")]))) none {} = .ok filed
      ∧ given.settings = filed.settings
      ∧ resolve (some ("b", Canonical.writeDocument none
        (small [("steps", .number 5), ("seed", .number 7)]))) none fewAnalytic.overrides = .ok plan
      ∧ resolve (some ("c", Canonical.writeDocument none
        (small [("steps", .number 3), ("seed", .number 7), ("oracle", .string "analytic")]))) none {}
        = .ok plan := by
  have hchoice : fewAnalytic.Valid := by
    refine ⟨?_, ?_, ?_, ?_⟩
    · intro x hx
      rw [← Option.mem_some_iff.mp hx]
      exact Config.isCount_ofNat (by decide) (by decide)
    · rintro x ⟨⟩
    · rintro x ⟨⟩
    · rintro x ⟨⟩
  have hthree : Json.IsPlain 3 := ⟨by decide +kernel, by decide +kernel⟩
  have hfive : Json.IsPlain 5 := ⟨by decide +kernel, by decide +kernel⟩
  have hseven : Json.IsPlain 7 := ⟨by decide +kernel, by decide +kernel⟩
  have hcreate : (Inputs.create (CommandLine.draftOf smallTexts)).toOption.any (fun _ => true)
      = true := by
    decide +kernel
  have hvalid : (Config.validate (Value.ofJson
      (small [("steps", .number 5), ("seed", .number 7)]))).toOption.any (fun _ => true) = true := by
    decide +kernel
  obtain ⟨inputs, hcreate, -⟩ := Outcome.exists_of_any hcreate
  obtain ⟨reading, hvalid, -⟩ := Outcome.exists_of_any hvalid
  have hfirst := @parse?_small [("steps", .number 3), ("oracle", .string "analytic")]
    (by decide +kernel) (by simp [Json.Throughout.number hthree, Json.Throughout.string])
  have hsecond := @parse?_small [("steps", .number 5), ("seed", .number 7)] (by decide +kernel)
    (by simp [Json.Throughout.number hfive, Json.Throughout.number hseven])
  have hthird := @parse?_small
    [("steps", .number 3), ("seed", .number 7), ("oracle", .string "analytic")] (by decide +kernel)
    (by simp [Json.Throughout.number hthree, Json.Throughout.number hseven, Json.Throughout.string])
  have hfiled : fewAnalytic.Filed smallTexts
      (Value.ofJson (small [("steps", .number 3), ("oracle", .string "analytic")])) := by
    refine ⟨(clean_remark _ _ _ _).mpr clean_nil, (clean_remark _ _ _ _).mpr clean_nil, ?_, rfl, ?_⟩
    · simp only [InputTexts.entries, List.forall_mem_cons]
      exact ⟨rfl, rfl, rfl, rfl, rfl, rfl, rfl, fun _ hmember => nomatch hmember⟩
    · exact ⟨.inr rfl, rfl, rfl, rfl, rfl, rfl, rfl⟩
  obtain ⟨hgiven, hwritten⟩ := settings_from_anywhere hchoice
  obtain ⟨filed, given, hfile, hinline, -, hsame, -⟩ :=
    hgiven smallTexts inputs "a" _ _ hcreate hfirst hfiled
  have hrequire : Config.require "b" _ = .ok reading.value :=
    Config.require_eq_ok_iff.mpr ⟨_, hsecond, Config.validate_iff_readFrom.mp ⟨_, hvalid⟩⟩
  obtain ⟨plan, hover, hown, -⟩ := hwritten "b" _ reading.value _ "c" _ _ hrequire hsecond hthird
    (fun key hkey => member_small _ _ hkey) ⟨.inr rfl, rfl, rfl, rfl, rfl, rfl, rfl⟩
  exact ⟨inputs, filed, given, plan, hcreate, hinline, hfile, hsame, hover, hown⟩

end Plan

end AngleSeries
