import AngleSeries.Config.Reading
import AngleSeries.Proofs.HashTexts
import AngleSeries.Proofs.Outcomes
import AngleSeries.Proofs.SecretValue

/-!
# What acceptance promises

Inputs come in by two doors, as a draft and as a section of a configuration. Behind both of them
the transform is defined: the decimals are finite, the divisor is not zero, the hash is a number and
the block is not empty. A configuration promises the same for its rules and settings, because every
reader that has nothing to give also has an issue to report.
-/

namespace AngleSeries

/-! ### Drafts -/

namespace Value

theorem reject_ne_ok {α : Type} (value : Value) (field : Text) (expected : Expectation) (a : α) :
    value.reject field expected ≠ .ok a := by
  intro hok
  unfold reject at hok
  split at hok <;> cases hok

theorem isFinite_of_toDecimal {value : Value} {field : Text} {d : Decimal}
    (hok : value.toDecimal field = .ok d) : d.isFinite = true := by
  unfold toDecimal at hok
  split at hok
  · exact absurd hok (reject_ne_ok _ _ _ _)
  · split at hok
    case isTrue hfinite =>
      cases hok
      exact hfinite
    case isFalse => exact absurd hok (reject_ne_ok _ _ _ _)

end Value

namespace Inputs

variable {inputs : Inputs}

theorem normalize_finite {draft : Draft} (hok : draft.normalize = .ok inputs) :
    inputs.pi.isFinite = true ∧ inputs.lambda.isFinite = true ∧ inputs.mu.isFinite = true := by
  simp only [Draft.normalize, Outcome.bind_eq_ok_iff] at hok
  obtain ⟨hashHex, -, pi, hpi, lambda, hlambda, mu, hmu, x, -, blockSize, -, crcValue, -, heq⟩ := hok
  cases heq
  exact ⟨Value.isFinite_of_toDecimal hpi, Value.isFinite_of_toDecimal hlambda,
    Value.isFinite_of_toDecimal hmu⟩

/-- A secret value is never found unless the guards let it through. -/
theorem guards_of_secret {d : Decimal} (hok : inputs.secret = .ok d) :
    inputs.mu.isZero = false ∧ (∃ y, inputs.y = .ok y)
      ∧ 0 < inputs.blockSize + inputs.crcValue := by
  simp only [secret, secretFraction, Outcome.bind_eq_ok_iff] at hok
  obtain ⟨value, ⟨_, hdivisor, y, hy, total, hc, -⟩, -⟩ := hok
  refine ⟨?_, ⟨y, hy⟩, ?_⟩
  · unfold requireDivisor at hdivisor
    split at hdivisor
    case isTrue => cases hdivisor
    case isFalse hzero => exact Bool.not_eq_true _ ▸ hzero
  · simp only [c, blockTotal] at hc
    split at hc
    case isTrue => cases hc
    case isFalse hblock => omega

theorem create_evaluable {draft : Draft} (hok : create draft = .ok inputs) :
    ∃ y, inputs.Evaluable y := by
  simp only [create, Outcome.bind_eq_ok_iff] at hok
  obtain ⟨found, hfound, _, -, _, -, d, hsecret, heq⟩ := hok
  cases heq
  obtain ⟨hpi, hlambda, hmu⟩ := normalize_finite hfound
  obtain ⟨hdivisor, ⟨y, hy⟩, hblock⟩ := guards_of_secret hsecret
  exact ⟨y, hpi, hlambda, hmu, hdivisor, hy, hblock⟩

end Inputs

/-! ### Sections of a configuration -/

/-- Nothing among the issues rejects the payload. -/
def Clean (issues : List Issue) : Prop :=
  ∀ issue ∈ issues, issue.severity ≠ .error

@[simp]
theorem clean_nil : Clean [] := by
  simp [Clean]

@[simp]
theorem clean_append (first rest : List Issue) :
    Clean (first ++ rest) ↔ Clean first ∧ Clean rest := by
  simp [Clean, or_imp, forall_and]

@[simp]
theorem not_clean_fatal (code message : Text) (path : List PathStep) (rest : List Issue) :
    ¬ Clean (.fatal code message path :: rest) := by
  simp [Clean, Issue.fatal]

@[simp]
theorem clean_remark (code message : Text) (path : List PathStep) (rest : List Issue) :
    Clean (.remark code message path :: rest) ↔ Clean rest := by
  simp [Clean, Issue.remark]

/-- A rule whose parameter passed its check. -/
def RuleSpec.Valid : RuleSpec → Prop
  | .incrementX _ => True
  | .incrementCrc _ => True
  | .hashRollover bits => ∃ n : ℤ, bits.toInt? = some n ∧ 1 ≤ n ∧ n ≤ Config.maxRolloverBits

/-- A count that is at least `lowest`. -/
def IsCount (lowest : ℕ) (count : Double) : Prop :=
  ∃ n : ℤ, count.toSafeInt? = some n ∧ (lowest : ℤ) ≤ n

/-- Settings that passed their checks. -/
structure RunSettings.Valid (run : RunSettings) : Prop where
  steps : IsCount 0 run.steps
  shots : IsCount 1 run.shots
  seed : IsCount 0 run.seed
  scale : run.scale.isFinite = true

/-- A configuration all of whose parts can be used. -/
structure Config.Valid (config : Config) : Prop where
  inputs : ∃ y, config.inputs.Evaluable y
  rules : ∀ spec ∈ config.rules, spec.Valid
  run : config.run.Valid

namespace Config

theorem settle_clean {α : Type} {field : Field} {outcome : Except Fault α}
    (hclean : Clean (settle field outcome).issues) :
    ∃ a, outcome = .ok a ∧ (settle field outcome).value = some a := by
  cases outcome with
  | ok a => exact ⟨a, rfl, rfl⟩
  | error fault => exact absurd hclean (not_clean_fatal _ _ _ _)

theorem readDecimal_clean {part : Value} {field : Field}
    (hclean : Clean (readDecimal part field).issues) :
    ∃ d, (readDecimal part field).value = some d ∧ d.isFinite = true := by
  unfold readDecimal at hclean ⊢
  split at hclean
  · obtain ⟨d, hok, hvalue⟩ := settle_clean ((clean_remark _ _ _ _).mp hclean)
    exact ⟨d, hvalue, Value.isFinite_of_toDecimal hok⟩
  · obtain ⟨d, hok, hvalue⟩ := settle_clean hclean
    exact ⟨d, hvalue, Value.isFinite_of_toDecimal hok⟩
  · exact absurd hclean (not_clean_fatal _ _ _ _)

theorem readInteger_clean {part : Value} {field : Field}
    (hclean : Clean (readInteger part field).issues) :
    ∃ n, (readInteger part field).value = some n := by
  unfold readInteger at hclean ⊢
  split at hclean
  · obtain ⟨n, -, hvalue⟩ := settle_clean hclean
    exact ⟨n, hvalue⟩
  · obtain ⟨n, -, hvalue⟩ := settle_clean hclean
    exact ⟨n, hvalue⟩
  · exact absurd hclean (not_clean_fatal _ _ _ _)

theorem readHash_clean {part : Value} (hclean : Clean (readHash part).issues) :
    ∃ text, (readHash part).value = some text ∧ Hash.isHash text = true := by
  unfold readHash at hclean ⊢
  split at hclean
  case h_1 _ text _ =>
    split at hclean
    case isTrue hvalid => exact ⟨text, by rw [if_pos hvalid], hvalid⟩
    case isFalse => exact absurd hclean (not_clean_fatal _ _ _ _)
  case h_2 => exact absurd hclean (not_clean_fatal _ _ _ _)

theorem divisorIssues_clean {mu : Decimal} (hclean : Clean (divisorIssues (some mu))) :
    mu.isZero = false := by
  simp only [divisorIssues] at hclean
  split at hclean
  case isTrue => exact absurd hclean (not_clean_fatal _ _ _ _)
  case isFalse hzero => exact Bool.not_eq_true _ ▸ hzero

theorem blockIssues_clean {blockSize crcValue : ℤ}
    (hclean : Clean (blockIssues (some blockSize) (some crcValue))) : 0 < blockSize + crcValue := by
  simp only [blockIssues] at hclean
  split at hclean
  case isTrue => exact absurd hclean (not_clean_fatal _ _ _ _)
  case isFalse hblock => omega

theorem readInputs_clean {payload : Value} (hclean : Clean (readInputs payload).issues) :
    ∃ inputs y, (readInputs payload).value = some inputs ∧ inputs.Evaluable y := by
  simp only [readInputs] at hclean ⊢
  split at hclean
  case isTrue => exact absurd hclean (not_clean_fatal _ _ _ _)
  case isFalse hrecord =>
    rw [if_neg hrecord]
    simp only [clean_append] at hclean
    obtain ⟨⟨⟨⟨⟨⟨⟨⟨⟨⟨hpi, hlambda⟩, hmu⟩, hx⟩, hb⟩, hc⟩, hhash⟩, -⟩, -⟩, hdivisor⟩, hblock⟩ := hclean
    obtain ⟨pi, hpi, hpiFinite⟩ := readDecimal_clean hpi
    obtain ⟨lambda, hlambda, hlambdaFinite⟩ := readDecimal_clean hlambda
    obtain ⟨mu, hmu, hmuFinite⟩ := readDecimal_clean hmu
    obtain ⟨x, hx⟩ := readInteger_clean hx
    obtain ⟨blockSize, hb⟩ := readInteger_clean hb
    obtain ⟨crcValue, hc⟩ := readInteger_clean hc
    obtain ⟨hashHex, hhash, hvalid⟩ := readHash_clean hhash
    rw [hmu] at hdivisor
    rw [hb, hc] at hblock
    refine ⟨⟨pi, lambda, mu, x, hashHex, blockSize, crcValue⟩, _, ?_, hpiFinite, hlambdaFinite,
      hmuFinite, divisorIssues_clean hdivisor, Hash.parse_of_isHash hvalid,
      blockIssues_clean hblock⟩
    rw [hpi, hlambda, hmu, hx, hhash, hb, hc]
    rfl

/-! ### Rules -/

theorem readBits_valid {rule : Value} {path : List PathStep} {bits : Double}
    (hvalue : (readBits rule path).value = some bits) : (RuleSpec.hashRollover bits).Valid := by
  simp only [readBits] at hvalue
  split at hvalue
  · split at hvalue
    case h_1 n hn =>
      split at hvalue
      case isTrue hrange =>
        cases hvalue
        exact ⟨n, hn, hrange⟩
      case isFalse => cases hvalue
    case h_2 => cases hvalue
  · cases hvalue

theorem readRule_valid {rule : Value} {path : List PathStep} {reading : Reading (Option RuleSpec)}
    (hok : readRule rule path = .ok reading) :
    ∀ spec ∈ reading.value, spec.Valid := by
  simp only [readRule] at hok
  split at hok
  · cases hok
    intro spec hspec
    cases hspec
  · split at hok
    · cases hok
      intro spec hspec
      obtain ⟨delta, -, rfl⟩ := Option.map_eq_some_iff.mp hspec
      trivial
    · split at hok
      · cases hok
        intro spec hspec
        obtain ⟨delta, -, rfl⟩ := Option.map_eq_some_iff.mp hspec
        trivial
      · split at hok
        · cases hok
          intro spec hspec
          obtain ⟨bits, hbits, rfl⟩ := Option.map_eq_some_iff.mp hspec
          exact readBits_valid hbits
        · obtain ⟨shown, -, heq⟩ := Outcome.bind_eq_ok_iff.mp hok
          cases heq
          intro spec hspec
          cases hspec

theorem readRulesFrom_valid {rules : List Value} {index : ℕ} {reading : Reading (List RuleSpec)}
    (hok : readRulesFrom index rules = .ok reading) : ∀ spec ∈ reading.value, spec.Valid := by
  induction rules generalizing index reading with
  | nil =>
      cases hok
      intro spec hspec
      cases hspec
  | cons rule rules ih =>
      simp only [readRulesFrom, Outcome.bind_eq_ok_iff] at hok
      obtain ⟨first, hfirst, rest, hrest, heq⟩ := hok
      cases heq
      intro spec hspec
      rcases List.mem_append.mp hspec with hmem | hmem
      · exact readRule_valid hfirst spec (Option.mem_toList.mp hmem)
      · exact ih hrest spec hmem

theorem readRules_valid {payload : Value} {reading : Reading (List RuleSpec)}
    (hok : readRules payload = .ok reading) : ∀ spec ∈ reading.value, spec.Valid := by
  simp only [readRules] at hok
  split at hok
  · cases hok
    simp [RuleSpec.defaults, RuleSpec.Valid]
  · cases hok
    simp
  · exact readRulesFrom_valid hok
  · cases hok
    simp

/-! ### Settings -/

theorem readCount_valid {part : Value} {key : Text} {fallback : Double} {lowest : ℕ}
    (hfallback : IsCount lowest fallback) : IsCount lowest (readCount part key fallback lowest).value := by
  simp only [readCount]
  split
  · exact hfallback
  · split
    case h_1 n hn =>
      split
      case isTrue hle => exact ⟨n, hn, hle⟩
      case isFalse => exact hfallback
    case h_2 => exact hfallback
  · exact hfallback

theorem readScale_valid {part : Value} {fallback : Double} (hfallback : fallback.isFinite = true) :
    (readScale part fallback).value.isFinite = true := by
  simp only [readScale]
  split
  · exact hfallback
  · split
    case isTrue hfinite => exact hfinite
    case isFalse => exact hfallback
  · exact hfallback

theorem isCount_ofNat {lowest n : ℕ} (hle : lowest ≤ n) (hsafe : (n : ℤ) ≤ Double.maxSafe) :
    IsCount lowest (OfNat.ofNat n : Double) := by
  have hmax : Double.maxSafe = 2 ^ 53 - 1 := rfl
  have hn : (OfNat.ofNat n : Double).toInt? = some (n : ℤ) := Double.toInt?_ofNat (by omega)
  refine ⟨n, ?_, by exact_mod_cast hle⟩
  rw [Double.toSafeInt?, hn]
  simp [Option.filter, hsafe]
  omega

/-- The defaults pass the checks they stand in for. -/
theorem default_valid : RunSettings.default.Valid := by
  refine ⟨?_, ?_, ?_, ?_⟩ <;> rw [RunSettings.default]
  · exact isCount_ofNat (by decide) (by decide)
  · exact isCount_ofNat (by decide) (by decide)
  · exact isCount_ofNat (by decide) (by decide)
  · exact Double.isFinite_of_toInt? (Double.toInt?_ofNat (by decide))

theorem readSettings_valid (payload : Value) : (readSettings payload).value.Valid := by
  simp only [readSettings]
  split
  · exact default_valid
  · split
    · exact default_valid
    · exact ⟨readCount_valid default_valid.steps, readCount_valid default_valid.shots,
        readCount_valid default_valid.seed, readScale_valid default_valid.scale⟩

/-! ### The whole payload -/

theorem any_severity_iff {issues : List Issue} :
    (issues.any fun issue => issue.severity = .error) = true ↔ ¬ Clean issues := by
  simp [Clean]

/-- A payload says the configuration, and no section of it has a fatal issue. -/
structure ReadFrom (config : Config) (payload : Value) : Prop where
  record : payload.isRecord = true
  version : Clean (readVersion payload).issues
  metadata : Clean (readMetadata payload).issues
  inputs : Clean (readInputs payload).issues ∧ (readInputs payload).value = some config.inputs
  rules : ∃ issues, readRules payload = .ok ⟨config.rules, issues⟩ ∧ Clean issues
  settings : Clean (readSettings payload).issues ∧ (readSettings payload).value = config.run
  schemaVersion_eq : (readVersion payload).value.getD currentVersion = config.schemaVersion
  metadata_eq : (readMetadata payload).value = config.metadata

section Validation

variable {payload : Value} {config : Config}

/-- The issues of all sections, in the order in which they are reported. -/
def allIssues (payload : Value) (rules : Reading (List RuleSpec)) : List Issue :=
  (readVersion payload).issues ++ (readMetadata payload).issues ++ (readInputs payload).issues
    ++ rules.issues ++ (readSettings payload).issues

theorem validate_iff_readFrom :
    (∃ issues, validate payload = .ok ⟨config, issues⟩) ↔ config.ReadFrom payload := by
  constructor
  · rintro ⟨issues, hok⟩
    simp only [validate] at hok
    split at hok
    · cases hok
    case isFalse hrecord =>
      obtain ⟨rules, hrules, hok⟩ := Outcome.bind_eq_ok_iff.mp hok
      split at hok
      · cases hok
      case isFalse hany =>
        have hclean : Clean (allIssues payload rules) := not_not.mp (mt any_severity_iff.mpr hany)
        simp only [allIssues, clean_append] at hclean
        obtain ⟨⟨⟨⟨hversion, hmetadata⟩, hinputs⟩, hissues⟩, hsettings⟩ := hclean
        split at hok
        · cases hok
        case h_2 inputs hvalue =>
          cases hok
          exact ⟨by simpa using hrecord, hversion, hmetadata, ⟨hinputs, hvalue⟩,
            ⟨rules.issues, hrules, hissues⟩, ⟨hsettings, rfl⟩, rfl, rfl⟩
  · rintro ⟨hrecord, hversion, hmetadata, ⟨hinputs, hvalue⟩, ⟨issues, hrules, hissues⟩,
      ⟨hsettings, hrun⟩, hschema, hname⟩
    have hclean : Clean ((readVersion payload).issues ++ (readMetadata payload).issues
        ++ (readInputs payload).issues ++ issues ++ (readSettings payload).issues) := by
      simp only [clean_append]
      exact ⟨⟨⟨⟨hversion, hmetadata⟩, hinputs⟩, hissues⟩, hsettings⟩
    refine ⟨allIssues payload ⟨config.rules, issues⟩, ?_⟩
    simp only [validate, hrecord, Bool.not_true, Bool.false_eq_true, if_false, hrules,
      Outcome.ok_bind]
    rw [if_neg fun hany => any_severity_iff.mp hany hclean, hvalue, hschema, hname, hrun]
    rfl

theorem readFrom_of_validate {reading : Reading Config} (hok : validate payload = .ok reading) :
    reading.value.ReadFrom payload :=
  validate_iff_readFrom.mp ⟨reading.issues, hok⟩

/-- **No stand-ins.** Whatever passes validation can be used as it is. -/
theorem validate_valid {reading : Reading Config} (hok : validate payload = .ok reading) :
    reading.value.Valid := by
  obtain ⟨-, -, -, ⟨hclean, hinputs⟩, ⟨issues, hrules, -⟩, ⟨-, hrun⟩, -, -⟩ :=
    readFrom_of_validate hok
  obtain ⟨inputs, y, hvalue, heval⟩ := readInputs_clean hclean
  obtain rfl : reading.value.inputs = inputs := Option.some_inj.mp (hinputs.symm.trans hvalue)
  exact ⟨⟨y, heval⟩, readRules_valid hrules, hrun ▸ readSettings_valid payload⟩

end Validation

/-! ### Sections are read for themselves -/

section Sections

variable {payload other : Value}

theorem readVersion_congr
    (hmember : other.member "schemaVersion" = payload.member "schemaVersion") :
    readVersion other = readVersion payload := by
  rw [readVersion, readVersion, hmember]

theorem readMetadata_congr (hmember : other.member "metadata" = payload.member "metadata") :
    readMetadata other = readMetadata payload := by
  rw [readMetadata, readMetadata, hmember]

theorem readInputs_congr (hmember : other.member "inputs" = payload.member "inputs") :
    readInputs other = readInputs payload := by
  rw [readInputs, readInputs, hmember]

theorem readRules_congr (hmember : other.member "rules" = payload.member "rules") :
    readRules other = readRules payload := by
  rw [readRules, readRules, hmember]

theorem readSettings_congr (hmember : other.member "run" = payload.member "run") :
    readSettings other = readSettings payload := by
  rw [readSettings, readSettings, hmember]

end Sections

end Config

end AngleSeries
