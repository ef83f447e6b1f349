import AngleSeries.Proofs.AcceptedConfigs
import AngleSeries.Proofs.DecimalTexts

/-!
# Configurations written and read again

An accepted configuration can be written as a payload that leaves nothing to a default: numbers that
were taken for decimals or integers become their texts, and every setting is spelled out. Reading
that payload gives the configuration back, section by section, because each reader hands on what
its check has passed. The one thing that can change is the sign of a decimal zero, which its text
does not show; and as that is the only change, a configuration that has been written and read is
written the same.
-/

namespace AngleSeries

/-! ### Payloads -/

def Metadata.document (metadata : Metadata) : Json :=
  .object (("name", .string metadata.name)
    :: (metadata.description.map fun text => (Text.ofString "description", .string text)).toList)

/-- The payload that spells out every part of a configuration. -/
def Config.payload (config : Config) : Json :=
  .object [("schemaVersion", .string config.schemaVersion),
    ("metadata", config.metadata.document),
    ("inputs", config.inputs.texts.toJson),
    ("rules", .array (config.rules.map RuleSpec.document)),
    ("run", config.run.document)]

/-- The settings, all of them chosen. -/
def RunSettings.choice (run : RunSettings) : Choice where
  steps := run.steps
  scale := run.scale
  shots := run.shots
  oracle := run.oracle
  seed := run.seed
  commitPolicy := run.commitPolicy

/-- Inputs without the signs of zeros. -/
def Inputs.plain (inputs : Inputs) : Inputs :=
  { inputs with
    pi := inputs.pi.plainZero
    lambda := inputs.lambda.plainZero
    mu := inputs.mu.plainZero }

def Config.plain (config : Config) : Config :=
  { config with inputs := config.inputs.plain }

/-! ### Inputs -/

namespace Inputs

variable {inputs : Inputs}

theorem texts_plain (inputs : Inputs) : inputs.plain.texts = inputs.texts := by
  simp only [texts, plain, Decimal.text_plainZero]

theorem Admissible.plain (hadmissible : inputs.Admissible) : inputs.plain.Admissible := by
  obtain ⟨hdivisor, hhash, hblockSize, hcrcValue, hblock⟩ := hadmissible
  have hmu : inputs.mu.plainZero = inputs.mu := by
    rw [Decimal.plainZero, hdivisor, if_neg Bool.false_ne_true]
  exact ⟨by rw [Inputs.plain, hmu, hdivisor], hhash, hblockSize, hcrcValue, hblock⟩

/-- A section of texts says the inputs they are the texts of. -/
theorem readFrom_texts (hsteppable : inputs.Steppable) {part : Value}
    (hentries : ∀ entry ∈ inputs.texts.entries, part.member entry.1 = .string entry.2) :
    inputs.plain.ReadFrom part := by
  simp only [InputTexts.entries, List.forall_mem_cons] at hentries
  obtain ⟨hpi, hlambda, hmu, hx, hhash, hblock, hcrc, -⟩ := hentries
  refine ⟨?_, ?_, ?_, ?_, hhash, ?_, ?_⟩
  · exact (congrArg (Value.toDecimal · _) hpi).trans (Value.toDecimal_text hsteppable.pi _)
  · exact (congrArg (Value.toDecimal · _) hlambda).trans (Value.toDecimal_text hsteppable.lambda _)
  · exact (congrArg (Value.toDecimal · _) hmu).trans (Value.toDecimal_text hsteppable.mu _)
  · exact (congrArg (Value.toInteger · _) hx).trans (Value.toInteger_intText _ _)
  · exact (congrArg (Value.toInteger · _) hblock).trans (Value.toInteger_intText _ _)
  · exact (congrArg (Value.toInteger · _) hcrc).trans (Value.toInteger_intText _ _)

end Inputs

namespace Config

/-! ### Sections of the payload -/

section Sections

variable {payload : Value}

theorem readMetadata_document {metadata : Metadata}
    (hmember : payload.member "metadata" = Value.ofJson metadata.document)
    (hname : metadata.name ≠ "") : readMetadata payload = ⟨metadata, []⟩ := by
  obtain ⟨name, description⟩ := metadata
  rw [readMetadata, hmember]
  cases description with
  | none => exact if_neg hname
  | some text => exact if_neg hname

theorem readInputs_texts {inputs : Inputs}
    (hmember : payload.member "inputs" = Value.ofJson inputs.texts.toJson)
    (hsteppable : inputs.Steppable) (hadmissible : inputs.Admissible) :
    Clean (readInputs payload).issues ∧ (readInputs payload).value = some inputs.plain := by
  have hentries : ∀ entry ∈ inputs.texts.entries,
      (payload.member "inputs").member entry.1 = .string entry.2 := by
    rw [hmember]
    simp only [InputTexts.entries, List.forall_mem_cons]
    exact ⟨rfl, rfl, rfl, rfl, rfl, rfl, rfl, List.forall_mem_nil _⟩
  exact (readInputs_eq_some_iff rfl (Choice.isSection_of_entries hentries).1).mpr
    ⟨Inputs.readFrom_texts hsteppable hentries, hadmissible.plain⟩

theorem readDelta_intText {rule : Value} {delta : ℤ}
    (hmember : rule.member "delta" = .string (Numeral.intText delta)) (field : Field)
    (path : List PathStep) : readDelta rule field path = ⟨some delta, []⟩ := by
  have hgiven : (rule.member "delta").orElse (.number 1) = .string (Numeral.intText delta) := by
    rw [hmember]
    rfl
  simp only [readDelta, hgiven, Value.toInteger_intText]

theorem readBits_number {rule : Value} {bits : Double} (hmember : rule.member "bits" = .number bits)
    (hvalid : (RuleSpec.hashRollover bits).Valid) (path : List PathStep) :
    readBits rule path = ⟨some bits, []⟩ := by
  obtain ⟨n, hn, hrange⟩ := hvalid
  have hgiven : (rule.member "bits").orElse (.number 16) = .number bits := by
    rw [hmember]
    rfl
  simp only [readBits, hgiven, hn, if_pos hrange]

theorem readRule_document {spec : RuleSpec} (hvalid : spec.Valid) (path : List PathStep) :
    readRule (Value.ofJson spec.document) path = .ok ⟨some spec, []⟩ := by
  have hrecord : (Value.ofJson spec.document).isRecord = true := rfl
  have hkind : (Value.ofJson spec.document).member "kind" = .string spec.kind := rfl
  simp only [readRule, hrecord, hkind, Bool.not_true, Bool.false_eq_true, if_false]
  cases spec with
  | incrementX delta =>
      rw [RuleSpec.kind, if_pos (by decide), readDelta_intText rfl]
      rfl
  | incrementCrc delta =>
      rw [RuleSpec.kind, if_neg (by decide), if_pos (by decide), readDelta_intText rfl]
      rfl
  | hashRollover bits =>
      rw [RuleSpec.kind, if_neg (by decide), if_neg (by decide), if_pos (by decide),
        readBits_number rfl hvalid]
      rfl

theorem readRulesFrom_documents {specs : List RuleSpec} (hvalid : ∀ spec ∈ specs, spec.Valid)
    (index : ℕ) :
    readRulesFrom index (Value.ofItems (specs.map RuleSpec.document)) = .ok ⟨specs, []⟩ := by
  induction specs generalizing index with
  | nil => rfl
  | cons spec specs ih =>
      have hfirst := readRule_document (hvalid spec List.mem_cons_self) (rulePath index)
      have hrest := ih (fun other hother => hvalid other (List.mem_cons_of_mem _ hother))
        (index + 1)
      rw [List.map_cons, Value.ofItems, readRulesFrom, hfirst, Outcome.ok_bind, hrest]
      rfl

theorem readRules_documents {specs : List RuleSpec}
    (hmember : payload.member "rules" = Value.ofJson (.array (specs.map RuleSpec.document)))
    (hvalid : ∀ spec ∈ specs, spec.Valid) :
    ∃ issues, readRules payload = .ok ⟨specs, issues⟩ ∧ Clean issues := by
  rw [readRules, hmember]
  cases specs with
  | nil => exact ⟨_, rfl, (clean_remark _ _ _ _).mpr clean_nil⟩
  | cons spec specs => exact ⟨[], readRulesFrom_documents hvalid 0, clean_nil⟩

theorem readSettings_document {run : RunSettings}
    (hmember : payload.member "run" = Value.ofJson run.document) (hvalid : run.Valid) :
    Clean (readSettings payload).issues ∧ (readSettings payload).value = run := by
  obtain ⟨hsteps, hshots, hseed, hscale⟩ := hvalid
  have hchoice : run.choice.Valid := by
    refine ⟨?_, ?_, ?_, ?_⟩ <;> rintro x ⟨⟩
    · exact hsteps
    · exact hscale
    · exact hshots
    · exact hseed
  have hwritten : run.choice.WrittenOver (Value.absent.member "run") (payload.member "run") := by
    rw [hmember]
    exact ⟨.inr rfl, rfl, rfl, rfl, rfl, rfl, rfl⟩
  exact readSettings_writtenOver hchoice hwritten clean_nil

end Sections

/-! ### The whole payload -/

/-- A version that passed once passes again. -/
theorem clean_readVersion_again {payload again : Value}
    (hclean : Clean (readVersion payload).issues)
    (hmember : again.member "schemaVersion"
      = .string ((readVersion payload).value.getD currentVersion)) :
    Clean (readVersion again).issues := by
  refine (clean_readVersion_iff (by rw [hmember])).mpr ?_
  rcases readVersion_cases hclean with ⟨-, hempty⟩ | ⟨-, hmajor⟩
  · exact .inl hempty
  · exact .inr hmajor

/-- What is written for an accepted configuration says the same configuration. -/
theorem ReadFrom.payload {config : Config} {payload : Value} (hread : config.ReadFrom payload) :
    config.plain.ReadFrom (Value.ofJson config.payload) := by
  obtain ⟨hname, hsteppable, hadmissible, hrules, hrun⟩ := hread.conforming
  have hmetadata : readMetadata (Value.ofJson config.payload) = ⟨config.metadata, []⟩ :=
    readMetadata_document rfl hname
  exact {
    record := rfl
    version := clean_readVersion_again hread.version (by rw [hread.schemaVersion_eq]; rfl)
    metadata := by rw [hmetadata]; exact clean_nil
    inputs := readInputs_texts rfl hsteppable hadmissible
    rules := readRules_documents rfl hrules
    settings := readSettings_document rfl hrun
    schemaVersion_eq := by rw [value_readVersion]; rfl
    metadata_eq := by rw [hmetadata]; rfl }

end Config

/-! ### The same configuration -/

/-- Finite decimals of one value, whatever the signs of zeros. -/
structure Decimal.SameNumber (x y : Decimal) : Prop where
  left : x.isFinite = true
  right : y.isFinite = true
  toRat : x.toRat = y.toRat

/-- Configurations that say the same, the decimals as numbers and the rest as it is written. -/
structure Config.Same (config other : Config) : Prop where
  schemaVersion : config.schemaVersion = other.schemaVersion
  metadata : config.metadata = other.metadata
  pi : config.inputs.pi.SameNumber other.inputs.pi
  lambda : config.inputs.lambda.SameNumber other.inputs.lambda
  mu : config.inputs.mu.SameNumber other.inputs.mu
  x : config.inputs.x = other.inputs.x
  hashHex : config.inputs.hashHex = other.inputs.hashHex
  blockSize : config.inputs.blockSize = other.inputs.blockSize
  crcValue : config.inputs.crcValue = other.inputs.crcValue
  rules : config.rules = other.rules
  run : config.run = other.run

theorem Decimal.sameNumber_plainZero {x : Decimal} (hx : x.isFinite = true) :
    x.plainZero.SameNumber x :=
  ⟨isFinite_plainZero hx, hx, toRat_plainZero x⟩

namespace Config

theorem same_plain {config : Config} (hsteppable : config.inputs.Steppable) :
    config.plain.Same config :=
  ⟨rfl, rfl, Decimal.sameNumber_plainZero hsteppable.pi,
    Decimal.sameNumber_plainZero hsteppable.lambda, Decimal.sameNumber_plainZero hsteppable.mu,
    rfl, rfl, rfl, rfl, rfl, rfl⟩

theorem payload_plain (config : Config) : config.plain.payload = config.payload := by
  rw [payload, payload, plain, Inputs.texts_plain]

/-- **Reading what was written.** The payload that is written for an accepted configuration is
accepted, and it says the same configuration, whose payload it is too. -/
theorem validate_payload {payload : Value} {reading : Reading Config}
    (hok : validate payload = .ok reading) :
    ∃ again, validate (Value.ofJson reading.value.payload) = .ok again
      ∧ again.value.Same reading.value ∧ again.value.payload = reading.value.payload := by
  have hread := readFrom_of_validate hok
  obtain ⟨issues, hagain⟩ := validate_iff_readFrom.mpr hread.payload
  exact ⟨_, hagain, same_plain hread.conforming.steppable, payload_plain reading.value⟩

/-- Numbers where texts will be written, texts with blanks and marks, and zeros with a sign. -/
def loose : Json :=
  .object [
    ("schemaVersion", .string "1.7"),
    ("metadata", .object [("name", .string "loose"), ("description", .string "")]),
    ("inputs", .object [
      ("pi", .string "-0"),
      ("lambda", .number 12),
      ("mu", .string "0x1.8p1"),
      ("x", .string " +7 "),
      ("hashHex", .string " 0XfF "),
      ("blockSize", .number (Double.signedZero true)),
      ("crcValue", .string "01")]),
    ("rules", .array [
      .object [("kind", .string "increment-x"), ("delta", .number 2)],
      .object [("kind", .string "hash-rollover")]]),
    ("run", .object [("steps", .number (Double.signedZero true))])]

theorem loose_again : ∃ reading again, validate (Value.ofJson loose) = .ok reading
    ∧ validate (Value.ofJson reading.value.payload) = .ok again
    ∧ again.value.Same reading.value := by
  have hany : (validate (Value.ofJson loose)).toOption.any (fun _ => true) = true := by
    decide +kernel
  obtain ⟨reading, hok, -⟩ := Outcome.exists_of_any hany
  obtain ⟨again, hagain, hsame, -⟩ := validate_payload hok
  exact ⟨reading, again, hok, hagain, hsame⟩

end Config

end AngleSeries
