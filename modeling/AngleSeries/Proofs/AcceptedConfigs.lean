import AngleSeries.Proofs.RunOutcomes
import AngleSeries.Proofs.SettingSources

/-!
# What an accepted configuration looks like

Each reader refuses what its section must not hold, or falls back to a default that passes the same
checks. So an accepted configuration has the form that the readers describe, and nothing that a run
is made of is refused afterwards: its rules are one rule, its inputs start a sequencer, and its two
counts are read. One promise is not kept. An empty version is taken for a missing one, and the
remark says that the current version is assumed; but it is the empty text that is handed on, and
that has no major component.
-/

namespace AngleSeries

namespace Config

/-! ### Versions -/

section Version

variable {payload : Value}

theorem value_readVersion (payload : Value) :
    (readVersion payload).value = (payload.member "schemaVersion").string? := by
  simp only [readVersion]
  split
  · rfl
  · split <;> rfl

theorem clean_readVersion_iff {version : Text}
    (hversion : (payload.member "schemaVersion").string?.getD "" = version) :
    Clean (readVersion payload).issues
      ↔ version = "" ∨ majorOf version = majorOf currentVersion := by
  simp only [readVersion, hversion]
  by_cases hempty : version = ""
  · simp [hempty]
  · by_cases hmajor : majorOf version = majorOf currentVersion
    · simp [hempty, hmajor]
    · simp [hempty, hmajor]

/-- An empty version passes as it is, and any other one because of its major component. -/
theorem readVersion_cases (hclean : Clean (readVersion payload).issues) :
    payload.member "schemaVersion" = .string ""
        ∧ (readVersion payload).value.getD currentVersion = ""
      ∨ payload.member "schemaVersion" ≠ .string ""
        ∧ majorOf ((readVersion payload).value.getD currentVersion) = majorOf currentVersion := by
  rw [value_readVersion]
  rw [clean_readVersion_iff rfl] at hclean
  cases hmember : payload.member "schemaVersion" with
  | string text =>
      rw [hmember] at hclean
      by_cases hempty : text = ""
      · subst hempty
        exact .inl ⟨rfl, rfl⟩
      · exact .inr ⟨fun heq => hempty (Value.string.inj heq), hclean.resolve_left hempty⟩
  | _ => exact .inr ⟨Value.noConfusion, rfl⟩

theorem majorOf_readVersion_iff (hclean : Clean (readVersion payload).issues) :
    majorOf ((readVersion payload).value.getD currentVersion) = ['1']
      ↔ payload.member "schemaVersion" ≠ .string "" := by
  have hcurrent : majorOf currentVersion = ['1'] := by decide
  rcases readVersion_cases hclean with ⟨hempty, hversion⟩ | ⟨hgiven, hmajor⟩
  · rw [hversion]
    exact iff_of_false (by decide) (not_not.mpr hempty)
  · exact iff_of_true (hmajor.trans hcurrent) hgiven

end Version

/-! ### Sections without fatal issues -/

section Sections

variable {payload : Value}

theorem name_readMetadata (hclean : Clean (readMetadata payload).issues) :
    (readMetadata payload).value.name ≠ "" := by
  simp only [readMetadata] at hclean ⊢
  split at hclean
  · decide
  · split at hclean
    case isTrue => exact absurd hclean (not_clean_fatal _ _ _ _)
    case isFalse hrecord =>
      rw [if_neg hrecord]
      split at hclean
      case isTrue => exact absurd hclean (not_clean_fatal _ _ _ _)
      case isFalse hname => simpa only [if_neg hname] using hname

theorem isPlain_of_clean_readDecimal {part : Value} {field : Field}
    (hclean : Clean (readDecimal part field).issues) : (part.member field.name).IsPlain := by
  unfold readDecimal at hclean
  split at hclean
  case h_1 x hmember => exact hmember ▸ .number x
  case h_2 text hmember => exact hmember ▸ .text text
  case h_3 => exact absurd hclean (not_clean_fatal _ _ _ _)

theorem isPlain_of_clean_readInteger {part : Value} {field : Field}
    (hclean : Clean (readInteger part field).issues) : (part.member field.name).IsPlain := by
  unfold readInteger at hclean
  split at hclean
  case h_1 x hmember => exact hmember ▸ .number x
  case h_2 text hmember => exact hmember ▸ .text text
  case h_3 => exact absurd hclean (not_clean_fatal _ _ _ _)

theorem isText_of_clean_readHash {part : Value} (hclean : Clean (readHash part).issues) :
    ∃ text, part.member Field.hashHex.name = .string text := by
  obtain ⟨text, hvalue, -⟩ := readHash_clean hclean
  exact ⟨text, (readHash_eq_some_iff.mp ⟨hclean, hvalue⟩).1⟩

/-- A section that nothing is wrong with spells out every field. -/
theorem isSection_of_clean_readInputs (hclean : Clean (readInputs payload).issues) :
    (payload.member "inputs").IsSection := by
  have hrecord := isRecord_of_clean_readInputs hclean
  simp only [readInputs, hrecord, Bool.not_true, Bool.false_eq_true, if_false, clean_append]
    at hclean
  obtain ⟨⟨⟨⟨⟨⟨⟨⟨⟨⟨hpi, hlambda⟩, hmu⟩, hx⟩, hblock⟩, hcrc⟩, hhash⟩, -⟩, -⟩, -⟩, -⟩ := hclean
  refine ⟨isText_of_clean_readHash hhash, fun field hne => ?_⟩
  cases field with
  | pi => exact isPlain_of_clean_readDecimal hpi
  | lambda => exact isPlain_of_clean_readDecimal hlambda
  | mu => exact isPlain_of_clean_readDecimal hmu
  | x => exact isPlain_of_clean_readInteger hx
  | hashHex => exact absurd rfl hne
  | blockSize => exact isPlain_of_clean_readInteger hblock
  | crcValue => exact isPlain_of_clean_readInteger hcrc

end Sections

/-! ### Accepted configurations -/

/-- A configuration of the form that its readers describe; the version is a matter of its own. -/
structure Conforming (config : Config) : Prop where
  name : config.metadata.name ≠ ""
  steppable : config.inputs.Steppable
  admissible : config.inputs.Admissible
  rules : ∀ spec ∈ config.rules, spec.Valid
  run : config.run.Valid

/-- What a run is made of is there. -/
structure Usable (config : Config) : Prop where
  rule : ∃ rule, Rule.ofValues (config.rules.map RuleSpec.toValue) = .ok rule
  start : State.start (.number 0) config.inputs = .ok ⟨0, config.inputs⟩
  steps : ∃ n, Setup.readSteps (.number config.run.steps) = .ok n
  shots : ∃ n, Oracle.readShots (.number config.run.shots) = .ok n

theorem ReadFrom.conforming {config : Config} {payload : Value}
    (hread : config.ReadFrom payload) : config.Conforming := by
  obtain ⟨issues, hok⟩ := validate_iff_readFrom.mpr hread
  obtain ⟨⟨y, heval⟩, hrules, hrun⟩ := validate_valid hok
  have hsection := isSection_of_clean_readInputs hread.inputs.1
  obtain ⟨-, hadmissible⟩ := (readInputs_eq_some_iff rfl hsection).mp hread.inputs
  refine ⟨?_, heval.readable.steppable, hadmissible, hrules, hrun⟩
  rw [← hread.metadata_eq]
  exact name_readMetadata hread.metadata

/-- Nothing that conforms is refused afterwards. -/
theorem Conforming.usable {config : Config} (hconforming : config.Conforming) : config.Usable := by
  obtain ⟨rule, hrule, -⟩ := Rule.ofValues_does hconforming.rules
  obtain ⟨n, -, -, hsteps, -⟩ := Setup.readSteps_of_isCount hconforming.run.steps
  have hzero : ((0 : Double).isSafeInteger && !(0 : Double).lt 0) = true := by
    decide +kernel
  refine ⟨⟨rule, hrule⟩, ?_, ⟨n, hsteps⟩, Oracle.exists_readShots hconforming.run.shots⟩
  simp only [State.start, hzero, if_true]

/-- **What acceptance guarantees.** An accepted configuration conforms and can be used, and its
version has the supported major component exactly if the version was not given as the empty text. -/
theorem validate_schema_iff {payload : Value} {reading : Reading Config}
    (hok : validate payload = .ok reading) :
    (majorOf reading.value.schemaVersion = ['1'] ↔ payload.member "schemaVersion" ≠ .string "")
      ∧ reading.value.Conforming ∧ reading.value.Usable := by
  have hread := readFrom_of_validate hok
  have hconforming := hread.conforming
  refine ⟨?_, hconforming, hconforming.usable⟩
  rw [← hread.schemaVersion_eq]
  exact majorOf_readVersion_iff hread.version

/-- A document that leaves to the readers whatever it can. -/
def sparse (others : Members Json) : Json :=
  .object (("metadata", .object [("name", .string "sparse")])
    :: ("inputs", Plan.smallTexts.toJson)
    :: ("rules", .array [.object [("kind", .string "hash-rollover")]])
    :: ("run", .object [("shots", .number 1)]) :: others)

theorem sparse_schema : ∃ reading, validate (Value.ofJson (sparse [])) = .ok reading
    ∧ majorOf reading.value.schemaVersion = ['1'] ∧ reading.value.Conforming
    ∧ reading.value.Usable := by
  have hany : (validate (Value.ofJson (sparse []))).toOption.any (fun _ => true) = true := by
    decide +kernel
  obtain ⟨reading, hok, -⟩ := Outcome.exists_of_any hany
  obtain ⟨hmajor, hconforming, husable⟩ := validate_schema_iff hok
  refine ⟨reading, hok, hmajor.mpr ?_, hconforming, husable⟩
  intro hmember
  cases hmember

/-- An empty version is accepted and stays. -/
theorem not_validate_major : ¬ ∀ (document : Json) (reading : Reading Config),
    validate (Value.ofJson document) = .ok reading →
      majorOf reading.value.schemaVersion = ['1'] := by
  intro hmajor
  have hany : (validate (Value.ofJson (sparse [("schemaVersion", .string "")]))).toOption.any
      (fun reading => majorOf reading.value.schemaVersion != ['1']) = true := by
    decide +kernel
  obtain ⟨reading, hok, hversion⟩ := Outcome.exists_of_any hany
  exact bne_iff_ne.mp hversion (hmajor _ reading hok)

end Config

end AngleSeries
