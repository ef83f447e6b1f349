import AngleSeries.Proofs.Acceptance
import AngleSeries.Proofs.MemberOrder

/-!
# The two doors agree

A draft is checked up to its first fault, a section of a configuration is searched for all of its
issues, and the two go through their fields in different orders. The verdict is the same all the
same, because both come down to one condition on the fields: they can be read, and what is read can
be evaluated. What a draft is refused for beyond that is an exponent, which no check of a
configuration looks at.
-/

namespace AngleSeries

/-- A text or a number. -/
inductive Value.IsPlain : Value → Prop where
  | text (text : Text) : IsPlain (.string text)
  | number (x : Double) : IsPlain (.number x)

/-- A section that spells out every field: the hash by a text, the others by a text or a number. -/
structure Value.IsSection (part : Value) : Prop where
  hash : ∃ text, part.member Field.hashHex.name = .string text
  plain : ∀ field : Field, field ≠ .hashHex → (part.member field.name).IsPlain

/-! ### Reading a field -/

/-- An outcome that fails, if it does, for a field. -/
def FieldsOnly {α : Type} (outcome : Except Fault α) : Prop :=
  (∃ a, outcome = .ok a) ∨ ∃ fault, outcome = .error (.field fault)

theorem FieldsOnly.bind {α β : Type} {first : Except Fault α} {next : α → Except Fault β}
    (hfirst : FieldsOnly first) (hnext : ∀ a, FieldsOnly (next a)) :
    FieldsOnly (first >>= next) := by
  rcases hfirst with ⟨a, rfl⟩ | ⟨fault, rfl⟩
  · exact hnext a
  · exact .inr ⟨fault, rfl⟩

namespace Value

section Plain

variable {value : Value} (hplain : value.IsPlain)

include hplain

theorem fieldsOnly_reject {α : Type} (field : Text) (expected : Expectation) :
    FieldsOnly (value.reject field expected : Except Fault α) := by
  cases hplain with
  | text text => exact .inr ⟨_, rfl⟩
  | number x => exact .inr ⟨_, rfl⟩

theorem fieldsOnly_toDecimal (field : Text) : FieldsOnly (value.toDecimal field) := by
  unfold toDecimal
  split
  · exact fieldsOnly_reject hplain _ _
  · split
    · exact .inl ⟨_, rfl⟩
    · exact fieldsOnly_reject hplain _ _

theorem fieldsOnly_toInteger (field : Text) : FieldsOnly (value.toInteger field) := by
  cases hplain with
  | text text =>
      rw [toInteger]
      split
      · exact .inl ⟨_, rfl⟩
      · exact fieldsOnly_reject (.text text) _ _
  | number x =>
      rw [toInteger]
      split
      · exact .inl ⟨_, rfl⟩
      · exact fieldsOnly_reject (.number x) _ _

end Plain

end Value

namespace Inputs

/-! ### The condition behind both doors -/

/-- The fields of a section say the inputs. -/
structure ReadFrom (inputs : Inputs) (part : Value) : Prop where
  pi : (part.member Field.pi.name).toDecimal Field.pi.name = .ok inputs.pi
  lambda : (part.member Field.lambda.name).toDecimal Field.lambda.name = .ok inputs.lambda
  mu : (part.member Field.mu.name).toDecimal Field.mu.name = .ok inputs.mu
  x : (part.member Field.x.name).toInteger Field.x.name = .ok inputs.x
  hashHex : part.member Field.hashHex.name = .string inputs.hashHex
  blockSize :
    (part.member Field.blockSize.name).toInteger Field.blockSize.name = .ok inputs.blockSize
  crcValue : (part.member Field.crcValue.name).toInteger Field.crcValue.name = .ok inputs.crcValue

/-- Inputs that pass every check but those on exponents. -/
structure Admissible (inputs : Inputs) : Prop where
  divisor : inputs.mu.isZero = false
  hash : Hash.isHash inputs.hashHex = true
  blockSize : 0 ≤ inputs.blockSize
  crcValue : 0 ≤ inputs.crcValue
  block : 0 < inputs.blockSize + inputs.crcValue

theorem ReadFrom.unique {inputs others : Inputs} {part : Value} (h : inputs.ReadFrom part)
    (h' : others.ReadFrom part) : inputs = others := by
  have hpi := h.pi.symm.trans h'.pi
  have hlambda := h.lambda.symm.trans h'.lambda
  have hmu := h.mu.symm.trans h'.mu
  have hx := h.x.symm.trans h'.x
  have hhash := h.hashHex.symm.trans h'.hashHex
  have hblock := h.blockSize.symm.trans h'.blockSize
  have hcrc := h.crcValue.symm.trans h'.crcValue
  cases inputs
  cases others
  simp_all

/-! ### Drafts -/

section Draft

variable {part : Value} {inputs : Inputs}

theorem ofValue_of_isSection (hpart : part.IsSection) :
    Draft.ofValue part = .ok {
      pi := part.member Field.pi.name
      lambda := part.member Field.lambda.name
      mu := part.member Field.mu.name
      x := part.member Field.x.name
      hashHex := part.member Field.hashHex.name
      blockSize := part.member Field.blockSize.name
      crcValue := part.member Field.crcValue.name } := by
  obtain ⟨text, htext⟩ := hpart.hash
  have hpresent : part.isPresent = true := by
    cases part <;> simp_all [Value.member, Value.isPresent]
  rw [Draft.ofValue, if_pos hpresent]
  rfl

theorem normalize_eq_ok_iff {draft : Draft} (hdraft : Draft.ofValue part = .ok draft) :
    draft.normalize = .ok inputs ↔ inputs.ReadFrom part := by
  have hmembers : draft = ⟨part.member "pi", part.member "lambda", part.member "mu",
      part.member "x", part.member "hashHex", part.member "blockSize", part.member "crcValue"⟩ := by
    unfold Draft.ofValue at hdraft
    split at hdraft
    · exact (Except.ok.inj hdraft).symm
    · cases hdraft
  subst hmembers
  have hhash : ∀ {value : Value} {text : Text}, value.toHash = .ok text ↔ value = .string text := by
    intro value text
    cases value <;> simp [Value.toHash, Value.reject_ne_ok]
  simp only [Draft.normalize, Outcome.bind_eq_ok_iff, hhash]
  constructor
  · rintro ⟨hashHex, hh, pi, hpi, lambda, hlambda, mu, hmu, x, hx, blockSize, hb, crcValue, hc, heq⟩
    cases heq
    exact ⟨hpi, hlambda, hmu, hx, hh, hb, hc⟩
  · intro h
    exact ⟨_, h.hashHex, _, h.pi, _, h.lambda, _, h.mu, _, h.x, _, h.blockSize, _, h.crcValue, rfl⟩

/-- What cannot be read is a fault of a field. -/
theorem fieldsOnly_normalize (hpart : part.IsSection) {draft : Draft}
    (hdraft : Draft.ofValue part = .ok draft) : FieldsOnly draft.normalize := by
  rw [ofValue_of_isSection hpart] at hdraft
  cases hdraft
  have hdecimal (field : Field) (hne : field ≠ .hashHex) :=
    Value.fieldsOnly_toDecimal (hpart.plain field hne) field.name
  have hinteger (field : Field) (hne : field ≠ .hashHex) :=
    Value.fieldsOnly_toInteger (hpart.plain field hne) field.name
  obtain ⟨text, htext⟩ := hpart.hash
  simp only [Draft.normalize, htext, Value.toHash, Outcome.ok_bind]
  refine (hdecimal .pi (by decide)).bind fun pi => ?_
  refine (hdecimal .lambda (by decide)).bind fun lambda => ?_
  refine (hdecimal .mu (by decide)).bind fun mu => ?_
  refine (hinteger .x (by decide)).bind fun x => ?_
  refine (hinteger .blockSize (by decide)).bind fun blockSize => ?_
  refine (hinteger .crcValue (by decide)).bind fun crcValue => ?_
  exact .inl ⟨_, rfl⟩

end Draft

section Checks

variable {inputs : Inputs}

/-- Admissible inputs lack nothing but perhaps a safe exponent. -/
theorem secret_of_admissible (hfinite : inputs.pi.isFinite = true ∧ inputs.lambda.isFinite = true
    ∧ inputs.mu.isFinite = true) (hadmissible : inputs.Admissible) :
    (∃ value, inputs.secret = .ok value) ∨ ∃ fault, inputs.secret = .error (.range fault) := by
  obtain ⟨hpi, hlambda, hmu⟩ := hfinite
  have heval : inputs.Evaluable _ := ⟨hpi, hlambda, hmu, hadmissible.divisor,
    Hash.parse_of_isHash hadmissible.hash, hadmissible.block⟩
  refine (secret_cases heval).imp_right ?_
  rintro ⟨text, hfault⟩
  exact ⟨_, hfault⟩

theorem requireNonNegative_of_le {n : ℤ} (hn : 0 ≤ n) (field : Field) :
    requireNonNegative n field = .ok () := by
  rw [requireNonNegative, if_neg (by omega)]

theorem requireNonNegative_of_lt {n : ℤ} (hn : n < 0) (field : Field) :
    ∃ fault, requireNonNegative n field = .error (.field fault) :=
  ⟨_, by rw [requireNonNegative, if_pos hn]⟩

/-- The guards of the transform speak of fields. -/
theorem secret_of_not_admissible (hblock : 0 ≤ inputs.blockSize) (hcrc : 0 ≤ inputs.crcValue)
    (hnot : ¬ inputs.Admissible) : ∃ fault, inputs.secret = .error (.field fault) := by
  cases hdivisor : inputs.mu.isZero with
  | true => exact ⟨_, by rw [secret, secretFraction_of_zero hdivisor]; rfl⟩
  | false =>
      rcases Hash.parse_cases inputs.hashHex with ⟨y, _, hparse, -⟩ | ⟨flaw, hparse, -⟩
      · have hempty : inputs.blockSize + inputs.crcValue ≤ 0 := by
          by_contra hpositive
          exact hnot ⟨hdivisor, Hash.isHash_of_parse hparse, hblock, hcrc, not_le.mp hpositive⟩
        exact ⟨_, by rw [secret, secretFraction_of_empty hdivisor hparse hempty]; rfl⟩
      · exact ⟨_, by rw [secret, secretFraction_of_bad_hash hdivisor hparse]; rfl⟩

/-- A draft that was read is refused for a field unless it is admissible. -/
theorem create_cases {draft : Draft} (hread : draft.normalize = .ok inputs) :
    inputs.Admissible ∧ (create draft = .ok inputs ∨ ∃ fault, create draft = .error (.range fault))
      ∨ ¬ inputs.Admissible ∧ ∃ fault, create draft = .error (.field fault) := by
  by_cases hadmissible : inputs.Admissible
  · refine .inl ⟨hadmissible, ?_⟩
    rw [create, hread, Outcome.ok_bind, requireNonNegative_of_le hadmissible.blockSize,
      requireNonNegative_of_le hadmissible.crcValue]
    have hfinite := normalize_finite hread
    rcases secret_of_admissible hfinite hadmissible with ⟨value, hok⟩ | ⟨fault, herr⟩
    · exact .inl (by rw [hok]; rfl)
    · exact .inr ⟨fault, by rw [herr]; rfl⟩
  refine .inr ⟨hadmissible, ?_⟩
  rw [create, hread, Outcome.ok_bind]
  rcases lt_or_ge inputs.blockSize 0 with hneg | hblock
  · obtain ⟨fault, herr⟩ := requireNonNegative_of_lt hneg .blockSize
    exact ⟨fault, by rw [herr]; rfl⟩
  rw [requireNonNegative_of_le hblock, Outcome.ok_bind]
  rcases lt_or_ge inputs.crcValue 0 with hneg | hcrc
  · obtain ⟨fault, herr⟩ := requireNonNegative_of_lt hneg .crcValue
    exact ⟨fault, by rw [herr]; rfl⟩
  obtain ⟨fault, herr⟩ := secret_of_not_admissible hblock hcrc hadmissible
  exact ⟨fault, by rw [requireNonNegative_of_le hcrc, Outcome.ok_bind, herr]; rfl⟩

end Checks

/-- The first door: a fault of a field, or else admissible inputs. -/
theorem create_field_iff {part : Value} (hpart : part.IsSection) :
    (∀ fault, (Draft.ofValue part >>= create) ≠ .error (.field fault))
      ↔ ∃ inputs : Inputs, inputs.ReadFrom part ∧ inputs.Admissible := by
  have hdraft := ofValue_of_isSection hpart
  rw [hdraft, Outcome.ok_bind]
  rcases fieldsOnly_normalize hpart hdraft with ⟨inputs, hread⟩ | ⟨fault, herr⟩
  · have hfrom := (normalize_eq_ok_iff hdraft).mp hread
    rcases create_cases hread with ⟨hadmissible, hcreate⟩ | ⟨hnot, fault, herr⟩
    · refine iff_of_true (fun fault herr => ?_) ⟨inputs, hfrom, hadmissible⟩
      rcases hcreate with hok | ⟨other, hother⟩
      · rw [hok] at herr
        cases herr
      · rw [hother] at herr
        cases herr
    · refine iff_of_false (fun hall => hall fault herr) ?_
      rintro ⟨others, hothers, hadmissible⟩
      exact hnot (hothers.unique hfrom ▸ hadmissible)
  · refine iff_of_false (fun hall => hall fault ?_) ?_
    · rw [create, herr]
      rfl
    · rintro ⟨inputs, hfrom, -⟩
      rw [(normalize_eq_ok_iff hdraft).mpr hfrom] at herr
      cases herr

theorem readFrom_of_create {part : Value} (hpart : part.IsSection) {inputs : Inputs}
    (hok : (Draft.ofValue part >>= create) = .ok inputs) : inputs.ReadFrom part := by
  have hdraft := ofValue_of_isSection hpart
  rw [hdraft, Outcome.ok_bind] at hok
  simp only [create, Outcome.bind_eq_ok_iff] at hok
  obtain ⟨found, hread, _, -, _, -, _, -, heq⟩ := hok
  cases heq
  exact (normalize_eq_ok_iff hdraft).mp hread

end Inputs

namespace Config

/-! ### Sections -/

theorem settle_eq_some_iff {α : Type} {field : Field} {outcome : Except Fault α} {a : α} :
    Clean (settle field outcome).issues ∧ (settle field outcome).value = some a
      ↔ outcome = .ok a := by
  cases outcome with
  | ok found => simp [settle]
  | error fault => simp [settle]

section Fields

variable {part : Value} {field : Field} (hplain : (part.member field.name).IsPlain)

include hplain

/-- A remark does not reject, so the verdict on a field is that of its reading. -/
theorem readDecimal_eq_some_iff {d : Decimal} :
    Clean (readDecimal part field).issues ∧ (readDecimal part field).value = some d
      ↔ (part.member field.name).toDecimal field.name = .ok d := by
  unfold readDecimal
  generalize part.member field.name = value at hplain ⊢
  cases hplain with
  | text text => exact settle_eq_some_iff
  | number x =>
      simp only [clean_remark]
      exact settle_eq_some_iff

theorem readInteger_eq_some_iff {n : ℤ} :
    Clean (readInteger part field).issues ∧ (readInteger part field).value = some n
      ↔ (part.member field.name).toInteger field.name = .ok n := by
  unfold readInteger
  generalize part.member field.name = value at hplain ⊢
  cases hplain with
  | text text => exact settle_eq_some_iff
  | number x => exact settle_eq_some_iff

end Fields

theorem readHash_eq_some_iff {part : Value} {text : Text} :
    Clean (readHash part).issues ∧ (readHash part).value = some text
      ↔ part.member Field.hashHex.name = .string text ∧ Hash.isHash text = true := by
  unfold readHash
  generalize part.member Field.hashHex.name = value
  split
  · split
    case isTrue hvalid =>
      simp only [clean_nil, true_and, Option.some_inj, Value.string.injEq]
      exact ⟨fun heq => ⟨heq, heq ▸ hvalid⟩, fun h => h.1⟩
    case isFalse hinvalid =>
      simp only [not_clean_fatal, false_and, Value.string.injEq, false_iff]
      rintro ⟨rfl, hvalid⟩
      exact hinvalid hvalid
  case h_2 hother =>
    simp only [not_clean_fatal, false_and, false_iff]
    rintro ⟨rfl, -⟩
    exact hother text rfl

theorem clean_negativeIssues_iff {field : Field} {n : ℤ} :
    Clean (negativeIssues field (some n)) ↔ 0 ≤ n := by
  simp only [negativeIssues]
  split
  case isTrue hneg => simp [hneg]
  case isFalse hle => simp [not_lt.mp hle]

theorem clean_divisorIssues_iff {mu : Decimal} :
    Clean (divisorIssues (some mu)) ↔ mu.isZero = false := by
  simp only [divisorIssues]
  split
  case isTrue hzero => simp [hzero]
  case isFalse hne => simp [hne]

theorem clean_blockIssues_iff {blockSize crcValue : ℤ} :
    Clean (blockIssues (some blockSize) (some crcValue)) ↔ 0 < blockSize + crcValue := by
  simp only [blockIssues]
  split
  case isTrue hempty => simp [hempty]
  case isFalse hpos => simp [not_le.mp hpos]

/-- The second door: a section without fatal issues holds admissible inputs. -/
theorem readInputs_eq_some_iff {payload part : Value} (hmember : payload.member "inputs" = part)
    (hpart : part.IsSection) {inputs : Inputs} :
    Clean (readInputs payload).issues ∧ (readInputs payload).value = some inputs
      ↔ inputs.ReadFrom part ∧ inputs.Admissible := by
  obtain ⟨text, htext⟩ := hpart.hash
  have hrecord : part.isRecord = true := by
    cases part <;> simp_all [Value.member, Value.isRecord]
  have hdecimal (field : Field) (hne : field ≠ .hashHex) (d : Decimal) :=
    readDecimal_eq_some_iff (hpart.plain field hne) (d := d)
  have hinteger (field : Field) (hne : field ≠ .hashHex) (n : ℤ) :=
    readInteger_eq_some_iff (hpart.plain field hne) (n := n)
  simp only [readInputs, hmember, hrecord, Bool.not_true, Bool.false_eq_true, if_false,
    clean_append]
  constructor
  · rintro ⟨⟨⟨⟨⟨⟨⟨⟨⟨⟨⟨hpi, hlambda⟩, hmu⟩, hx⟩, hb⟩, hc⟩, hhash⟩, hbneg⟩, hcneg⟩, hdivisor⟩,
      hblock⟩, hvalue⟩
    simp only [joinInputs, Option.bind_eq_bind, Option.bind_eq_some_iff] at hvalue
    obtain ⟨pi, hpi', lambda, hlambda', mu, hmu', x, hx', hashHex, hhash', blockSize, hb', crcValue,
      hc', heq⟩ := hvalue
    cases heq
    rw [hb'] at hbneg hblock
    rw [hc'] at hcneg hblock
    rw [hmu'] at hdivisor
    obtain ⟨hstring, hvalid⟩ := readHash_eq_some_iff.mp ⟨hhash, hhash'⟩
    refine ⟨⟨?_, ?_, ?_, ?_, hstring, ?_, ?_⟩, clean_divisorIssues_iff.mp hdivisor, hvalid,
      clean_negativeIssues_iff.mp hbneg, clean_negativeIssues_iff.mp hcneg,
      clean_blockIssues_iff.mp hblock⟩
    · exact (hdecimal .pi (by decide) pi).mp ⟨hpi, hpi'⟩
    · exact (hdecimal .lambda (by decide) lambda).mp ⟨hlambda, hlambda'⟩
    · exact (hdecimal .mu (by decide) mu).mp ⟨hmu, hmu'⟩
    · exact (hinteger .x (by decide) x).mp ⟨hx, hx'⟩
    · exact (hinteger .blockSize (by decide) blockSize).mp ⟨hb, hb'⟩
    · exact (hinteger .crcValue (by decide) crcValue).mp ⟨hc, hc'⟩
  · rintro ⟨hread, hadmissible⟩
    obtain ⟨hpi, hpi'⟩ := (hdecimal .pi (by decide) inputs.pi).mpr hread.pi
    obtain ⟨hlambda, hlambda'⟩ := (hdecimal .lambda (by decide) inputs.lambda).mpr hread.lambda
    obtain ⟨hmu, hmu'⟩ := (hdecimal .mu (by decide) inputs.mu).mpr hread.mu
    obtain ⟨hx, hx'⟩ := (hinteger .x (by decide) inputs.x).mpr hread.x
    obtain ⟨hb, hb'⟩ := (hinteger .blockSize (by decide) inputs.blockSize).mpr hread.blockSize
    obtain ⟨hc, hc'⟩ := (hinteger .crcValue (by decide) inputs.crcValue).mpr hread.crcValue
    obtain ⟨hhash, hhash'⟩ := readHash_eq_some_iff.mpr ⟨hread.hashHex, hadmissible.hash⟩
    rw [hpi', hlambda', hmu', hx', hb', hc', hhash']
    refine ⟨⟨⟨⟨⟨⟨⟨⟨⟨⟨⟨hpi, hlambda⟩, hmu⟩, hx⟩, hb⟩, hc⟩, hhash⟩, ?_⟩, ?_⟩, ?_⟩, ?_⟩, rfl⟩
    · exact clean_negativeIssues_iff.mpr hadmissible.blockSize
    · exact clean_negativeIssues_iff.mpr hadmissible.crcValue
    · exact clean_divisorIssues_iff.mpr hadmissible.divisor
    · exact clean_blockIssues_iff.mpr hadmissible.block

/-! ### The whole payload -/

/-- The issues that a validation reports, whether it accepts the payload or not. -/
def reported : Except Fault (Reading Config) → List Issue
  | .ok reading => reading.issues
  | .error (.badConfig _ issues) => issues
  | .error _ => []

/-- An object with the member `inputs` put in place. -/
def withInputs (members : Members Value) (part : Value) : Value :=
  .object .plain (members.put "inputs" part)

theorem member_withInputs (members : Members Value) (part : Value) (key : Text) :
    (withInputs members part).member key
      = if key = "inputs" then part else (Members.get? members key).getD .absent := by
  rw [withInputs, Value.member, Members.get?_put]
  split <;> rfl

@[simp]
theorem member_withInputs_self (members : Members Value) (part : Value) :
    (withInputs members part).member "inputs" = part := by
  rw [member_withInputs, if_pos rfl]

/-- What is read beside the inputs does not depend on them. -/
theorem member_withInputs_congr (members : Members Value) (part other : Value) {key : Text}
    (hkey : key ≠ "inputs") :
    (withInputs members part).member key = (withInputs members other).member key := by
  rw [member_withInputs, member_withInputs, if_neg hkey, if_neg hkey]

section Validation

variable {payload : Value} {rules : Reading (List RuleSpec)}

/-- Either way all issues are reported, and they alone decide. -/
theorem validate_cases (hrecord : payload.isRecord = true)
    (hrules : readRules payload = .ok rules) :
    (Clean (allIssues payload rules) ∧ ∃ reading, validate payload = .ok reading
        ∧ reading.issues = allIssues payload rules
        ∧ (readInputs payload).value = some reading.value.inputs)
      ∨ (¬ Clean (allIssues payload rules)
        ∧ ∃ message, validate payload = .error (.badConfig message (allIssues payload rules))) := by
  simp only [validate, hrecord, Bool.not_true, Bool.false_eq_true, if_false, hrules,
    Outcome.ok_bind]
  split
  case isTrue hany => exact .inr ⟨any_severity_iff.mp hany, _, rfl⟩
  case isFalse hany =>
    have hclean : Clean (allIssues payload rules) := not_not.mp (mt any_severity_iff.mpr hany)
    refine .inl ⟨hclean, ?_⟩
    simp only [allIssues, clean_append] at hclean
    obtain ⟨inputs, -, hvalue, -⟩ := readInputs_clean hclean.1.1.2
    rw [hvalue]
    exact ⟨_, rfl, rfl, rfl⟩

end Validation

section Placed

variable {members : Members Value}

/-- In an otherwise valid payload the issues of the inputs decide. -/
theorem clean_allIssues_withInputs_iff (part : Value) {other : Value} {reading : Reading Config}
    (hother : validate (withInputs members other) = .ok reading) :
    ∃ rules, readRules (withInputs members part) = .ok rules
      ∧ (Clean (allIssues (withInputs members part) rules)
        ↔ Clean (readInputs (withInputs members part)).issues) := by
  obtain ⟨hrecord, hversion, hmetadata, -, ⟨issues, hrules, hissues⟩, ⟨hsettings, -⟩, -, -⟩ :=
    readFrom_of_validate hother
  have hcongr {key : Text} (hkey : key ≠ "inputs") :=
    member_withInputs_congr members part other hkey
  refine ⟨_, (readRules_congr (hcongr (by decide))).trans hrules, ?_⟩
  simp only [allIssues, clean_append, readVersion_congr (hcongr (by decide)),
    readMetadata_congr (hcongr (by decide)), readSettings_congr (hcongr (by decide))]
  exact ⟨fun h => h.1.1.2, fun h => ⟨⟨⟨⟨hversion, hmetadata⟩, h⟩, hissues⟩, hsettings⟩⟩

/-- **One verdict.** In an otherwise valid payload a section that spells out its fields is reported
without a fatal issue exactly if a draft of the same fields is refused for none of them, and then
the inputs are the same. -/
theorem validate_agrees_create {part : Value}
    (hother : ∃ other reading, validate (withInputs members other) = .ok reading)
    (hpart : part.IsSection) :
    (Clean (reported (validate (withInputs members part)))
        ↔ ∃ reading, validate (withInputs members part) = .ok reading)
      ∧ (Clean (reported (validate (withInputs members part)))
        ↔ ∀ fault, (Draft.ofValue part >>= Inputs.create) ≠ .error (.field fault))
      ∧ ∀ reading inputs, validate (withInputs members part) = .ok reading →
        (Draft.ofValue part >>= Inputs.create) = .ok inputs → reading.value.inputs = inputs := by
  obtain ⟨other, accepted, hother⟩ := hother
  obtain ⟨rules, hrules, hissues⟩ := clean_allIssues_withInputs_iff part hother
  have hsection (inputs : Inputs) : Clean (readInputs (withInputs members part)).issues
      ∧ (readInputs (withInputs members part)).value = some inputs
        ↔ inputs.ReadFrom part ∧ inputs.Admissible :=
    readInputs_eq_some_iff (member_withInputs_self members part) hpart
  rw [Inputs.create_field_iff hpart]
  rcases validate_cases rfl hrules with ⟨hclean, reading, hok, hreported, hvalue⟩
    | ⟨hfatal, message, herror⟩
  · have hinputs := (hsection _).mp ⟨hissues.mp hclean, hvalue⟩
    rw [hok, reported, hreported]
    refine ⟨iff_of_true hclean ⟨reading, rfl⟩, iff_of_true hclean ⟨_, hinputs⟩, ?_⟩
    intro found inputs hfound hcreate
    cases hfound
    exact hinputs.1.unique (Inputs.readFrom_of_create hpart hcreate)
  · rw [herror, reported]
    refine ⟨iff_of_false hfatal ?_, iff_of_false hfatal ?_, ?_⟩
    · rintro ⟨reading, hok⟩
      cases hok
    · rintro ⟨inputs, hinputs⟩
      exact hfatal (hissues.mpr ((hsection inputs).mpr hinputs).1)
    · intro reading inputs hok
      cases hok

end Placed

/-- A section that gives its fields in as many ways as a document can. -/
def mixedSection : Value :=
  .object .plain [
    ("pi", .number 3),
    ("lambda", .string "0x1.8p1"),
    ("mu", .string "-2e-3"),
    ("x", .string " +7 "),
    ("hashHex", .string " 0XfF "),
    ("blockSize", .number (Double.signedZero true)),
    ("crcValue", .string "01")]

theorem mixedSection_isSection : mixedSection.IsSection where
  hash := ⟨" 0XfF ", rfl⟩
  plain field hne := by
    cases field with
    | pi => exact .number 3
    | lambda => exact .text "0x1.8p1"
    | mu => exact .text "-2e-3"
    | x => exact .text " +7 "
    | hashHex => exact absurd rfl hne
    | blockSize => exact .number (Double.signedZero true)
    | crcValue => exact .text "01"

theorem mixedSection_agrees :
    (∃ other reading, validate (withInputs [] other) = .ok reading) ∧ mixedSection.IsSection
      ∧ Clean (reported (validate (withInputs [] mixedSection)))
      ∧ ∃ reading, validate (withInputs [] mixedSection) = .ok reading
        ∧ (Draft.ofValue mixedSection >>= Inputs.create) = .ok reading.value.inputs := by
  have hany : (validate (withInputs [] mixedSection)).toOption.any (fun _ => true) = true := by
    decide +kernel
  have hcreate : (Draft.ofValue mixedSection >>= Inputs.create).toOption.any (fun _ => true)
      = true := by
    decide +kernel
  obtain ⟨reading, hok, -⟩ := Outcome.exists_of_any hany
  obtain ⟨inputs, hinputs, -⟩ := Outcome.exists_of_any hcreate
  have hother : ∃ other reading, validate (withInputs [] other) = .ok reading :=
    ⟨mixedSection, reading, hok⟩
  obtain ⟨haccepted, -, hequal⟩ := validate_agrees_create hother mixedSection_isSection
  exact ⟨hother, mixedSection_isSection, haccepted.mpr ⟨reading, hok⟩, reading, hok,
    hequal reading inputs hok hinputs ▸ hinputs⟩

end Config

end AngleSeries
