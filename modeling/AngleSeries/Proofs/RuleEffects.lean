import AngleSeries.Proofs.Acceptance

/-!
# What rules do to inputs

A rule of a configuration adds to `x`, adds to the checksum or rewrites the hash, and leaves every
other field alone. So it has an effect that does not depend on the step counter, and the effect of
several rules within one step is the composition of theirs. Inputs stay such that rules can be
applied to them: decimals stay finite and the hash stays a number. Inputs in the middle of a
composite may have an empty block all the same; only the sum of all amounts counts, because nothing
is evaluated before the end of a step.
-/

namespace AngleSeries

/-- Inputs that rules can be applied to. -/
structure Inputs.Steppable (inputs : Inputs) : Prop where
  pi : inputs.pi.isFinite = true
  lambda : inputs.lambda.isFinite = true
  mu : inputs.mu.isFinite = true
  hash : ∃ y, inputs.y = .ok y

/-- Inputs that can be evaluated as far as anything but the block is concerned. -/
structure Inputs.Readable (inputs : Inputs) : Prop where
  pi : inputs.pi.isFinite = true
  lambda : inputs.lambda.isFinite = true
  mu : inputs.mu.isFinite = true
  divisor : inputs.mu.isZero = false
  hash : ∃ y, inputs.y = .ok y

/-! ### Effects -/

/-- What is added to two of the fields, and what becomes of the hash. -/
@[ext]
structure Effect where
  x : ℤ
  crcValue : ℤ
  hash : Text → Text

namespace Effect

def apply (effect : Effect) (inputs : Inputs) : Inputs :=
  { inputs with
    x := inputs.x + effect.x
    crcValue := inputs.crcValue + effect.crcValue
    hashHex := effect.hash inputs.hashHex }

def none : Effect := ⟨0, 0, id⟩

def andThen (first second : Effect) : Effect :=
  ⟨first.x + second.x, first.crcValue + second.crcValue, second.hash ∘ first.hash⟩

@[simp]
theorem apply_none (inputs : Inputs) : none.apply inputs = inputs := by
  simp [apply, none]

@[simp]
theorem apply_andThen (first second : Effect) (inputs : Inputs) :
    (first.andThen second).apply inputs = second.apply (first.apply inputs) := by
  simp [apply, andThen, add_assoc]

end Effect

/-- The hash one further, modulo `2 ^ bits`; a text that is no hash stays as it is. -/
def Hash.rolled (bits : ℕ) (text : Text) : Text :=
  match Hash.parse text with
  | .ok y => Hash.write ((y + 1) % 2 ^ bits) ((bits + 3) / 4)
  | .error _ => text

theorem Hash.rolled_of_parse {text : Text} {y : ℕ} (hparse : parse text = .ok y) (bits : ℕ) :
    rolled bits text = write ((y + 1) % 2 ^ bits) ((bits + 3) / 4) := by
  rw [rolled, hparse]

namespace RuleSpec

/-- What one application of a rule adds to `x`. -/
def xDelta : RuleSpec → ℤ
  | .incrementX delta => delta
  | _ => 0

/-- What one application of a rule adds to the checksum. -/
def crcDelta : RuleSpec → ℤ
  | .incrementCrc delta => delta
  | _ => 0

/-- What one application of a rule makes of the hash. -/
def rolled : RuleSpec → Text → Text
  | .hashRollover bits => Hash.rolled (bits.toInt?.getD 0).toNat
  | _ => id

def effect (spec : RuleSpec) : Effect :=
  ⟨spec.xDelta, spec.crcDelta, spec.rolled⟩

/-- What one step adds to the checksum. -/
def stepDelta (specs : List RuleSpec) : ℤ :=
  (specs.map crcDelta).sum

/-- The effect of one step, the first rule first. -/
def stepEffect : List RuleSpec → Effect
  | [] => .none
  | spec :: specs => spec.effect.andThen (stepEffect specs)

theorem stepEffect_x (specs : List RuleSpec) :
    (stepEffect specs).x = (specs.map xDelta).sum := by
  induction specs with
  | nil => rfl
  | cons spec specs ih => simp [stepEffect, Effect.andThen, effect, ih]

theorem stepEffect_crcValue (specs : List RuleSpec) :
    (stepEffect specs).crcValue = stepDelta specs := by
  induction specs with
  | nil => rfl
  | cons spec specs ih => simp [stepEffect, stepDelta, Effect.andThen, effect, ih]

end RuleSpec

namespace Rule

/-- A rule with an effect on all inputs it can be applied to, at every step counter. -/
def Does (rule : Rule) (effect : Effect) : Prop :=
  ∀ inputs t, inputs.Steppable →
    rule inputs t = .ok (effect.apply inputs) ∧ (effect.apply inputs).Steppable

/-- A rule that keeps inputs readable and does nothing to the block but add to the checksum. -/
def Adds (rule : Rule) (delta : ℤ) : Prop :=
  ∀ inputs t, inputs.Readable → ∃ next, rule inputs t = .ok next ∧ next.Readable
    ∧ next.blockSize = inputs.blockSize ∧ next.crcValue = inputs.crcValue + delta

end Rule

theorem Value.toDecimal_decimal {d : Decimal} (hfinite : d.isFinite = true) (field : Text) :
    (Value.decimal d).toDecimal field = .ok d := by
  simp only [toDecimal, readDecimal]
  rw [if_pos hfinite]

namespace Inputs

variable {inputs : Inputs}

/-- What has its types already keeps them. -/
theorem normalize_typed (inputs : Inputs) (hpi : inputs.pi.isFinite = true)
    (hlambda : inputs.lambda.isFinite = true) (hmu : inputs.mu.isFinite = true) :
    Draft.normalize ⟨.decimal inputs.pi, .decimal inputs.lambda, .decimal inputs.mu,
      .integer inputs.x, .string inputs.hashHex, .integer inputs.blockSize,
      .integer inputs.crcValue⟩ = .ok inputs := by
  simp only [Draft.normalize, Value.toHash, Value.toDecimal_decimal hpi,
    Value.toDecimal_decimal hlambda, Value.toDecimal_decimal hmu, Value.toInteger, Outcome.ok_bind]

theorem Evaluable.readable {y : ℕ} (heval : inputs.Evaluable y) : inputs.Readable :=
  ⟨heval.pi, heval.lambda, heval.mu, heval.divisor, y, heval.hash⟩

theorem Readable.steppable (hread : inputs.Readable) : inputs.Steppable :=
  ⟨hread.pi, hread.lambda, hread.mu, hread.hash⟩

variable (hsteppable : inputs.Steppable)

include hsteppable

theorem update_x (x : ℤ) : inputs.update { x := .integer x } = .ok { inputs with x } :=
  normalize_typed { inputs with x } hsteppable.pi hsteppable.lambda hsteppable.mu

theorem update_crcValue (crcValue : ℤ) :
    inputs.update { crcValue := .integer crcValue } = .ok { inputs with crcValue } :=
  normalize_typed { inputs with crcValue } hsteppable.pi hsteppable.lambda hsteppable.mu

theorem update_hashHex (hashHex : Text) :
    inputs.update { hashHex := .string hashHex } = .ok { inputs with hashHex } :=
  normalize_typed { inputs with hashHex } hsteppable.pi hsteppable.lambda hsteppable.mu

end Inputs

namespace Rule

theorem incrementX_does (delta : ℤ) :
    (incrementX (.integer delta)).Does (RuleSpec.incrementX delta).effect := by
  intro inputs t hsteppable
  have hnext : (RuleSpec.incrementX delta).effect.apply inputs
      = { inputs with x := inputs.x + delta } := by
    simp [Effect.apply, RuleSpec.effect, RuleSpec.xDelta, RuleSpec.crcDelta, RuleSpec.rolled]
  rw [hnext]
  exact ⟨Inputs.update_x hsteppable _,
    hsteppable.pi, hsteppable.lambda, hsteppable.mu, hsteppable.hash⟩

theorem incrementCrc_does (delta : ℤ) :
    (incrementCrc (.integer delta)).Does (RuleSpec.incrementCrc delta).effect := by
  intro inputs t hsteppable
  have hnext : (RuleSpec.incrementCrc delta).effect.apply inputs
      = { inputs with crcValue := inputs.crcValue + delta } := by
    simp [Effect.apply, RuleSpec.effect, RuleSpec.xDelta, RuleSpec.crcDelta, RuleSpec.rolled]
  rw [hnext]
  exact ⟨Inputs.update_crcValue hsteppable _,
    hsteppable.pi, hsteppable.lambda, hsteppable.mu, hsteppable.hash⟩

/-- The next hash is written by the library itself, so it can be read. -/
theorem rollHash_does (bits : ℕ) : (rollHash bits).Does ⟨0, 0, Hash.rolled bits⟩ := by
  intro inputs t hsteppable
  obtain ⟨y, hy⟩ := hsteppable.hash
  have hnext : (Effect.mk 0 0 (Hash.rolled bits)).apply inputs
      = { inputs with hashHex := Hash.write ((y + 1) % 2 ^ bits) ((bits + 3) / 4) } := by
    simp [Effect.apply, Hash.rolled_of_parse hy]
  rw [hnext]
  refine ⟨?_, hsteppable.pi, hsteppable.lambda, hsteppable.mu, _, Hash.parse_write _ _⟩
  rw [rollHash, hy]
  exact Inputs.update_hashHex hsteppable _

theorem ofValue_does {spec : RuleSpec} (hvalid : spec.Valid) :
    ∃ rule, ofValue spec.toValue = .ok rule ∧ rule.Does spec.effect := by
  cases spec with
  | incrementX delta => exact ⟨_, ofValue_incrementX delta, incrementX_does delta⟩
  | incrementCrc delta => exact ⟨_, ofValue_incrementCrc delta, incrementCrc_does delta⟩
  | hashRollover bits =>
      obtain ⟨n, hn, hlow, hhigh⟩ := hvalid
      have hmax : Config.maxRolloverBits = 4096 := rfl
      have hlimit : rolloverLimit = 2 ^ 30 := rfl
      have heffect : (RuleSpec.hashRollover bits).effect = ⟨0, 0, Hash.rolled n.toNat⟩ := by
        simp only [RuleSpec.effect, RuleSpec.xDelta, RuleSpec.crcDelta, RuleSpec.rolled, hn,
          Option.getD_some]
      refine ⟨rollHash n.toNat, ?_, heffect ▸ rollHash_does _⟩
      rw [ofValue_hashRollover]
      simp only [hashRollover, Value.number?, Option.bind_some, hn]
      rw [if_neg (by omega), if_neg (by omega)]

theorem compose_nil_does : (compose []).Does .none := by
  intro inputs t hsteppable
  rw [Effect.apply_none]
  exact ⟨rfl, hsteppable⟩

theorem compose_cons_does {rule : Rule} {rules : List Rule} {first rest : Effect}
    (hrule : rule.Does first) (hrules : (compose rules).Does rest) :
    (compose (rule :: rules)).Does (first.andThen rest) := by
  intro inputs t hsteppable
  obtain ⟨hmiddle, hmiddleSteppable⟩ := hrule inputs t hsteppable
  obtain ⟨hnext, hnextSteppable⟩ := hrules (first.apply inputs) t hmiddleSteppable
  rw [Effect.apply_andThen]
  refine ⟨?_, hnextSteppable⟩
  rw [compose, List.foldlM_cons, hmiddle]
  exact hnext

theorem compose_singleton (rule : Rule) : compose [rule] = rule := by
  funext inputs t
  rw [compose, List.foldlM_cons]
  cases hrule : rule inputs t <;> rfl

/-- A single rule does what a composite of it alone would do. -/
theorem ofValues_eq_compose (specs : List Value) :
    ofValues specs = (specs.mapM ofValue).map compose := by
  rw [ofValues]
  cases hrules : specs.mapM ofValue with
  | error fault => rfl
  | ok rules =>
      match rules with
      | [rule] => exact congrArg Except.ok (compose_singleton rule).symm
      | [] | _ :: _ :: _ => rfl

/-- **One step of checked rules.** A list of them is a rule, and its effect is the composition of
theirs. -/
theorem ofValues_does {specs : List RuleSpec} (hvalid : ∀ spec ∈ specs, spec.Valid) :
    ∃ rule, ofValues (specs.map RuleSpec.toValue) = .ok rule
      ∧ rule.Does (RuleSpec.stepEffect specs) := by
  have hrules : ∃ rules, (specs.map RuleSpec.toValue).mapM ofValue = .ok rules
      ∧ (compose rules).Does (RuleSpec.stepEffect specs) := by
    induction specs with
    | nil => exact ⟨[], rfl, compose_nil_does⟩
    | cons spec specs ih =>
        obtain ⟨rule, hrule, hdoes⟩ := ofValue_does (hvalid spec List.mem_cons_self)
        obtain ⟨rules, hrules, hrest⟩ := ih fun other hmem => hvalid other (List.mem_cons_of_mem _ hmem)
        refine ⟨rule :: rules, ?_, compose_cons_does hdoes hrest⟩
        rw [List.map_cons, List.mapM_cons, hrule, hrules]
        rfl
  obtain ⟨rules, hmap, hdoes⟩ := hrules
  exact ⟨compose rules, by rw [ofValues_eq_compose, hmap]; rfl, hdoes⟩

theorem Does.adds {rule : Rule} {effect : Effect} (hdoes : rule.Does effect) :
    rule.Adds effect.crcValue := by
  intro inputs t hread
  obtain ⟨hrule, hnext⟩ := hdoes inputs t hread.steppable
  exact ⟨_, hrule, ⟨hnext.pi, hnext.lambda, hnext.mu, hread.divisor, hnext.hash⟩, rfl, rfl⟩

/-- A step adds up the amounts of all checksum increments. -/
theorem ofValues_adds {specs : List RuleSpec} (hvalid : ∀ spec ∈ specs, spec.Valid) :
    ∃ rule, ofValues (specs.map RuleSpec.toValue) = .ok rule
      ∧ rule.Adds (RuleSpec.stepDelta specs) := by
  obtain ⟨rule, hrule, hdoes⟩ := ofValues_does hvalid
  exact ⟨rule, hrule, RuleSpec.stepEffect_crcValue specs ▸ hdoes.adds⟩

end Rule

end AngleSeries
