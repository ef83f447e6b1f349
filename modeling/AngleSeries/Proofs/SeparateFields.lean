import AngleSeries.Proofs.RuleEffects
import Mathlib.Algebra.BigOperators.Group.List.Basic
import Mathlib.Logic.Function.Iterate

/-!
# Rules on separate fields

Checked rules act on three fields and read no other field than the one they write. Their amounts
therefore add up over any number of steps, and a hash passes through the rollovers as if there were
no other rules. The order of the rules matters only among the rollovers.
-/

namespace AngleSeries

namespace Effect

/-- The effect of a number of steps. -/
def times (effect : Effect) (n : ℕ) : Effect :=
  ⟨n * effect.x, n * effect.crcValue, effect.hash^[n]⟩

@[simp]
theorem apply_times_zero (effect : Effect) (inputs : Inputs) :
    (effect.times 0).apply inputs = inputs := by
  simp [apply, times]

theorem apply_times_succ (effect : Effect) (n : ℕ) (inputs : Inputs) :
    (effect.times (n + 1)).apply inputs = (effect.times n).apply (effect.apply inputs) := by
  have hsum : ∀ start amount : ℤ, start + (n + 1) * amount = start + amount + n * amount := by
    intro start amount
    ring
  simp [apply, times, hsum]

end Effect

namespace RuleSpec

def rollsHash : RuleSpec → Bool
  | .hashRollover _ => true
  | _ => false

theorem rolled_of_not_rollsHash {spec : RuleSpec} (hspec : spec.rollsHash = false) :
    spec.rolled = id := by
  cases spec with
  | hashRollover bits => cases hspec
  | incrementX delta => rfl
  | incrementCrc delta => rfl

/-- Only the rollovers matter to the hash. -/
theorem hash_stepEffect_filter (specs : List RuleSpec) :
    (stepEffect (specs.filter rollsHash)).hash = (stepEffect specs).hash := by
  induction specs with
  | nil => rfl
  | cons spec specs ih =>
      by_cases hspec : spec.rollsHash = true
      · rw [List.filter_cons_of_pos hspec, stepEffect, stepEffect, Effect.andThen, Effect.andThen, ih]
      · rw [List.filter_cons_of_neg hspec, ih, stepEffect, Effect.andThen, effect,
          rolled_of_not_rollsHash (Bool.eq_false_iff.mpr hspec), Function.comp_id]

/-- The rollovers matter to nothing but the hash. -/
theorem stepEffect_filter (specs : List RuleSpec) :
    stepEffect (specs.filter rollsHash) = ⟨0, 0, (stepEffect specs).hash⟩ := by
  have hnone : ∀ amount : RuleSpec → ℤ, (∀ bits, amount (.hashRollover bits) = 0) →
      ((specs.filter rollsHash).map amount).sum = 0 := by
    intro amount hamount
    refine List.sum_eq_zero fun total htotal => ?_
    obtain ⟨spec, hspec, rfl⟩ := List.mem_map.mp htotal
    cases spec with
    | hashRollover bits => exact hamount bits
    | incrementX delta | incrementCrc delta => cases (List.mem_filter.mp hspec).2
  ext : 1
  · rw [stepEffect_x]
    exact hnone xDelta fun _ => rfl
  · rw [stepEffect_crcValue]
    exact hnone crcDelta fun _ => rfl
  · exact hash_stepEffect_filter specs

theorem stepEffect_eq_of_perm {specs others : List RuleSpec} (hperm : others.Perm specs)
    (hrollovers : others.filter rollsHash = specs.filter rollsHash) :
    stepEffect others = stepEffect specs := by
  ext : 1
  · rw [stepEffect_x, stepEffect_x]
    exact (hperm.map xDelta).sum_eq
  · rw [stepEffect_crcValue, stepEffect_crcValue]
    exact (hperm.map crcDelta).sum_eq
  · rw [← hash_stepEffect_filter, hrollovers, hash_stepEffect_filter]

end RuleSpec

namespace Rule

/-- Applies a rule once at each of the given step counters. -/
def repeated (rule : Rule) (counters : List Double) (inputs : Inputs) : Except Fault Inputs :=
  counters.foldlM rule inputs

theorem Does.repeated {rule : Rule} {effect : Effect} (hdoes : rule.Does effect)
    (counters : List Double) {inputs : Inputs} (hsteppable : inputs.Steppable) :
    rule.repeated counters inputs = .ok ((effect.times counters.length).apply inputs) := by
  induction counters generalizing inputs with
  | nil =>
      rw [List.length_nil, Effect.apply_times_zero]
      rfl
  | cons t counters ih =>
      obtain ⟨hrule, hnext⟩ := hdoes inputs t hsteppable
      rw [Rule.repeated, List.foldlM_cons, hrule, Outcome.ok_bind, List.length_cons,
        Effect.apply_times_succ]
      exact ih hnext

/-- **Separate fields.** After any number of steps, `x` and the checksum have grown by that many times
the sum of their amounts, the hash is what the rollovers alone make of it, and no other field has
changed. Rules in another order do the same if the rollovers among them keep theirs. -/
theorem fields_separate {payload : Value} {reading : Reading Config}
    (hok : Config.validate payload = .ok reading) {draft : Draft} {inputs : Inputs}
    (hbuilt : draft.normalize = .ok inputs) {y : ℕ} (hhash : inputs.y = .ok y)
    (counters : List Double) :
    let specs := reading.value.rules
    let n := (counters.length : ℤ)
    ∃ rule rolling hashHex,
      ofValues (specs.map RuleSpec.toValue) = .ok rule
        ∧ ofValues ((specs.filter RuleSpec.rollsHash).map RuleSpec.toValue) = .ok rolling
        ∧ rolling.repeated counters inputs = .ok { inputs with hashHex }
        ∧ rule.repeated counters inputs = .ok { inputs with
            x := inputs.x + n * (specs.map RuleSpec.xDelta).sum
            crcValue := inputs.crcValue + n * (specs.map RuleSpec.crcDelta).sum
            hashHex }
        ∧ ((∀ spec ∈ specs, spec.rollsHash = false) → hashHex = inputs.hashHex)
        ∧ ∀ others : List RuleSpec, others.Perm specs →
          others.filter RuleSpec.rollsHash = specs.filter RuleSpec.rollsHash →
          ∃ other, ofValues (others.map RuleSpec.toValue) = .ok other
            ∧ other.repeated counters inputs = rule.repeated counters inputs := by
  intro specs n
  have hvalid : ∀ spec ∈ specs, spec.Valid := (Config.validate_valid hok).rules
  obtain ⟨hpi, hlambda, hmu⟩ := Inputs.normalize_finite hbuilt
  have hsteppable : inputs.Steppable := ⟨hpi, hlambda, hmu, y, hhash⟩
  obtain ⟨rule, hrule, hdoes⟩ := ofValues_does hvalid
  have hrollovers : ∀ spec ∈ specs.filter RuleSpec.rollsHash, spec.Valid := by
    intro spec hspec
    exact hvalid spec (List.mem_filter.mp hspec).1
  obtain ⟨rolling, hrolling, hrolls⟩ := ofValues_does hrollovers
  rw [RuleSpec.stepEffect_filter] at hrolls
  have hrun := hdoes.repeated counters hsteppable
  refine ⟨rule, rolling, (RuleSpec.stepEffect specs).hash^[counters.length] inputs.hashHex, hrule,
    hrolling, ?_, ?_, ?_, ?_⟩
  · rw [hrolls.repeated counters hsteppable]
    simp [Effect.apply, Effect.times]
  · rw [hrun, ← RuleSpec.stepEffect_x, ← RuleSpec.stepDelta, ← RuleSpec.stepEffect_crcValue]
    rfl
  · intro hnone
    have hfilter : specs.filter RuleSpec.rollsHash = [] :=
      List.filter_eq_nil_iff.mpr fun spec hspec => by simp [hnone spec hspec]
    have hhash : (RuleSpec.stepEffect specs).hash = id := by
      rw [← RuleSpec.hash_stepEffect_filter, hfilter]
      rfl
    rw [hhash, Function.iterate_id]
    rfl
  · intro others hperm horder
    have hothers : ∀ spec ∈ others, spec.Valid := by
      intro spec hspec
      exact hvalid spec (hperm.mem_iff.mp hspec)
    obtain ⟨other, hother, hsame⟩ := ofValues_does hothers
    rw [RuleSpec.stepEffect_eq_of_perm hperm horder] at hsame
    exact ⟨other, hother, by rw [hsame.repeated counters hsteppable, hrun]⟩

/-- Rules on all three fields, with two rollovers of different width and other rules between them. -/
def interleaved : Value :=
  .object .plain [
    ("inputs", .object .plain [
      ("pi", .string "1"),
      ("lambda", .string "1"),
      ("mu", .string "1"),
      ("x", .string "1"),
      ("hashHex", .string "1"),
      ("blockSize", .string "1"),
      ("crcValue", .string "0")]),
    ("rules", .array [
      .object .plain [("kind", .string "hash-rollover"), ("bits", .number 8)],
      .object .plain [("kind", .string "increment-x"), ("delta", .string "-5")],
      .object .plain [("kind", .string "increment-crc"), ("delta", .number 7)],
      .object .plain [("kind", .string "hash-rollover"), ("bits", .number 5)],
      .object .plain [("kind", .string "increment-x"), ("delta", .string "3")]])]

/-- Inputs whose hash the wider rollover takes around and whose block has nothing in it. -/
def wideHash : Draft where
  pi := .string "1"
  lambda := .number 0
  mu := .string "-2e-3"
  x := .integer 4
  hashHex := .string " 0XfF "
  blockSize := .number 0
  crcValue := .integer 0

theorem interleaved_separate :
    ∃ reading inputs, Config.validate interleaved = .ok reading ∧ wideHash.normalize = .ok inputs
      ∧ inputs.y = .ok 255 ∧ ∃ rule hashHex,
        ofValues (reading.value.rules.map RuleSpec.toValue) = .ok rule
          ∧ rule.repeated [0, 1, 2] inputs
            = .ok { inputs with x := inputs.x + 3 * -2, crcValue := inputs.crcValue + 3 * 7, hashHex } := by
  have hrules : (Config.validate interleaved).toOption.any (fun reading =>
      (reading.value.rules.map RuleSpec.xDelta).sum = -2
        ∧ (reading.value.rules.map RuleSpec.crcDelta).sum = 7) = true := by
    decide +kernel
  have hinputs : wideHash.normalize.toOption.any (fun inputs => inputs.y.toOption = some 255)
      = true := by
    decide +kernel
  obtain ⟨reading, hok, htest⟩ := Outcome.exists_of_any hrules
  obtain ⟨hx, hcrc⟩ := of_decide_eq_true htest
  obtain ⟨inputs, hbuilt, hnumber⟩ := Outcome.exists_of_any hinputs
  have hhash : inputs.y = .ok 255 := by
    cases hy : inputs.y with
    | error fault => simp [hy, Except.toOption] at hnumber
    | ok y => simpa [hy, Except.toOption] using hnumber
  obtain ⟨rule, rolling, hashHex, hrule, -, -, hrepeated, -⟩ :=
    fields_separate hok hbuilt hhash [0, 1, 2]
  rw [hx, hcrc] at hrepeated
  exact ⟨reading, inputs, hok, hbuilt, hhash, rule, hashHex, hrule, hrepeated⟩

end Rule

end AngleSeries
