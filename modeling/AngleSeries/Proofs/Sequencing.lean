import AngleSeries.Proofs.Outcomes
import AngleSeries.Proofs.WholeDoubles
import AngleSeries.Sequence.Sequencer

/-!
# Calls of a sequencer

A step can fail in three places, in the rule, in the evaluation and in the observer, and what it
leaves behind depends on the place and on the commit policy. A row of calls goes on after a failure,
so whatever holds of a sequencer has to hold after failures as well.
-/

namespace AngleSeries

namespace Sequencer

variable {σ : Type} (sequencer : Sequencer σ) (state : State) (env : σ)

/-! ### One step -/

theorem currentValue_run :
    currentValue (state, env) = (state.inputs.secret, (state, env)) := rfl

section Step

variable {sequencer state env} {fault : Fault} {inputs : Inputs} {value : Decimal}

theorem step_of_rule_error (hrule : sequencer.rule state.inputs state.t = .error fault) :
    sequencer.step (state, env) = (.error fault, (state, env)) := by
  rw [step, Action.bind_of_ok _ (Action.get_run _)]
  exact Action.bind_of_error _ (by rw [Action.ofExcept_run, hrule])

/-- A step whose rule succeeds adopts the candidate and then tells the observer. -/
theorem step_of_rule_ok (hrule : sequencer.rule state.inputs state.t = .ok inputs) :
    sequencer.step (state, env) = (do
      let value ← adopt sequencer.policy ⟨state.t + 1, inputs⟩
      (sequencer.observer ⟨state.t + 1, inputs⟩ value).inSecond
      return value : Action (State × σ) Decimal) (state, env) := by
  rw [step, Action.bind_of_ok _ (Action.get_run _)]
  exact Action.bind_of_ok _ (by rw [Action.ofExcept_run, hrule])

theorem step_of_refused (hrule : sequencer.rule state.inputs state.t = .ok inputs)
    (hpolicy : sequencer.policy = .validateFirst) (hsecret : inputs.secret = .error fault) :
    sequencer.step (state, env) = (.error fault, (state, env)) := by
  rw [step_of_rule_ok hrule, hpolicy]
  refine Action.bind_of_error _ ?_
  rw [adopt]
  exact Action.bind_of_error _ (by rw [Action.ofExcept_run, hsecret])

theorem step_of_left (hrule : sequencer.rule state.inputs state.t = .ok inputs)
    (hpolicy : sequencer.policy = .commitFirst) (hsecret : inputs.secret = .error fault) :
    sequencer.step (state, env) = (.error fault, (⟨state.t + 1, inputs⟩, env)) := by
  rw [step_of_rule_ok hrule, hpolicy]
  refine Action.bind_of_error _ ?_
  change (inputs.secret, _) = _
  rw [hsecret]

theorem adopt_of_ok (policy : CommitPolicy) {candidate : State}
    (hsecret : candidate.inputs.secret = .ok value) :
    adopt policy candidate (state, env) = (.ok value, (candidate, env)) := by
  cases policy with
  | commitFirst =>
      change (candidate.inputs.secret, _) = _
      rw [hsecret]
  | validateFirst =>
      rw [adopt, Action.bind_of_ok _ (by rw [Action.ofExcept_run, hsecret])]
      rfl

/-- Whatever the policy, a step that evaluates is committed, and then the observer is told. -/
theorem step_of_ok (hrule : sequencer.rule state.inputs state.t = .ok inputs)
    (hsecret : inputs.secret = .ok value) {outcome : Except Fault Unit} {env' : σ}
    (hobserver : sequencer.observer ⟨state.t + 1, inputs⟩ value env = (outcome, env')) :
    sequencer.step (state, env)
      = (outcome.map fun _ => value, (⟨state.t + 1, inputs⟩, env')) := by
  rw [step_of_rule_ok hrule, Action.bind_of_ok _ (adopt_of_ok _ hsecret)]
  have htold := Action.inSecond_run hobserver (⟨state.t + 1, inputs⟩ : State)
  cases outcome with
  | error fault => exact Action.bind_of_error _ htold
  | ok _ => exact Action.bind_of_ok _ htold

end Step

/-- The five ways a step can go, with what it returns and leaves behind. -/
inductive Stepped (sequencer : Sequencer σ) (state : State) (env : σ) :
    Except Fault Decimal × (State × σ) → Prop where
  | unruled {fault : Fault} (hrule : sequencer.rule state.inputs state.t = .error fault) :
      Stepped sequencer state env (.error fault, (state, env))
  | refused {inputs : Inputs} {fault : Fault} (hpolicy : sequencer.policy = .validateFirst)
      (hrule : sequencer.rule state.inputs state.t = .ok inputs)
      (hsecret : inputs.secret = .error fault) :
      Stepped sequencer state env (.error fault, (state, env))
  | left {inputs : Inputs} {fault : Fault} (hpolicy : sequencer.policy = .commitFirst)
      (hrule : sequencer.rule state.inputs state.t = .ok inputs)
      (hsecret : inputs.secret = .error fault) :
      Stepped sequencer state env (.error fault, (⟨state.t + 1, inputs⟩, env))
  | unheard {inputs : Inputs} {value : Decimal} {fault : Fault} {env' : σ}
      (hrule : sequencer.rule state.inputs state.t = .ok inputs)
      (hsecret : inputs.secret = .ok value)
      (hobserver : sequencer.observer ⟨state.t + 1, inputs⟩ value env = (.error fault, env')) :
      Stepped sequencer state env (.error fault, (⟨state.t + 1, inputs⟩, env'))
  | heard {inputs : Inputs} {value : Decimal} {env' : σ}
      (hrule : sequencer.rule state.inputs state.t = .ok inputs)
      (hsecret : inputs.secret = .ok value)
      (hobserver : sequencer.observer ⟨state.t + 1, inputs⟩ value env = (.ok (), env')) :
      Stepped sequencer state env (.ok value, (⟨state.t + 1, inputs⟩, env'))

theorem step_cases : sequencer.Stepped state env (sequencer.step (state, env)) := by
  cases hrule : sequencer.rule state.inputs state.t with
  | error fault =>
      rw [step_of_rule_error hrule]
      exact .unruled hrule
  | ok inputs =>
      cases hsecret : inputs.secret with
      | error fault =>
          cases hpolicy : sequencer.policy with
          | validateFirst =>
              rw [step_of_refused hrule hpolicy hsecret]
              exact .refused hpolicy hrule hsecret
          | commitFirst =>
              rw [step_of_left hrule hpolicy hsecret]
              exact .left hpolicy hrule hsecret
      | ok value =>
          cases hobserver : sequencer.observer ⟨state.t + 1, inputs⟩ value env with
          | mk outcome env' =>
              rw [step_of_ok hrule hsecret hobserver]
              cases outcome with
              | error fault => exact .unheard hrule hsecret hobserver
              | ok _ => exact .heard hrule hsecret hobserver

/-- What one call does at a state, whichever of the three places fails. -/
structure Contract : Prop where
  /-- A rule that fails leaves the state alone, and nobody is told. -/
  unruled : ∀ fault, sequencer.rule state.inputs state.t = .error fault →
    sequencer.step (state, env) = (.error fault, (state, env))
  /-- So does a candidate that cannot be evaluated, if it is evaluated first. -/
  refused : ∀ inputs fault, sequencer.policy = .validateFirst →
    sequencer.rule state.inputs state.t = .ok inputs → inputs.secret = .error fault →
    sequencer.step (state, env) = (.error fault, (state, env))
  /-- If it is committed first, it stays, but still nobody is told. -/
  left : ∀ inputs fault, sequencer.policy = .commitFirst →
    sequencer.rule state.inputs state.t = .ok inputs → inputs.secret = .error fault →
    sequencer.step (state, env) = (.error fault, (⟨state.t + 1, inputs⟩, env))
  /-- A step that evaluates is committed and told once, even if the observer then fails. -/
  told : ∀ inputs value outcome env', sequencer.rule state.inputs state.t = .ok inputs →
    inputs.secret = .ok value →
    sequencer.observer ⟨state.t + 1, inputs⟩ value env = (outcome, env') →
    sequencer.step (state, env) = (outcome.map fun _ => value, (⟨state.t + 1, inputs⟩, env'))
  /-- What a step returns is the value at the state it leaves behind. -/
  agrees : ∀ value next, sequencer.step (state, env) = (.ok value, next) →
    currentValue next = (.ok value, next)
  /-- Reading changes nothing. -/
  reads : currentValue (state, env) = (state.inputs.secret, (state, env))

theorem contract : sequencer.Contract state env where
  unruled _ := step_of_rule_error
  refused _ _ hpolicy hrule := step_of_refused hrule hpolicy
  left _ _ hpolicy hrule := step_of_left hrule hpolicy
  told _ _ _ _ hrule hsecret := step_of_ok hrule hsecret
  agrees value next hstep := by
    have hcases := sequencer.step_cases state env
    rw [hstep] at hcases
    cases hcases with
    | heard hrule hsecret hobserver => rw [currentValue_run, hsecret]
  reads := rfl

/-! ### Rows of calls -/

/-- Carries out calls one after another. A failure does not end the row. -/
def after : List Call → State × σ → State × σ
  | [], env => env
  | call :: calls, env => after calls (sequencer.perform call env).2

/-- Whether a step at a state is committed: the rule succeeds, and so does the evaluation if it
comes first. -/
def commits (state : State) : Bool :=
  match sequencer.rule state.inputs state.t with
  | .error _ => false
  | .ok inputs => sequencer.policy = .commitFirst || inputs.secret.isOk

/-- How many steps of a row are committed. -/
def committed : List Call → State × σ → ℕ
  | [], _ => 0
  | call :: calls, env =>
    (if call = .step ∧ sequencer.commits env.1 then 1 else 0)
      + committed calls (sequencer.perform call env).2

section Row

variable {sequencer state env}

theorem step_of_not_commits (hcommits : sequencer.commits state = false) :
    (sequencer.step (state, env)).2.1 = state := by
  have hcases := sequencer.step_cases state env
  generalize sequencer.step (state, env) = result at hcases ⊢
  cases hcases with
  | unruled hrule => rfl
  | refused hpolicy hrule hsecret => rfl
  | left hpolicy hrule hsecret => simp [commits, hrule, hpolicy] at hcommits
  | unheard hrule hsecret hobserver =>
      simp [commits, hrule, hsecret, Except.isOk, Except.toBool] at hcommits
  | heard hrule hsecret hobserver =>
      simp [commits, hrule, hsecret, Except.isOk, Except.toBool] at hcommits

/-- A committed step counts on, and its inputs can be evaluated unless they came first. -/
theorem step_of_commits (hcommits : sequencer.commits state = true) :
    ∃ inputs, (sequencer.step (state, env)).2.1 = ⟨state.t + 1, inputs⟩
      ∧ (sequencer.policy = .validateFirst → ∃ value, inputs.secret = .ok value) := by
  have hcases := sequencer.step_cases state env
  generalize sequencer.step (state, env) = result at hcases ⊢
  cases hcases with
  | unruled hrule => simp [commits, hrule] at hcommits
  | refused hpolicy hrule hsecret =>
      simp [commits, hrule, hsecret, hpolicy, Except.isOk, Except.toBool] at hcommits
  | left hpolicy hrule hsecret =>
      exact ⟨_, rfl, fun hother => by rw [hpolicy] at hother; cases hother⟩
  | unheard hrule hsecret hobserver => exact ⟨_, rfl, fun _ => ⟨_, hsecret⟩⟩
  | heard hrule hsecret hobserver => exact ⟨_, rfl, fun _ => ⟨_, hsecret⟩⟩

theorem perform_step :
    (sequencer.perform .step (state, env)).2 = (sequencer.step (state, env)).2 := by
  rw [perform]
  cases hstep : sequencer.step (state, env) with
  | mk outcome next =>
      cases outcome with
      | error fault => rw [Action.bind_of_error _ hstep]
      | ok value => rw [Action.bind_of_ok _ hstep, Action.pure_run]

theorem perform_read {call : Call} (hcall : call ≠ .step) :
    (sequencer.perform call (state, env)).2 = (state, env) := by
  cases call with
  | step => exact absurd rfl hcall
  | state => rfl
  | value =>
      rw [perform]
      cases hsecret : state.inputs.secret with
      | error fault => rw [Action.bind_of_error _ (by rw [currentValue_run, hsecret])]
      | ok value =>
          rw [Action.bind_of_ok _ (by rw [currentValue_run, hsecret]), Action.pure_run]

end Row

/-- What every committed step carries on, with one more of them counted, holds at the end of a row. -/
theorem after_of_step {P : ℕ → State → Prop}
    (hstep : ∀ k state inputs, P k state →
      (sequencer.policy = .validateFirst → ∃ value, inputs.secret = .ok value) →
      P (k + 1) ⟨state.t + 1, inputs⟩)
    (calls : List Call) {k : ℕ} (hstart : P k state) :
    P (k + sequencer.committed calls (state, env)) (sequencer.after calls (state, env)).1 := by
  -- The start varies: what follows a call is a shorter row from wherever the call has led.
  induction calls generalizing state env k with
  | nil => exact hstart
  | cons call calls ih =>
      rw [after, committed]
      by_cases hcall : call = .step
      · subst hcall
        rw [perform_step]
        cases hnext : (sequencer.step (state, env)).2 with
        | mk state' env' =>
            cases hcommits : sequencer.commits state with
            | false =>
                have hsame := @step_of_not_commits _ sequencer state env hcommits
                rw [hnext] at hsame
                subst hsame
                simpa using ih _ env' hstart
            | true =>
                obtain ⟨inputs, hstate, hfound⟩ := @step_of_commits _ sequencer state env hcommits
                rw [hnext] at hstate
                subst hstate
                simpa [add_assoc] using ih _ env' (hstep k state inputs hstart hfound)
      · rw [perform_read hcall]
        simpa [hcall] using ih state env hstart

theorem committed_le_count (calls : List Call) :
    sequencer.committed calls (state, env) ≤ calls.count .step := by
  induction calls generalizing state env with
  | nil => exact le_rfl
  | cons call calls ih =>
      rw [committed]
      have hrest : sequencer.committed calls (sequencer.perform call (state, env)).2
          ≤ calls.count .step := ih _ _
      by_cases hcall : call = .step
      · subst hcall
        rw [List.count_cons_self]
        split_ifs <;> omega
      · rw [List.count_cons_of_ne hcall, if_neg fun h => hcall h.1, zero_add]
        exact hrest

/-- The counter counts the committed steps as far as binary64 numbers can. -/
theorem after_counter (calls : List Call) {t₀ : ℕ} (hcounter : state.t.toInt? = some (t₀ : ℤ))
    (hle : t₀ ≤ 2 ^ 53) :
    (sequencer.after calls (state, env)).1.t.toInt?
      = some ((min (t₀ + sequencer.committed calls (state, env)) (2 ^ 53) : ℕ) : ℤ) := by
  have hstep : ∀ (k : ℕ) (state : State) (inputs : Inputs),
      state.t.toInt? = some ((min (t₀ + k) (2 ^ 53) : ℕ) : ℤ) →
      (sequencer.policy = .validateFirst → ∃ value, inputs.secret = .ok value) →
      (state.t + 1).toInt? = some ((min (t₀ + (k + 1)) (2 ^ 53) : ℕ) : ℤ) := by
    intro k state inputs hreached _
    rw [Double.toInt?_add_one hreached (min_le_right _ _)]
    congr 2
    omega
  have hreached := sequencer.after_of_step state env
    (P := fun k state => state.t.toInt? = some ((min (t₀ + k) (2 ^ 53) : ℕ) : ℤ)) hstep calls
    (k := 0) (by rw [add_zero, min_eq_left hle, hcounter])
  rwa [zero_add] at hreached

/-- Under evaluation first there always is a value. -/
theorem after_value (calls : List Call)
    (hvalue : sequencer.policy = .validateFirst → ∃ value, state.inputs.secret = .ok value) :
    sequencer.policy = .validateFirst →
      ∃ value, (sequencer.after calls (state, env)).1.inputs.secret = .ok value :=
  sequencer.after_of_step state env
    (P := fun _ state => sequencer.policy = .validateFirst → ∃ value, state.inputs.secret = .ok value)
    (fun _ _ _ _ hfound => hfound) calls (k := 0) hvalue

variable {sequencer state env} in
/-- What holds all along a row: the counter is exact, and under evaluation first there always is a
value. -/
theorem after_invariant (calls : List Call) {t₀ : ℤ} (hcounter : state.t.toInt? = some t₀)
    (hnonneg : 0 ≤ t₀) (hcalls : t₀ + calls.count .step < 2 ^ 53)
    (hvalue : sequencer.policy = .validateFirst → ∃ value, state.inputs.secret = .ok value) :
    (sequencer.after calls (state, env)).1.t.toInt?
        = some (t₀ + sequencer.committed calls (state, env))
      ∧ (sequencer.policy = .validateFirst →
        ∃ value, (sequencer.after calls (state, env)).1.inputs.secret = .ok value) := by
  lift t₀ to ℕ using hnonneg
  have hcount := sequencer.committed_le_count state env calls
  refine ⟨?_, sequencer.after_value state env calls hvalue⟩
  rw [sequencer.after_counter state env calls hcounter (by omega), min_eq_left (by omega),
    Nat.cast_add]

/-- **Every row of calls.** Whatever failed on the way, the next call keeps its contract where the
row has led, the counter has counted the committed steps, and under evaluation first there is a
value to read. -/
theorem calls_contract (calls : List Call) {start : State} {value₀ : Decimal} {t₀ : ℤ}
    (hvalue : start.inputs.secret = .ok value₀) (hcounter : start.t.toInt? = some t₀)
    (hnonneg : 0 ≤ t₀) (hcalls : t₀ + calls.count .step < 2 ^ 53) :
    ∃ state env', sequencer.after calls (start, env) = (state, env')
      ∧ sequencer.Contract state env'
      ∧ state.t.toInt? = some (t₀ + sequencer.committed calls (start, env))
      ∧ (sequencer.policy = .validateFirst →
        ∃ value, currentValue (state, env') = (.ok value, (state, env'))) := by
  obtain ⟨hreached, hfound⟩ := after_invariant calls hcounter
    hnonneg hcalls fun _ => ⟨value₀, hvalue⟩
  refine ⟨_, _, rfl, contract _ _ _, hreached, fun hpolicy => ?_⟩
  obtain ⟨value, hsecret⟩ := hfound hpolicy
  exact ⟨value, by rw [currentValue_run, hsecret]⟩

/-- A state whose block has just the one unit that a step takes away. -/
def lastUnit : State where
  t := 0
  inputs := {
    pi := .ofInt 1
    lambda := .ofInt 1
    mu := .ofInt 1
    x := 1
    hashHex := "1"
    blockSize := 1
    crcValue := 0 }

/-- Takes one unit of the block with every step. -/
def shrinking : Sequencer Unit :=
  unobserved (Rule.incrementCrc (.integer (-1))) .validateFirst

theorem shrinking_contract :
    lastUnit.inputs.secret = .ok (.ofInt 1) ∧ ∃ state env',
      shrinking.after [.step, .value, .step] (lastUnit, ()) = (state, env')
        ∧ shrinking.Contract state env'
        ∧ state.t.toInt? = some (0 + shrinking.committed [.step, .value, .step] (lastUnit, ()))
        ∧ ∃ value, currentValue (state, env') = (.ok value, (state, env')) := by
  have hvalue : lastUnit.inputs.secret = .ok (.ofInt 1) := by decide +kernel
  obtain ⟨state, env', hafter, hcontract, hcounter, hfound⟩ :=
    shrinking.calls_contract () [.step, .value, .step] hvalue
      (Double.toInt?_ofNat (n := 0) (by decide)) le_rfl (by decide)
  exact ⟨hvalue, state, env', hafter, hcontract, hcounter, hfound rfl⟩

end Sequencer

end AngleSeries
