import AngleSeries.Proofs.Outcomes
import AngleSeries.Series

/-!
# Complaints about a count of steps

Only the check of a series complains of a count of steps. Every other part of a round has faults of
its own, inputs, rules, angles and the sequencer, and none of them is that complaint. So where the
check is passed a series can only complain of a count if its oracle or its sink does.
-/

namespace AngleSeries

/-- An outcome that is no complaint about a count of steps. -/
def Outcome.SparesSteps {α : Type} (outcome : Except Fault α) : Prop :=
  ∀ text, outcome ≠ .error (.range (.steps text))

namespace Outcome

variable {α β : Type}

theorem sparesSteps_ok (a : α) : SparesSteps (.ok a) := by
  intro text hfault
  cases hfault

theorem SparesSteps.bind {first : Except Fault α} {next : α → Except Fault β}
    (hfirst : SparesSteps first) (hnext : ∀ a, SparesSteps (next a)) :
    SparesSteps (first >>= next) := by
  intro text hfault
  rcases bind_eq_error_iff.mp hfault with hfault | ⟨a, -, hfault⟩
  · exact hfirst text hfault
  · exact hnext a text hfault

end Outcome

open Outcome

namespace Value

theorem sparesSteps_plain (value : Value) : SparesSteps value.plain := by
  intro text hfault
  unfold plain at hfault
  split at hfault <;> cases hfault

theorem sparesSteps_reject {α : Type} (value : Value) (field : Text) (expected : Expectation) :
    SparesSteps (value.reject field expected : Except Fault α) := by
  intro text hfault
  unfold reject at hfault
  split at hfault <;> cases hfault

theorem sparesSteps_toDecimal (value : Value) (field : Text) :
    SparesSteps (value.toDecimal field) := by
  unfold toDecimal
  split
  · exact sparesSteps_reject _ _ _
  · split
    · exact sparesSteps_ok _
    · exact sparesSteps_reject _ _ _

theorem sparesSteps_toInteger (value : Value) (field : Text) :
    SparesSteps (value.toInteger field) := by
  unfold toInteger
  split
  · exact sparesSteps_ok _
  · split
    · exact sparesSteps_ok _
    · exact sparesSteps_reject _ _ _
  · split
    · exact sparesSteps_ok _
    · exact sparesSteps_reject _ _ _
  · intro text hfault
    cases hfault

theorem sparesSteps_toHash (value : Value) : SparesSteps value.toHash := by
  unfold toHash
  split
  · exact sparesSteps_ok _
  · exact sparesSteps_reject _ _ _

theorem sparesSteps_wholeNumber (value : Value) : SparesSteps value.wholeNumber := by
  have htext (given : Text) : SparesSteps (wholeOfText given) := by
    intro text hfault
    unfold wholeOfText at hfault
    split at hfault <;> cases hfault
  unfold wholeNumber
  split
  case h_3 => exact sparesSteps_ok _
  case h_4 =>
    split
    · exact sparesSteps_ok _
    · intro text hfault
      cases hfault
  case h_5 => exact sparesSteps_ok _
  case h_6 => exact htext _
  case h_7 => exact sparesSteps_ok _
  case h_9 => exact (sparesSteps_plain _).bind fun text => htext text
  all_goals
    intro text hfault
    cases hfault

theorem sparesSteps_amount (value : Value) : SparesSteps value.amount := by
  unfold amount
  split
  · exact sparesSteps_ok _
  · exact sparesSteps_wholeNumber _

end Value

namespace Fraction

theorem sparesSteps_make (n d : Int) (exponent : Double) : SparesSteps (make n d exponent) := by
  intro text hfault
  unfold make at hfault
  split at hfault
  · cases hfault
  · split at hfault <;> cases hfault

theorem sparesSteps_ofDecimal (d : Decimal) : SparesSteps (ofDecimal d) := by
  intro text hfault
  cases d <;> cases hfault

theorem sparesSteps_toDecimal (value : Fraction) : SparesSteps value.toDecimal := by
  have hpower : SparesSteps (powerOfTen value.exponent) := by
    intro text hfault
    unfold powerOfTen at hfault
    split at hfault
    · split at hfault <;> cases hfault
    · cases hfault
  unfold toDecimal
  by_cases hzero : value.exponent.isZero = true
  · rw [if_pos hzero]
    exact sparesSteps_ok _
  · rw [if_neg hzero]
    exact hpower.bind fun power => sparesSteps_ok _

end Fraction

namespace Inputs

theorem sparesSteps_y (inputs : Inputs) : SparesSteps inputs.y := by
  intro text hfault
  unfold y Hash.parse at hfault
  dsimp only at hfault
  split at hfault
  · cases hfault
  · split at hfault <;> cases hfault

theorem sparesSteps_secret (inputs : Inputs) : SparesSteps inputs.secret := by
  have hdivisor : SparesSteps (requireDivisor inputs.mu) := by
    intro text hfault
    unfold requireDivisor at hfault
    split at hfault <;> cases hfault
  have hblock : SparesSteps inputs.c := by
    intro text hfault
    unfold c blockTotal at hfault
    dsimp only at hfault
    split at hfault <;> cases hfault
  have hfraction : SparesSteps inputs.secretFraction := by
    unfold secretFraction
    refine hdivisor.bind fun _ => inputs.sparesSteps_y.bind fun y => hblock.bind fun c => ?_
    refine (Fraction.sparesSteps_ofDecimal inputs.pi).bind fun pi => ?_
    refine (Fraction.sparesSteps_ofDecimal inputs.lambda).bind fun lambda => ?_
    refine (Fraction.sparesSteps_make _ _ _).bind fun numerator => ?_
    refine (Fraction.sparesSteps_ofDecimal inputs.mu).bind fun mu => ?_
    exact (Fraction.sparesSteps_make _ _ _).bind fun denominator => Fraction.sparesSteps_make _ _ _
  exact hfraction.bind Fraction.sparesSteps_toDecimal

theorem sparesSteps_update (inputs : Inputs) (changes : Draft) :
    SparesSteps (inputs.update changes) := by
  unfold update Draft.normalize
  refine (Value.sparesSteps_toHash _).bind fun hashHex => ?_
  refine (Value.sparesSteps_toDecimal _ _).bind fun pi => ?_
  refine (Value.sparesSteps_toDecimal _ _).bind fun lambda => ?_
  refine (Value.sparesSteps_toDecimal _ _).bind fun mu => ?_
  refine (Value.sparesSteps_toInteger _ _).bind fun x => ?_
  refine (Value.sparesSteps_toInteger _ _).bind fun blockSize => ?_
  exact (Value.sparesSteps_toInteger _ _).bind fun crcValue => sparesSteps_ok _

end Inputs

namespace Rule

variable {rule : Rule} {rules : List Rule}

theorem sparesSteps_rollHash (bits : Nat) (inputs : Inputs) (t : Double) :
    SparesSteps (rollHash bits inputs t) :=
  inputs.sparesSteps_y.bind fun _ => inputs.sparesSteps_update _

theorem sparesSteps_ofValue {spec : Value} (hrule : ofValue spec = .ok rule) (inputs : Inputs)
    (t : Double) : SparesSteps (rule inputs t) := by
  unfold ofValue at hrule
  dsimp only at hrule
  split at hrule
  · cases hrule
  · split at hrule
    · cases hrule
      exact (Value.sparesSteps_amount _).bind fun delta => inputs.sparesSteps_update _
    · split at hrule
      · cases hrule
        exact (Value.sparesSteps_amount _).bind fun delta => inputs.sparesSteps_update _
      · split at hrule
        · unfold hashRollover at hrule
          split at hrule
          · cases hrule
            exact sparesSteps_rollHash _ _ _
          · split at hrule
            · split at hrule
              · obtain ⟨text, -, hfault⟩ := bind_eq_ok_iff.mp hrule
                cases hfault
              · split at hrule
                · cases hrule
                · cases hrule
                  exact sparesSteps_rollHash _ _ _
            · obtain ⟨text, -, hfault⟩ := bind_eq_ok_iff.mp hrule
              cases hfault
        · cases hrule
          intro text hfault
          cases hfault

theorem sparesSteps_compose (hrules : ∀ rule ∈ rules, ∀ inputs t, SparesSteps (rule inputs t))
    (inputs : Inputs) (t : Double) : SparesSteps (compose rules inputs t) := by
  induction rules generalizing inputs with
  | nil => exact sparesSteps_ok inputs
  | cons rule rules ih =>
      rw [compose, List.foldlM_cons]
      refine (hrules rule (List.mem_cons_self ..) inputs t).bind fun next => ?_
      exact ih (fun other hother => hrules other (List.mem_cons_of_mem rule hother)) next

theorem sparesSteps_ofValues {specs : List Value} (hspecs : ofValues specs = .ok rule)
    (inputs : Inputs) (t : Double) : SparesSteps (rule inputs t) := by
  obtain ⟨rules, hrules, hspecs⟩ := bind_eq_ok_iff.mp hspecs
  have hspares : ∀ rule ∈ rules, ∀ inputs t, SparesSteps (rule inputs t) :=
    forall_mem_of_mapM hrules fun _ _ => sparesSteps_ofValue
  split at hspecs
  · cases hspecs
    exact hspares _ (List.mem_singleton_self _) inputs t
  · cases hspecs
    exact sparesSteps_compose hspares inputs t

end Rule

theorem Angle.sparesSteps_ofDecimal (value : Decimal) (scale : Value) :
    SparesSteps (Angle.ofDecimal value scale) := by
  have hscale : SparesSteps (Angle.readScale scale) := by
    unfold Angle.readScale
    split
    · exact sparesSteps_ok _
    · split
      · exact sparesSteps_ok _
      · intro text hfault
        cases hfault
    · refine (Value.sparesSteps_plain _).bind fun shown text hfault => ?_
      cases hfault
  unfold Angle.ofDecimal
  dsimp only
  split
  · intro text hfault
    cases hfault
  · exact hscale.bind fun scale => sparesSteps_ok _

/-! ### Actions -/

/-- An action that never ends with a complaint about a count of steps. -/
def Action.SparesSteps {σ α : Type} (action : Action σ α) : Prop :=
  ∀ env, Outcome.SparesSteps (action env).1

namespace Action

variable {σ τ α β : Type}

theorem sparesSteps_pure (a : α) : SparesSteps (pure a : Action σ α) :=
  fun _ => sparesSteps_ok a

theorem sparesSteps_get : SparesSteps (get : Action σ σ) :=
  fun env => sparesSteps_ok env

theorem sparesSteps_ofExcept {outcome : Except Fault α} (houtcome : Outcome.SparesSteps outcome) :
    SparesSteps (ofExcept outcome : Action σ α) :=
  fun _ => houtcome

theorem SparesSteps.bind {first : Action σ α} {next : α → Action σ β} (hfirst : SparesSteps first)
    (hnext : ∀ a, SparesSteps (next a)) : SparesSteps (first >>= next) := by
  intro env
  have hspares := hfirst env
  rcases hrun : first env with ⟨outcome, env'⟩
  rw [hrun] at hspares
  cases outcome with
  | error fault =>
      rw [bind_of_error next hrun]
      intro text hfault
      cases hfault
      exact hspares text rfl
  | ok a =>
      rw [bind_of_ok next hrun]
      exact hnext a env'

theorem SparesSteps.inSecond {action : Action τ α} (haction : SparesSteps action) :
    SparesSteps (action.inSecond : Action (σ × τ) α) :=
  fun env => haction env.2

theorem SparesSteps.withPrivate {action : Action (σ × τ) α} (haction : SparesSteps action)
    (start : σ) : SparesSteps (action.withPrivate start) := by
  intro env text hfault
  have hspares := haction (start, env)
  rcases hrun : action (start, env) with ⟨outcome, last, inner⟩
  rw [hrun] at hspares
  rw [withPrivate_run hrun] at hfault
  cases outcome with
  | error fault =>
      cases hfault
      exact hspares text rfl
  | ok a => cases hfault

end Action

/-! ### Oracles -/

/-- Oracles that settings select complain of their count of shots, or of a seed that is no number. -/
theorem Oracle.sparesSteps_select (kind seed : Value) (angle : Double) (shots : Value) :
    Action.SparesSteps ((select kind seed).loose angle shots) := by
  have hshots {σ : Type} :
      Action.SparesSteps (Action.ofExcept (readShots shots) : Action σ Nat) := by
    refine Action.sparesSteps_ofExcept ?_
    have hrange : Outcome.SparesSteps (shots.outOfRange .shots : Except Fault Nat) := by
      refine shots.sparesSteps_plain.bind fun shown text hfault => ?_
      cases hfault
    unfold readShots
    split
    · split
      · exact hrange
      · exact sparesSteps_ok _
    · exact hrange
  refine Action.SparesSteps.bind ?_ fun p => Action.sparesSteps_pure (Value.number p)
  unfold select
  split
  · cases hseed : seed.toDouble? with
    | some seed =>
        simp only [sampledBy, hseed]
        refine hshots.bind fun n => Action.sparesSteps_get.bind fun call => ?_
        exact Action.SparesSteps.bind (fun env => sparesSteps_ok ()) fun _ =>
          Action.sparesSteps_pure _
    | none =>
        simp only [sampledBy, hseed]
        refine hshots.bind fun n env text hfault => ?_
        cases hfault
  · exact hshots.bind fun n => Action.sparesSteps_pure _

/-! ### Series -/

theorem Sequencer.sparesSteps_currentValue {σ : Type} :
    Action.SparesSteps (currentValue : Action (State × σ) Decimal) :=
  Action.sparesSteps_get.bind fun env => Action.sparesSteps_ofExcept env.1.inputs.sparesSteps_secret

/-- A step evaluates its candidate and commits it, in either order. -/
theorem Sequencer.sparesSteps_step {σ : Type} {rule : Rule} (policy : CommitPolicy)
    (hrule : ∀ inputs t, SparesSteps (rule inputs t)) :
    Action.SparesSteps (unobserved rule policy : Sequencer σ).step := by
  have hcommit (state : State) : Action.SparesSteps (commit state : Action (State × σ) Unit) :=
    fun _ => sparesSteps_ok _
  have hsecret (state : State) :
      Action.SparesSteps (Action.ofExcept state.inputs.secret : Action (State × σ) Decimal) :=
    Action.sparesSteps_ofExcept state.inputs.sparesSteps_secret
  have hadopt (state : State) :
      Action.SparesSteps (adopt policy state : Action (State × σ) Decimal) := by
    cases policy with
    | commitFirst => exact (hcommit state).bind fun _ => hsecret state
    | validateFirst =>
        exact (hsecret state).bind fun value =>
          (hcommit state).bind fun _ => Action.sparesSteps_pure value
  refine Action.sparesSteps_get.bind fun env => ?_
  refine (Action.sparesSteps_ofExcept (hrule env.1.inputs env.1.t)).bind fun inputs => ?_
  refine (hadopt ⟨env.1.t + 1, inputs⟩).bind fun value => ?_
  exact (Action.sparesSteps_pure ()).inSecond.bind fun _ => Action.sparesSteps_pure value

namespace Setup

variable {σ : Type} {setup : Setup σ}
  (hstep : Action.SparesSteps setup.sequencer.step)
  (horacle : ∀ angle shots, Action.SparesSteps (setup.oracle angle shots))
  (hsink : ∀ record, Action.SparesSteps (setup.sink record))

include horacle in
theorem sparesSteps_observe : Action.SparesSteps setup.observe := by
  have hshare (p1 : Value) : Outcome.SparesSteps p1.toDouble := by
    intro text hfault
    unfold Value.toDouble at hfault
    split at hfault <;> cases hfault
  refine Sequencer.sparesSteps_currentValue.bind fun value => ?_
  refine (Action.sparesSteps_ofExcept (Angle.sparesSteps_ofDecimal _ _)).bind fun theta => ?_
  refine (horacle theta _).inSecond.bind fun p1 => ?_
  refine Action.sparesSteps_get.bind fun env => ?_
  exact (Action.sparesSteps_ofExcept (hshare p1)).bind fun share => Action.sparesSteps_pure _

include hstep horacle hsink

theorem sparesSteps_advance : Action.SparesSteps setup.advance := by
  refine (sparesSteps_observe horacle).bind fun record => ?_
  refine (hsink record).inSecond.bind fun _ => ?_
  exact hstep.bind fun _ => Action.sparesSteps_pure record

theorem sparesSteps_simulate (n : Nat) : Action.SparesSteps (setup.simulate n) := by
  induction n with
  | zero => exact Action.sparesSteps_pure []
  | succ n ih =>
      refine (sparesSteps_advance hstep horacle hsink).bind fun record => ?_
      exact ih.bind fun rest => Action.sparesSteps_pure (record :: rest)

end Setup

end AngleSeries
