import AngleSeries.Proofs.Sequencing
import AngleSeries.Series

/-!
# The choice of the policy

The policy shows in one event only, a step whose candidate cannot be evaluated, and there it decides
about nothing but the state that is left behind. Until then two sequencers of different policy cannot
be told apart, whatever is called and whatever else fails. A series stops at its first fault, so its
records and its outcome do not depend on the policy at all.
-/

namespace AngleSeries

/-- What an action comes to if steps are evaluated first and if they are committed first: the same,
or a fault over a candidate that stays in the second case only. -/
inductive Parallel {σ α : Type} (rule : Rule) :
    Except Fault α × (State × σ) → Except Fault α × (State × σ) → Prop where
  | same (result : Except Fault α × (State × σ)) : Parallel rule result result
  | refused {state : State} {inputs : Inputs} {fault : Fault} {env : σ}
      (hrule : rule state.inputs state.t = .ok inputs) (hsecret : inputs.secret = .error fault) :
      Parallel rule (.error fault, (state, env)) (.error fault, (⟨state.t + 1, inputs⟩, env))

theorem Parallel.bind {σ α β : Type} {rule : Rule} {first second : Action (State × σ) α}
    {next other : α → Action (State × σ) β} {env : State × σ}
    (hfirst : Parallel rule (first env) (second env))
    (hnext : ∀ a env, Parallel rule (next a env) (other a env)) :
    Parallel rule ((first >>= next) env) ((second >>= other) env) := by
  generalize hleft : first env = left at hfirst
  generalize hright : second env = right at hfirst
  cases hfirst with
  | same =>
      obtain ⟨outcome, env'⟩ := left
      cases outcome with
      | error fault =>
          rw [Action.bind_of_error _ hleft, Action.bind_of_error _ hright]
          exact .same _
      | ok a =>
          rw [Action.bind_of_ok _ hleft, Action.bind_of_ok _ hright]
          exact hnext a env'
  | refused hrule hsecret =>
      rw [Action.bind_of_error _ hleft, Action.bind_of_error _ hright]
      exact .refused hrule hsecret

namespace Sequencer

variable {σ : Type} (sequencer : Sequencer σ)

def under (policy : CommitPolicy) : Sequencer σ :=
  { sequencer with policy }

/-- The rule fails, or it succeeds with inputs that can be evaluated. -/
def Evaluates (state : State) : Prop :=
  ∀ inputs fault, sequencer.rule state.inputs state.t = .ok inputs → inputs.secret ≠ .error fault

/-- A step goes the same way under both policies unless its candidate cannot be evaluated. -/
theorem step_under (env : State × σ) :
    (sequencer.Evaluates env.1
        ∧ (sequencer.under .validateFirst).step env = (sequencer.under .commitFirst).step env)
      ∨ ∃ inputs fault, sequencer.rule env.1.inputs env.1.t = .ok inputs
        ∧ inputs.secret = .error fault
        ∧ (sequencer.under .validateFirst).step env = (.error fault, env)
        ∧ (sequencer.under .commitFirst).step env
          = (.error fault, (⟨env.1.t + 1, inputs⟩, env.2)) := by
  obtain ⟨state, env⟩ := env
  have hunder : ∀ policy, (sequencer.under policy).rule state.inputs state.t
      = sequencer.rule state.inputs state.t := fun _ => rfl
  cases hrule : sequencer.rule state.inputs state.t with
  | error fault =>
      refine .inl ⟨fun inputs fault hother => ?_, ?_⟩
      · rw [hrule] at hother
        cases hother
      · rw [step_of_rule_error ((hunder .validateFirst).trans hrule),
          step_of_rule_error ((hunder .commitFirst).trans hrule)]
  | ok inputs =>
      cases hsecret : inputs.secret with
      | error fault =>
          exact .inr ⟨inputs, fault, rfl, hsecret,
            step_of_refused ((hunder .validateFirst).trans hrule) rfl hsecret,
            step_of_left ((hunder .commitFirst).trans hrule) rfl hsecret⟩
      | ok value =>
          refine .inl ⟨fun other fault hother hfault => ?_, ?_⟩
          · rw [hrule] at hother
            cases hother
            rw [hsecret] at hfault
            cases hfault
          · have hstep : ∀ policy, (sequencer.under policy).step (state, env)
                = ((sequencer.observer ⟨state.t + 1, inputs⟩ value env).1.map fun _ => value,
                  (⟨state.t + 1, inputs⟩,
                    (sequencer.observer ⟨state.t + 1, inputs⟩ value env).2)) := by
              intro policy
              exact step_of_ok ((hunder policy).trans hrule) hsecret rfl
            rw [hstep, hstep]

/-! ### Rows of calls -/

/-- What each call of a row returns and leaves behind. What the observer was told is in the environment
that it acts on. -/
def transcript : List Call → State × σ → List (Except Fault (Option Decimal) × (State × σ))
  | [], _ => []
  | call :: calls, env =>
    sequencer.perform call env :: transcript calls (sequencer.perform call env).2

/-- No step of a row comes to a candidate that cannot be evaluated. -/
def Clear : List Call → State × σ → Prop
  | [], _ => True
  | call :: calls, env =>
    (call = .step → sequencer.Evaluates env.1) ∧ Clear calls (sequencer.perform call env).2

/-- How a row goes under both policies: alike to its end, or alike up to the first step whose
candidate cannot be evaluated. -/
inductive Agrees (calls : List Call) (env : State × σ) : Prop where
  | throughout (hclear : (sequencer.under .validateFirst).Clear calls env)
      (hsame : (sequencer.under .validateFirst).transcript calls env
        = (sequencer.under .commitFirst).transcript calls env)
  | parted (before rest : List Call) (reached : State × σ) (inputs : Inputs) (fault : Fault)
      (hcalls : calls = before ++ .step :: rest)
      (hclear : (sequencer.under .validateFirst).Clear before env)
      (hsame : (sequencer.under .validateFirst).transcript before env
        = (sequencer.under .commitFirst).transcript before env)
      (hfirst : (sequencer.under .validateFirst).after before env = reached)
      (hsecond : (sequencer.under .commitFirst).after before env = reached)
      (hrule : sequencer.rule reached.1.inputs reached.1.t = .ok inputs)
      (hsecret : inputs.secret = .error fault)
      (hrefused : (sequencer.under .validateFirst).step reached = (.error fault, reached))
      (hleft : (sequencer.under .commitFirst).step reached
        = (.error fault, (⟨reached.1.t + 1, inputs⟩, reached.2)))

/-- What one call in front does. -/
theorem Agrees.cons {call : Call} {calls : List Call} {env : State × σ}
    (hclear : call = .step → sequencer.Evaluates env.1)
    (hsame : (sequencer.under .validateFirst).perform call env
      = (sequencer.under .commitFirst).perform call env)
    (hrest : sequencer.Agrees calls ((sequencer.under .validateFirst).perform call env).2) :
    sequencer.Agrees (call :: calls) env := by
  cases hrest with
  | throughout hclearRest hsameRest =>
      refine .throughout ⟨hclear, hclearRest⟩ ?_
      rw [transcript, transcript, ← hsame, hsameRest]
  | parted before rest reached inputs fault hcalls hclearRest hsameRest hfirst hsecond hrule
      hsecret hrefused hleft =>
      refine .parted (call :: before) rest reached inputs fault ?_ ⟨hclear, hclearRest⟩ ?_ hfirst ?_
        hrule hsecret hrefused hleft
      · rw [hcalls, List.cons_append]
      · rw [transcript, transcript, ← hsame, hsameRest]
      · rw [after, ← hsame]
        exact hsecond

theorem agrees (calls : List Call) (env : State × σ) : sequencer.Agrees calls env := by
  induction calls generalizing env with
  | nil => exact .throughout trivial rfl
  | cons call calls ih =>
      by_cases hcall : call = .step
      case neg =>
        refine Agrees.cons sequencer (fun h => absurd h hcall) ?_ (ih _)
        cases call with
        | step => exact absurd rfl hcall
        | value => rfl
        | state => rfl
      subst hcall
      rcases sequencer.step_under env with
        ⟨hevaluates, hsame⟩ | ⟨inputs, fault, hrule, hsecret, hrefused, hleft⟩
      · exact Agrees.cons sequencer (fun _ => hevaluates) (Action.bind_congr_run _ hsame) (ih _)
      · exact .parted [] calls env inputs fault rfl trivial rfl rfl rfl hrule hsecret hrefused hleft

theorem step_parallel (env : State × σ) :
    Parallel sequencer.rule ((sequencer.under .validateFirst).step env)
      ((sequencer.under .commitFirst).step env) := by
  rcases sequencer.step_under env with
    ⟨-, hsame⟩ | ⟨inputs, fault, hrule, hsecret, hrefused, hleft⟩
  · rw [hsame]
    exact .same _
  · rw [hrefused, hleft]
    exact .refused hrule hsecret

end Sequencer

/-! ### Series -/

namespace Setup

variable {σ : Type} (setup : Setup σ)

def under (policy : CommitPolicy) : Setup σ :=
  { setup with sequencer := setup.sequencer.under policy }

/-- The record is taken before the step, so nothing but the step depends on the policy. -/
theorem advance_parallel (env : State × σ) :
    Parallel setup.sequencer.rule ((setup.under .validateFirst).advance env)
      ((setup.under .commitFirst).advance env) := by
  rw [advance, advance]
  refine Parallel.bind (.same _) fun record env => ?_
  refine Parallel.bind (.same _) fun _ env => ?_
  refine Parallel.bind (setup.sequencer.step_parallel env) fun _ env => ?_
  exact .same _

theorem simulate_parallel (n : ℕ) (env : State × σ) :
    Parallel setup.sequencer.rule ((setup.under .validateFirst).simulate n env)
      ((setup.under .commitFirst).simulate n env) := by
  induction n generalizing env with
  | zero => exact .same _
  | succ n ih =>
      rw [simulate, simulate]
      refine Parallel.bind (setup.advance_parallel env) fun record env => ?_
      exact Parallel.bind (ih env) fun rest env => .same _

end Setup

/-- **What the policy decides.** Rows of calls go alike under both policies up to the first step whose
candidate cannot be evaluated, which fails with one fault in both. A series keeps the same records and
ends in the same way, in the same state too unless a candidate was refused. -/
theorem policies_part {σ : Type} (sequencer : Sequencer σ) :
    (∀ calls env, sequencer.Agrees calls env)
      ∧ ∀ (encoding : Encoding) (oracle : LooseOracle σ) (sink : Record → Action σ Unit)
          (steps : Value) (env : State × σ),
        Parallel sequencer.rule
          (Setup.run ⟨sequencer.under .validateFirst, encoding, oracle, sink⟩ steps env)
          (Setup.run ⟨sequencer.under .commitFirst, encoding, oracle, sink⟩ steps env) := by
  refine ⟨sequencer.agrees, fun encoding oracle sink steps env => ?_⟩
  rw [Setup.run, Setup.run]
  refine Parallel.bind (.same _) fun n env => ?_
  exact Setup.simulate_parallel ⟨sequencer, encoding, oracle, sink⟩ n env

end AngleSeries
