import AngleSeries.Proofs.RunOutcomes
import AngleSeries.Proofs.StepsComplaints

/-!
# What pacing changes

A series that is run at once checks its count of steps before anything else. A paced one only counts
its rounds up to it, and the check inside a round sees the count of that round. For counts that pass
the check the two are the same series. For any other count the series that is run at once says what
is wrong with it, and a paced one never does: it takes its rounds and ends as they end.
-/

namespace AngleSeries

namespace Plan

/-! ### Runs of a plan -/

section Execution

variable {σ : Type} {plan : Plan} {rule : Rule} (oracle : LooseOracle σ)
  (sink : Record → Action σ Unit) (env : σ)

/-- What a plan makes its series with, once its rule is known. -/
def setup (plan : Plan) (rule : Rule) : Setup σ where
  sequencer := .unobserved rule (.ofValue plan.settings.commitPolicy)
  encoding := ⟨plan.settings.scale, plan.settings.shots⟩
  oracle := oracle
  sink := sink

/-- The summary of the records of a series and the state it ended in. -/
def close (plan : Plan) (ended : List Record × State) : Action σ Summary := do
  let digest ← Action.ofExcept (plan.digest ended.1)
  return ⟨plan.name, plan.settings, ended.1, ended.2, digest⟩

theorem execute_of_rule_error {fault : Fault} (hrule : Rule.ofValues plan.rules = .error fault)
    (paced : Bool) : plan.execute paced oracle sink env = (.error fault, env) :=
  Action.bind_of_error _ (by rw [Action.ofExcept_run, hrule])

variable {steps : Double} (hrule : Rule.ofValues plan.rules = .ok rule)
  (hsteps : plan.settings.steps = .number steps)

include hrule hsteps

theorem execute_direct : plan.execute false oracle sink env = (do
    let ended ← Action.withPrivate ⟨0, plan.inputs⟩
      ((plan.setup oracle sink rule).run (.number steps))
    plan.close ended : Action σ Summary) env := by
  rw [← hsteps]
  exact Action.bind_of_ok _ (by rw [Action.ofExcept_run, hrule])

theorem execute_paced : plan.execute true oracle sink env = (do
    let ended ← Action.withPrivate ⟨0, plan.inputs⟩
      ((plan.setup oracle sink rule).simulate steps.naturalsBelow)
    plan.close ended : Action σ Summary) env := by
  rw [← Setup.runPaced_number, ← hsteps]
  exact Action.bind_of_ok _ (by rw [Action.ofExcept_run, hrule])

/-- A count that passes the check is the number of rounds. -/
theorem execute_eq_of_isCount (hcount : IsCount 0 steps) :
    plan.execute true oracle sink env = plan.execute false oracle sink env := by
  obtain ⟨n, -, -, hrun, hpaced⟩ := (plan.setup oracle sink rule).run_counted hcount
  rw [execute_paced oracle sink env hrule hsteps, execute_direct oracle sink env hrule hsteps, hrun,
    ← hpaced, Setup.runPaced_number]

/-- A count that does not pass the check is reported before anything else happens. -/
theorem execute_of_not_isCount (hcount : ¬ IsCount 0 steps) :
    plan.execute false oracle sink env = (.error (.range (.steps steps.text)), env) := by
  have hrun : (plan.setup oracle sink rule).run (.number steps) (⟨0, plan.inputs⟩, env)
      = (.error (.range (.steps steps.text)), (⟨0, plan.inputs⟩, env)) :=
    Action.bind_of_error _ (by rw [Setup.readSteps_of_not_isCount hcount, Action.ofExcept_run])
  rw [execute_direct oracle sink env hrule hsteps]
  exact Action.bind_of_error _ (Action.withPrivate_run hrun)

/-- No round of a paced run complains of the count, and neither does the digest. -/
theorem sparesSteps_execute_paced (horacle : ∀ angle shots, (oracle angle shots).SparesSteps)
    (hsink : ∀ record, (sink record).SparesSteps) :
    Outcome.SparesSteps (plan.execute true oracle sink env).1 := by
  have hstep : Action.SparesSteps (plan.setup oracle sink rule).sequencer.step :=
    Sequencer.sparesSteps_step _ (Rule.sparesSteps_ofValues hrule)
  have hclose (ended : List Record × State) :
      Action.SparesSteps (plan.close ended : Action σ Summary) := by
    refine (Action.sparesSteps_ofExcept fun text hfault => ?_).bind fun digest =>
      Action.sparesSteps_pure _
    cases digest_error hfault
  rw [execute_paced oracle sink env hrule hsteps]
  exact ((Setup.sparesSteps_simulate hstep horacle hsink _).withPrivate _).bind hclose env

end Execution

/-! ### Pacing -/

/-- **What pacing changes.** For a plan whose count of steps is a number, a paced run and a run at
once have the same outcome, stream the same records and leave the same environment, whatever the
oracle and the sink are, exactly if the count passes its check, or if the rules are refused before it
is looked at. A count that does not pass is reported by the run at once, before the oracle is asked
and before anything is streamed. The paced run never reports it, unless it is the oracle or the sink
that raises this very fault. -/
theorem paced_eq_direct_iff {plan : Plan} {steps : Double} {pause : Value}
    (hsteps : plan.settings.steps = .number steps) (hpause : isPaced pause = true) :
    ((∀ (σ : Type) (oracle : LooseOracle σ) (sink : Record → Action σ Unit) (env : σ),
        plan.execute (isPaced pause) oracle sink env
          = plan.execute (isPaced .absent) oracle sink env)
      ↔ IsCount 0 steps ∨ ∃ fault, Rule.ofValues plan.rules = .error fault)
    ∧ (¬ IsCount 0 steps → ∀ rule, Rule.ofValues plan.rules = .ok rule →
      ∀ (σ : Type) (oracle : LooseOracle σ) (sink : Record → Action σ Unit) (env : σ),
        plan.execute (isPaced .absent) oracle sink env
            = (.error (.range (.steps steps.text)), env)
          ∧ ((∀ angle shots, (oracle angle shots).SparesSteps) →
            (∀ record, (sink record).SparesSteps) → ∀ text,
              (plan.execute (isPaced pause) oracle sink env).1
                ≠ .error (.range (.steps text)))) := by
  have hdirect : isPaced .absent = false := by decide +kernel
  rw [hpause, hdirect]
  refine ⟨⟨fun hsame => ?_, ?_⟩, fun hcount rule hrule σ oracle sink env => ?_⟩
  · by_contra hneither
    obtain ⟨hcount, hrules⟩ := not_or.mp hneither
    cases hrule : Rule.ofValues plan.rules with
    | error fault => exact hrules ⟨fault, hrule⟩
    | ok rule =>
        -- An oracle that always answers, and a sink that does nothing, complain of no count.
        let oracle : LooseOracle Unit := .constant (.number 0)
        let sink : Record → Action Unit Unit := fun _ => pure ()
        have hspares := sparesSteps_execute_paced oracle sink () hrule hsteps
          (fun _ _ => Action.sparesSteps_pure _) (fun _ => Action.sparesSteps_pure ())
        rw [hsame Unit oracle sink (), execute_of_not_isCount oracle sink () hrule hsteps hcount]
          at hspares
        exact hspares steps.text rfl
  · rintro (hcount | ⟨fault, hrule⟩) σ oracle sink env
    · cases hrule : Rule.ofValues plan.rules with
      | error fault =>
          rw [execute_of_rule_error oracle sink env hrule, execute_of_rule_error oracle sink env hrule]
      | ok rule => exact execute_eq_of_isCount oracle sink env hrule hsteps hcount
    · rw [execute_of_rule_error oracle sink env hrule, execute_of_rule_error oracle sink env hrule]
  · refine ⟨execute_of_not_isCount oracle sink env hrule hsteps hcount, fun horacle hsink => ?_⟩
    exact sparesSteps_execute_paced oracle sink env hrule hsteps horacle hsink

/-- A plan of the default rules and settings except for its count of steps. -/
def ofSteps (steps : Double) : Plan :=
  adHoc ⟨.ofInt 3, .ofInt 2, .ofInt 4, 5, "0a", 20, 5⟩ (RuleSpec.defaults.map RuleSpec.toValue)
    { steps := some (.number steps) }

theorem exists_rule_ofSteps (steps : Double) :
    ∃ rule, Rule.ofValues (ofSteps steps).rules = .ok rule := ⟨_, rfl⟩

theorem not_isCount_minusOne : ¬ IsCount 0 (-1) := by
  rintro ⟨n, hn, hnonneg⟩
  have hminus : (-1 : Double).toSafeInt? = some (-1) := by decide +kernel
  rw [hminus, Option.some_inj] at hn
  omega

/-- Twenty steps are the same with a pause and without; minus one is refused only without. -/
theorem ofSteps_paced :
    ((ofSteps 20).execute (isPaced (.number 1)) (ofSteps 20).oracle.loose (fun _ => pure ()) 0
        = (ofSteps 20).execute (isPaced .absent) (ofSteps 20).oracle.loose (fun _ => pure ()) 0)
      ∧ ((ofSteps (-1)).execute (isPaced .absent) (ofSteps (-1)).oracle.loose (fun _ => pure ()) 0).1
        = .error (.range (.steps "-1"))
      ∧ ((ofSteps (-1)).execute (isPaced (.number 1)) (ofSteps (-1)).oracle.loose
          (fun _ => pure ()) 0).1 ≠ .error (.range (.steps "-1")) := by
  have hpause : isPaced (.number 1) = true := by decide +kernel
  have htext : (-1 : Double).text = "-1" := by decide +kernel
  obtain ⟨rule, hrule⟩ := exists_rule_ofSteps (-1)
  have htwenty := @paced_eq_direct_iff (ofSteps 20) 20 _ rfl hpause
  have hminus := (@paced_eq_direct_iff (ofSteps (-1)) (-1) _ rfl hpause).2
    not_isCount_minusOne rule hrule ℕ (ofSteps (-1)).oracle.loose (fun _ => pure ()) 0
  refine ⟨htwenty.1.mpr (.inl ?_) ℕ _ _ 0, ?_, ?_⟩
  · exact Config.isCount_ofNat (by decide) (by decide)
  · rw [hminus.1, htext]
  · exact hminus.2 (Oracle.sparesSteps_select _ _) (fun _ => Action.sparesSteps_pure ()) "-1"

/-- With minus one steps a paced run does not say what the run at once says. -/
theorem not_paced_eq_direct : ¬ ∀ (plan : Plan) (steps : Double) (pause : Value),
    plan.settings.steps = .number steps → isPaced pause = true →
    ∀ (σ : Type) (oracle : LooseOracle σ) (sink : Record → Action σ Unit) (env : σ),
      plan.execute (isPaced pause) oracle sink env
        = plan.execute (isPaced .absent) oracle sink env := by
  intro hsame
  have hpause : isPaced (.number 1) = true := by decide +kernel
  have hdirect : isPaced .absent = false := by decide +kernel
  have hminus := hsame (ofSteps (-1)) (-1) (.number 1) rfl hpause ℕ
    (ofSteps (-1)).oracle.loose (fun _ => pure ()) 0
  obtain ⟨rule, hrule⟩ := exists_rule_ofSteps (-1)
  have hspares := sparesSteps_execute_paced (ofSteps (-1)).oracle.loose
    (fun _ => pure ()) 0 hrule rfl (Oracle.sparesSteps_select _ _)
    (fun _ => Action.sparesSteps_pure ())
  rw [hpause, hdirect, execute_of_not_isCount _ _ _ hrule rfl not_isCount_minusOne] at hminus
  rw [hminus] at hspares
  exact hspares _ rfl

end Plan

end AngleSeries
