import AngleSeries.Proofs.Acceptance
import AngleSeries.Series

/-!
# Rounds of one record

A paced series takes its records in rounds, and each round checks its own count, which is one. Put
one behind the other the rounds take the records that a series takes at once, and they stop at the
same fault with the same records handed to the sink. The count of the whole series is checked by
nobody: it only says how many rounds there are.
-/

namespace AngleSeries

namespace Setup

variable {σ : Type}

/-! ### Counts -/

theorem readSteps_of_isCount {steps : Double} (hsteps : IsCount 0 steps) :
    ∃ n : ℕ, steps.toInt? = some (n : ℤ) ∧ n < 2 ^ 53 ∧ readSteps (.number steps) = .ok n
      ∧ steps.naturalsBelow = n := by
  obtain ⟨i, hi, hnonneg⟩ := hsteps
  obtain ⟨n, rfl⟩ := Int.eq_ofNat_of_zero_le hnonneg
  have hmax : Double.maxSafe = 2 ^ 53 - 1 := rfl
  obtain ⟨hn, hsafe⟩ := Option.filter_eq_some_iff.mp hi
  have hbound : -Double.maxSafe ≤ (n : ℤ) ∧ (n : ℤ) ≤ Double.maxSafe := of_decide_eq_true hsafe
  refine ⟨n, hn, by omega, ?_, Double.naturalsBelow_of_toInt? hn⟩
  simp only [readSteps, Value.number?, Option.bind_some, hi]
  rw [if_neg (by omega), Int.toNat_natCast]

theorem readSteps_of_not_isCount {steps : Double} (hsteps : ¬ IsCount 0 steps) :
    readSteps (.number steps) = .error (.range (.steps steps.text)) := by
  simp only [readSteps, Value.number?, Option.bind_some]
  cases hsafe : steps.toSafeInt? with
  | none => rfl
  | some n =>
      have hneg : n < 0 := by
        by_contra hnonneg
        exact hsteps ⟨n, hsafe, by omega⟩
      simp only [if_pos hneg]
      rfl

/-! ### Rounds -/

/-- A round is one record and one step. -/
theorem run_one (setup : Setup σ) (env : State × σ) :
    setup.run (.number 1) env = (do
      let record ← setup.advance
      return [record] : Action (State × σ) (List Record)) env := by
  obtain ⟨n, hn, -, hread, -⟩ :=
    readSteps_of_isCount (Config.isCount_ofNat (Nat.zero_le 1) (by decide))
  obtain rfl : n = 1 := by
    rw [Double.toInt?_ofNat (by decide), Option.some_inj] at hn
    omega
  rw [run, Action.bind_of_ok _ (by rw [hread, Action.ofExcept_run]), simulate]
  rcases hadvance : setup.advance env with ⟨outcome, env'⟩
  cases outcome with
  | error fault => rw [Action.bind_of_error _ hadvance, Action.bind_of_error _ hadvance]
  | ok record =>
      rw [Action.bind_of_ok _ hadvance, Action.bind_of_ok _ hadvance]
      rfl

/-- **Rounds add up.** By induction on their number: a round that fails ends both series, and after
one that succeeds the records taken so far have grown by one. -/
theorem takeSingly_run (setup : Setup σ) (rounds : ℕ) (taken : List Record) (env : State × σ) :
    setup.takeSingly taken rounds env = (do
      let records ← setup.simulate rounds
      return taken ++ records : Action (State × σ) (List Record)) env := by
  induction rounds generalizing taken env with
  | zero =>
      rw [takeSingly, simulate, Action.bind_of_ok _ (Action.pure_run _ _), List.append_nil]
  | succ rounds ih =>
      rw [takeSingly, simulate]
      have hround := setup.run_one env
      rcases hadvance : setup.advance env with ⟨outcome, env'⟩
      cases outcome with
      | error fault =>
          rw [Action.bind_of_error _ hadvance] at hround
          rw [Action.bind_of_error _ hround]
          exact (Action.bind_of_error _ (Action.bind_of_error _ hadvance)).symm
      | ok record =>
          rw [Action.bind_of_ok _ hadvance, Action.pure_run] at hround
          rw [Action.bind_of_ok _ hround, ih]
          rcases hrest : setup.simulate rounds env' with ⟨records?, last⟩
          cases records? with
          | error fault =>
              rw [Action.bind_of_error _ hrest]
              refine (Action.bind_of_error _ ?_).symm
              rw [Action.bind_of_ok _ hadvance, Action.bind_of_error _ hrest]
          | ok records =>
              rw [Action.bind_of_ok _ hrest]
              have hboth : (do
                  let record ← setup.advance
                  let rest ← setup.simulate rounds
                  return record :: rest : Action (State × σ) (List Record)) env
                    = (.ok (record :: records), last) := by
                rw [Action.bind_of_ok _ hadvance, Action.bind_of_ok _ hrest, Action.pure_run]
              rw [Action.bind_of_ok _ hboth, Action.pure_run, Action.pure_run, List.append_assoc,
                List.singleton_append]

theorem takeSingly_nil (setup : Setup σ) (rounds : ℕ) :
    setup.takeSingly [] rounds = setup.simulate rounds := by
  funext env
  rw [takeSingly_run]
  rcases hrun : setup.simulate rounds env with ⟨outcome, env'⟩
  cases outcome with
  | error fault => exact Action.bind_of_error _ hrun
  | ok records => exact Action.bind_of_ok _ hrun

/-- A paced series takes as many records as there are natural numbers below the count, whatever the
count is. -/
theorem runPaced_number (setup : Setup σ) (steps : Double) :
    setup.runPaced (.number steps) = setup.simulate steps.naturalsBelow := by
  funext env
  have hrounds : naturalsBelow (.number steps) = .ok steps.naturalsBelow := rfl
  rw [runPaced, Action.bind_of_ok _ (by rw [hrounds, Action.ofExcept_run]), takeSingly_nil]

end Setup

end AngleSeries
