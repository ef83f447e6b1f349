import AngleSeries.Proofs.OverheardSeries

/-!
# Series in two parts

A series can be cut anywhere. What it does is what a first series does and then, unless that one
failed, a second one that starts where the first one stopped, with the same oracle and sink: their
environment, the state and what has been logged are all there is to hand over.
-/

namespace AngleSeries

namespace Setup

variable {σ : Type}

/-- Two series one after the other, with their records in one list. -/
def runTwice (setup : Setup σ) (first second : Value) : Action (State × σ) (List Record) := do
  let front ← setup.run first
  let back ← setup.run second
  return front ++ back

/-- How a series goes from a state and an environment: its outcome, what it leaves behind, and what
the oracle and the sink were called with. -/
structure Goes (setup : Setup σ) (steps : Value) (start : State) (env : σ)
    (outcome : Except Fault (List Record)) (left : State) (env' : σ) (log : List Exchange) :
    Prop where
  run : setup.run steps (start, env) = (outcome, (left, env'))
  overheard : setup.overheard.run steps (start, (env, [])) = (outcome, (left, (env', log)))

/-- How a whole series goes by its parts: as the first one if that fails, or else as the second one
after it. -/
inductive Splits (setup : Setup σ) (whole first second : Value) (start : State) (env : σ) :
    Prop where
  | stopped {fault : Fault} {left : State} {env' : σ} {log : List Exchange}
      (hfirst : setup.Goes first start env (.error fault) left env' log)
      (hwhole : setup.Goes whole start env (.error fault) left env' log) :
      Splits setup whole first second start env
  | continued {front : List Record} {middle left : State} {env₁ env₂ : σ}
      {log₁ log₂ : List Exchange} {outcome : Except Fault (List Record)}
      (hfirst : setup.Goes first start env (.ok front) middle env₁ log₁)
      (hsecond : setup.Goes second middle env₁ outcome left env₂ log₂)
      (hwhole : setup.Goes whole start env (outcome.map (front ++ ·)) left env₂ (log₁ ++ log₂)) :
      Splits setup whole first second start env

/-! ### Rounds -/

section Rounds

/-- By induction on the rounds of the first part, each of which is taken off in front of both. -/
theorem simulate_add (setup : Setup σ) (m n : ℕ) :
    setup.simulate (m + n) = do
      let front ← setup.simulate m
      let back ← setup.simulate n
      return front ++ back := by
  induction m with
  | zero => simp [simulate]
  | succ m ih =>
      rw [Nat.succ_add, simulate, ih, simulate]
      simp only [bind_assoc, pure_bind, List.cons_append]

variable {setup : Setup σ} {m n : ℕ} {env env' last : State × σ}

theorem simulate_add_of_error {fault : Fault}
    (hfirst : setup.simulate m env = (.error fault, env')) :
    setup.simulate (m + n) env = (.error fault, env') := by
  rw [simulate_add]
  exact Action.bind_of_error _ hfirst

theorem simulate_add_of_ok {front : List Record} {outcome : Except Fault (List Record)}
    (hfirst : setup.simulate m env = (.ok front, env'))
    (hsecond : setup.simulate n env' = (outcome, last)) :
    setup.simulate (m + n) env = (outcome.map (front ++ ·), last) := by
  rw [simulate_add, Action.bind_of_ok _ hfirst]
  cases outcome with
  | error fault => exact Action.bind_of_error _ hsecond
  | ok back => exact Action.bind_of_ok _ hsecond

end Rounds

/-! ### Counts of rounds -/

section Counts

variable (setup : Setup σ) {start left : State} {env env' : σ} {n : ℕ}

theorem goes_of_simulate {steps : Double} (hsteps : steps.toInt? = some (n : ℤ))
    (hsafe : n < 2 ^ 53) {outcome : Except Fault (List Record)} {log : List Exchange}
    (hrun : setup.simulate n (start, env) = (outcome, (left, env')))
    (hoverheard : ∀ notes, setup.overheard.simulate n (start, (env, notes))
      = (outcome, (left, (env', notes ++ log)))) :
    setup.Goes (.number steps) start env outcome left env' log := by
  constructor
  · rw [run_of_toInt? setup hsteps hsafe, hrun]
  · rw [run_of_toInt? setup.overheard hsteps hsafe, hoverheard, List.nil_append]

variable {whole first second : Double} {m : ℕ}
  (hwhole : whole.toInt? = some ((m + n : ℕ) : ℤ)) (hfirst : first.toInt? = some (m : ℤ))
  (hsecond : second.toInt? = some (n : ℤ)) (hsafe : m + n < 2 ^ 53)

include hwhole hfirst hsecond hsafe

theorem run_eq_runTwice :
    setup.run (.number whole) = setup.runTwice (.number first) (.number second) := by
  rw [runTwice, run_of_toInt? setup hwhole hsafe, run_of_toInt? setup hfirst (by omega),
    run_of_toInt? setup hsecond (by omega), simulate_add]

theorem splits (start : State) (env : σ) :
    setup.Splits (.number whole) (.number first) (.number second) start env := by
  obtain ⟨outcome, middle, env₁, log₁, hfront, hfrontOverheard, -⟩ :=
    @simulate_course _ setup m start env
  have hgoesFirst := setup.goes_of_simulate hfirst (by omega) hfront hfrontOverheard
  cases outcome with
  | error fault =>
      refine .stopped hgoesFirst
        (setup.goes_of_simulate hwhole hsafe (simulate_add_of_error hfront) fun notes => ?_)
      exact simulate_add_of_error (hfrontOverheard notes)
  | ok front =>
      -- The second part is overheard from any notes, so also from those that the first one made.
      obtain ⟨outcome, left, env₂, log₂, hback, hbackOverheard, -⟩ :=
        @simulate_course _ setup n middle env₁
      have hgoesSecond := setup.goes_of_simulate hsecond (by omega) hback hbackOverheard
      refine .continued hgoesFirst hgoesSecond
        (setup.goes_of_simulate hwhole hsafe (simulate_add_of_ok hfront hback) fun notes => ?_)
      rw [simulate_add_of_ok (hfrontOverheard notes) (hbackOverheard _), List.append_assoc]

/-- **Cut anywhere.** A series is its first part and then, unless that failed, its second part: as an
action on the state and the environment, and in every call of the oracle and the sink. -/
theorem run_split :
    setup.run (.number whole) = setup.runTwice (.number first) (.number second)
      ∧ ∀ start env, setup.Splits (.number whole) (.number first) (.number second) start env :=
  ⟨setup.run_eq_runTwice hwhole hfirst hsecond hsafe, setup.splits hwhole hfirst hsecond hsafe⟩

end Counts

theorem exhausting_split :
    (3 : Double).toInt? = some ((1 + 2 : ℕ) : ℤ) ∧ (1 : Double).toInt? = some ((1 : ℕ) : ℤ)
      ∧ (2 : Double).toInt? = some ((2 : ℕ) : ℤ)
      ∧ exhausting.run (.number 3) = exhausting.runTwice (.number 1) (.number 2)
      ∧ exhausting.Splits (.number 3) (.number 1) (.number 2) Sequencer.lastUnit 0 := by
  have hthree : (3 : Double).toInt? = some ((1 + 2 : ℕ) : ℤ) := Double.toInt?_ofNat (by decide)
  have hone : (1 : Double).toInt? = some ((1 : ℕ) : ℤ) := Double.toInt?_ofNat (by decide)
  have htwo : (2 : Double).toInt? = some ((2 : ℕ) : ℤ) := Double.toInt?_ofNat (by decide)
  obtain ⟨hrun, hsplits⟩ := run_split exhausting hthree hone htwo (by decide)
  exact ⟨hthree, hone, htwo, hrun, hsplits Sequencer.lastUnit 0⟩

end Setup

end AngleSeries
