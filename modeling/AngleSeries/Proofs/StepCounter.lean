import AngleSeries.Proofs.Sequencing

/-!
# The step counter

A sequencer starts at a safe integer that is not negative, and each committed step adds one to it in
binary64. The counter is such an integer for as long as it is below `2 ^ 53`, which only a start near
the top of the safe integers ever reaches. The step to `2 ^ 53` is still exact but leaves the safe
integers, and every later step leaves the counter where it is.
-/

namespace AngleSeries

theorem State.counter_of_start {given : Value} {inputs : Inputs} {start : State}
    (hstart : State.start given inputs = .ok start) :
    ∃ t₀ : ℕ, start.t.toInt? = some (t₀ : ℤ) ∧ t₀ < 2 ^ 53 := by
  cases given with
  | number x =>
      rw [State.start] at hstart
      split at hstart
      case isFalse => cases hstart
      case isTrue haccepted =>
        cases hstart
        rw [Bool.and_eq_true, Bool.not_eq_true'] at haccepted
        obtain ⟨hsafe, hsign⟩ := haccepted
        obtain ⟨i, hi, hbounds⟩ := Double.exists_of_isSafeInteger hsafe
        have hnonneg : ¬ i < 0 := by
          rw [← Double.lt_zero_iff hi, hsign]
          exact Bool.false_ne_true
        have hmax : Double.maxSafe = 2 ^ 53 - 1 := rfl
        have hle := abs_le.mp hbounds
        lift i to ℕ using not_lt.mp hnonneg
        exact ⟨i, hi, by omega⟩
  | _ =>
      obtain ⟨text, -, hresult⟩ := Outcome.bind_eq_ok_iff.mp hstart
      cases hresult

namespace Sequencer

variable {σ : Type} (sequencer : Sequencer σ)

theorem after_append (calls more : List Call) (env : State × σ) :
    sequencer.after (calls ++ more) env = sequencer.after more (sequencer.after calls env) := by
  induction calls generalizing env with
  | nil => rfl
  | cons call calls ih => exact ih _

/-- A row without a committed step leaves the state alone. -/
theorem after_of_committed_eq_zero {calls : List Call} {env : State × σ}
    (hnone : sequencer.committed calls env = 0) : (sequencer.after calls env).1 = env.1 := by
  have hstart := sequencer.after_of_step env.1 env.2 (P := fun k state => k = 0 → state = env.1)
    (fun k _ _ _ _ hzero => absurd hzero (Nat.succ_ne_zero k)) calls (k := 0) fun _ => rfl
  exact hstart (by rw [zero_add]; exact hnone)

/-- **How far a counter counts.** From any start that is accepted, under any rule and whatever fails
on the way, the counter is the start and the committed steps as long as their sum is at most
`2 ^ 53`, and it is a safe integer as long as the sum is less. A later state has the same counter only
if no step in between was committed or the sum had come to `2 ^ 53`. -/
theorem counter_exact_iff {given : Value} {inputs : Inputs} {start : State}
    (hstart : State.start given inputs = .ok start) :
    ∃ t₀ : ℕ, start.t.toInt? = some (t₀ : ℤ) ∧ t₀ < 2 ^ 53
      ∧ ∀ (sequencer : Sequencer σ) (env : σ) (calls more : List Call) (reached : State × σ),
        sequencer.after calls (start, env) = reached →
        let k := sequencer.committed calls (start, env)
        (reached.1.t.toInt? = some ((t₀ + k : ℕ) : ℤ) ↔ t₀ + k ≤ 2 ^ 53)
          ∧ (reached.1.t.isSafeInteger = true ↔ t₀ + k < 2 ^ 53)
          ∧ reached.1.t.lt 0 = false
          ∧ ((sequencer.after (calls ++ more) (start, env)).1.t = reached.1.t
            ↔ sequencer.committed more reached = 0 ∨ 2 ^ 53 ≤ t₀ + k) := by
  obtain ⟨t₀, hcounter, hbelow⟩ := State.counter_of_start hstart
  refine ⟨t₀, hcounter, hbelow, fun sequencer env calls more reached hreached => ?_⟩
  intro k
  -- The row and what follows it count up to the same ceiling.
  have hk : reached.1.t.toInt? = some ((min (t₀ + k) (2 ^ 53) : ℕ) : ℤ) := by
    rw [← hreached]
    exact sequencer.after_counter start env calls hcounter hbelow.le
  have hmore : (sequencer.after more reached).1.t.toInt?
      = some ((min (min (t₀ + k) (2 ^ 53) + sequencer.committed more reached) (2 ^ 53) : ℕ) : ℤ) :=
    sequencer.after_counter reached.1 reached.2 more hk (min_le_right _ _)
  rw [after_append, hreached]
  refine ⟨?_, ?_, ?_, ?_⟩
  · rw [hk, Option.some_inj, Nat.cast_inj]
    exact min_eq_left_iff
  · have hmax : Double.maxSafe = 2 ^ 53 - 1 := rfl
    rw [Double.isSafeInteger_of_toInt? hk, abs_of_nonneg (Int.natCast_nonneg _), hmax]
    omega
  · rw [Bool.eq_false_iff, Ne, Double.lt_zero_iff hk, not_lt]
    exact Int.natCast_nonneg _
  · constructor
    · intro hsame
      rw [hsame, hk, Option.some_inj, Nat.cast_inj] at hmore
      omega
    · rintro (hnone | hfull)
      · rw [after_of_committed_eq_zero sequencer hnone]
      · rw [min_eq_right hfull] at hk
        rw [min_eq_right hfull, min_eq_right (Nat.le_add_right _ _)] at hmore
        exact Double.eq_of_toInt?_eq hmore hk (by decide)

/-- The greatest counter a sequencer may start at. -/
def lastCounter : State :=
  { lastUnit with t := 9007199254740991 }

/-- Counts and changes nothing else. -/
def counting : Sequencer Unit :=
  unobserved (Rule.compose []) .validateFirst

theorem start_lastCounter : State.start (.number lastCounter.t) lastUnit.inputs = .ok lastCounter := by
  decide +kernel

theorem lastCounter_exact_iff :
    State.start (.number lastCounter.t) lastUnit.inputs = .ok lastCounter
      ∧ ∃ t₀ : ℕ, lastCounter.t.toInt? = some (t₀ : ℤ) ∧ t₀ < 2 ^ 53
        ∧ ((counting.after [.step] (lastCounter, ())).1.t.isSafeInteger = true
          ↔ t₀ + counting.committed [.step] (lastCounter, ()) < 2 ^ 53) := by
  obtain ⟨t₀, hcounter, hbelow, hall⟩ := counter_exact_iff (σ := Unit) start_lastCounter
  obtain ⟨-, hsafe, -, -⟩ := hall counting () [.step] [] _ rfl
  exact ⟨start_lastCounter, t₀, hcounter, hbelow, hsafe⟩

/-- Three steps from there take the counter no further than one. -/
theorem not_counter_exact : ¬ ∀ (given : Value) (inputs : Inputs) (start : State),
    State.start given inputs = .ok start → ∀ (sequencer : Sequencer Unit) (calls : List Call) (t₀ : ℤ),
      start.t.toInt? = some t₀ →
        (sequencer.after calls (start, ())).1.t.toInt?
            = some (t₀ + sequencer.committed calls (start, ()))
          ∧ (sequencer.after calls (start, ())).1.t.isSafeInteger = true := by
  intro hexact
  have hstart : lastCounter.t.toInt? = some (2 ^ 53 - 1) := by decide +kernel
  have hcommitted : counting.committed [.step, .step, .step] (lastCounter, ()) = 3 := by
    decide +kernel
  have hreached : (counting.after [.step, .step, .step] (lastCounter, ())).1.t.toInt?
      = some (2 ^ 53) := by
    decide +kernel
  obtain ⟨hcounter, -⟩ := hexact _ _ _ start_lastCounter counting [.step, .step, .step] _ hstart
  rw [hreached, hcommitted] at hcounter
  exact absurd (Option.some.inj hcounter) (by decide)

end Sequencer

end AngleSeries
