import AngleSeries.Proofs.RuleEffects
import AngleSeries.Proofs.Sequencing
import AngleSeries.Series

/-!
# How a series ends

A series takes record after record until it has enough of them or something fails. With checked
rules and an oracle that always answers there are only two ways to fail: a number leaves the range
of exponents or of binary64, or a step comes to a block that is used up. The block total is linear
in the number of steps, so the step at which this happens is known from the start.
-/

namespace AngleSeries

/-- A number that left the safe exponents or the finite binary64 numbers. -/
inductive Fault.IsOverflow : Fault → Prop where
  | unsafeExponent (text : Text) : IsOverflow (.range (.unsafeExponent text))
  | beyondDouble (text : Text) : IsOverflow (.range (.beyondDouble text))

/-! ### Evaluation -/

namespace Inputs

variable {inputs : Inputs} (hread : inputs.Readable)

include hread

theorem secret_of_empty (hempty : inputs.blockSize + inputs.crcValue ≤ 0) :
    inputs.secret = .error (.field (.emptyBlock inputs.blockSize inputs.crcValue)) := by
  obtain ⟨y, hy⟩ := hread.hash
  rw [secret, secretFraction_of_empty hread.divisor hy hempty]
  rfl

theorem secret_of_block (hblock : 0 < inputs.blockSize + inputs.crcValue) :
    (∃ value, inputs.secret = .ok value)
      ∨ ∃ fault, fault.IsOverflow ∧ inputs.secret = .error fault := by
  obtain ⟨y, hy⟩ := hread.hash
  have heval : inputs.Evaluable y :=
    ⟨hread.pi, hread.lambda, hread.mu, hread.divisor, hy, hblock⟩
  refine (secret_cases heval).imp_right ?_
  rintro ⟨text, hfault⟩
  exact ⟨_, .unsafeExponent text, hfault⟩

end Inputs

theorem Angle.ofDecimal_cases (value : Decimal) {scale : Double} (hscale : scale.isFinite = true) :
    (∃ angle, Angle.ofDecimal value (.number scale) = .ok angle)
      ∨ ∃ fault, fault.IsOverflow ∧ Angle.ofDecimal value (.number scale) = .error fault := by
  have hread : Angle.readScale (.number scale) = .ok scale := by
    rw [Angle.readScale, if_pos hscale]
  simp only [Angle.ofDecimal, hread]
  split
  · exact .inr ⟨_, .beyondDouble _, rfl⟩
  · exact .inl ⟨_, rfl⟩

/-! ### One record and one step -/

section Step

variable {σ : Type} {rule : Rule} {delta : ℤ} (hadds : rule.Adds delta) (policy : CommitPolicy)
  {state : State} (hread : state.inputs.Readable) (env : σ)

include hadds hread

theorem step_of_block (hblock : 0 < state.inputs.blockSize + (state.inputs.crcValue + delta)) :
    (∃ value next, (Sequencer.unobserved rule policy).step (state, env)
        = (.ok value, (⟨state.t + 1, next⟩, env))
      ∧ next.Readable ∧ next.blockSize = state.inputs.blockSize
      ∧ next.crcValue = state.inputs.crcValue + delta)
    ∨ ∃ fault left, fault.IsOverflow
      ∧ (Sequencer.unobserved rule policy).step (state, env) = (.error fault, (left, env)) := by
  obtain ⟨next, hnext, hnextRead, hsize, hcrc⟩ := hadds state.inputs state.t hread
  rcases Inputs.secret_of_block hnextRead (by rw [hsize, hcrc]; exact hblock) with
    ⟨value, hvalue⟩ | ⟨fault, hoverflow, hfault⟩
  · refine .inl ⟨value, next, ?_, hnextRead, hsize, hcrc⟩
    exact Sequencer.step_of_ok hnext hvalue rfl
  · right
    cases policy with
    | validateFirst => exact ⟨fault, _, hoverflow, Sequencer.step_of_refused hnext rfl hfault⟩
    | commitFirst => exact ⟨fault, _, hoverflow, Sequencer.step_of_left hnext rfl hfault⟩

theorem step_of_empty (hempty : state.inputs.blockSize + (state.inputs.crcValue + delta) ≤ 0) :
    ∃ left, (Sequencer.unobserved rule policy).step (state, env)
      = (.error (.field (.emptyBlock state.inputs.blockSize (state.inputs.crcValue + delta))),
        (left, env)) := by
  obtain ⟨next, hnext, hnextRead, hsize, hcrc⟩ := hadds state.inputs state.t hread
  have hfault := Inputs.secret_of_empty hnextRead (by rw [hsize, hcrc]; exact hempty)
  rw [hsize, hcrc] at hfault
  cases policy with
  | validateFirst => exact ⟨_, Sequencer.step_of_refused hnext rfl hfault⟩
  | commitFirst => exact ⟨_, Sequencer.step_of_left hnext rfl hfault⟩

end Step

namespace Setup

variable {τ : Type}

/-- Keeps every record it is handed, behind those kept before. -/
def keep (record : Record) : Action (τ × List Record) Unit :=
  modify fun env => (env.1, env.2 ++ [record])

/-- A setup that can fail in nothing but its sequencer: rules of known effect, a scale, an oracle
that answers every call, and a sink that keeps the records. -/
structure Steady (setup : Setup (τ × List Record)) (rule : Rule) (policy : CommitPolicy) : Prop where
  sequencer : setup.sequencer = .unobserved rule policy
  scale : ∃ scale, setup.encoding.scale = .number scale ∧ scale.isFinite = true
  oracle : ∀ angle env, ∃ p calls,
    setup.oracle angle setup.encoding.shots env = (.ok (.number p), (calls, env.2))
  sink : setup.sink = keep

section Steady

variable {setup : Setup (τ × List Record)} {rule : Rule} {policy : CommitPolicy}
  (hsteady : setup.Steady rule policy) {state : State} (hread : state.inputs.Readable) (calls : τ)
  (log : List Record)

include hsteady hread

theorem observe_cases (hblock : 0 < state.inputs.blockSize + state.inputs.crcValue) :
    (∃ record calls', setup.observe (state, (calls, log)) = (.ok record, (state, (calls', log)))
      ∧ record.t = state.t)
    ∨ ∃ fault calls', fault.IsOverflow
      ∧ setup.observe (state, (calls, log)) = (.error fault, (state, (calls', log))) := by
  rw [observe]
  rcases Inputs.secret_of_block hread hblock with ⟨value, hvalue⟩ | ⟨fault, hoverflow, hfault⟩
  case inr =>
    exact .inr ⟨fault, calls, hoverflow,
      Action.bind_of_error _ (by rw [Sequencer.currentValue_run, hfault])⟩
  rw [Action.bind_of_ok _ (by rw [Sequencer.currentValue_run, hvalue])]
  obtain ⟨scale, hscale, hfinite⟩ := hsteady.scale
  rw [hscale]
  rcases Angle.ofDecimal_cases value hfinite with ⟨angle, hangle⟩ | ⟨fault, hoverflow, hfault⟩
  case inr =>
    exact .inr ⟨fault, calls, hoverflow,
      Action.bind_of_error _ (by rw [Action.ofExcept_run, hfault])⟩
  rw [Action.bind_of_ok _ (by rw [Action.ofExcept_run, hangle])]
  obtain ⟨p, calls', horacle⟩ := hsteady.oracle angle (calls, log)
  rw [Action.bind_of_ok _ (Action.inSecond_run horacle state),
    Action.bind_of_ok _ (Action.get_run _)]
  exact .inl ⟨_, calls', Action.bind_of_ok _ (Action.ofExcept_run (.ok p) _), rfl⟩

omit hread in
/-- Taking a record and a step. The record is kept before the step is tried. -/
theorem advance_of_observed {record : Record} {calls' : τ}
    (hobserve : setup.observe (state, (calls, log)) = (.ok record, (state, (calls', log)))) :
    setup.advance (state, (calls, log)) = (do
      let _ ← setup.sequencer.step
      return record : Action (State × (τ × List Record)) Record)
        (state, (calls', log ++ [record])) := by
  have hkeep : keep record (calls', log) = (.ok (), (calls', log ++ [record])) := rfl
  rw [advance, Action.bind_of_ok _ hobserve, hsteady.sink,
    Action.bind_of_ok _ (Action.inSecond_run hkeep state)]

end Steady

/-- The records are those of consecutive steps. -/
def Consecutive (first : ℤ) : List Record → Prop
  | [] => True
  | record :: records => record.t.toInt? = some first ∧ Consecutive (first + 1) records

/-- How a series of at most `n` records ends that starts with the given block and adds `delta` to
the checksum with every step, in terms of the records it kept. -/
inductive Ending (n : ℕ) (blockSize crcValue delta : ℤ) (kept : List Record) :
    Except Fault (List Record) → Prop where
  | complete (hlength : kept.length = n)
      (hblock : ∀ k : ℕ, k ≤ n → 0 < blockSize + (crcValue + k * delta)) :
      Ending n blockSize crcValue delta kept (.ok kept)
  | usedUp (hpos : 0 < kept.length) (hlength : kept.length ≤ n)
      (hblock : ∀ k : ℕ, k < kept.length → 0 < blockSize + (crcValue + k * delta))
      (hempty : blockSize + (crcValue + kept.length * delta) ≤ 0) :
      Ending n blockSize crcValue delta kept
        (.error (.field (.emptyBlock blockSize (crcValue + kept.length * delta))))
  | overflow {fault : Fault} (hfault : fault.IsOverflow) (hlength : kept.length ≤ n)
      (hblock : ∀ k : ℕ, k ≤ kept.length → 0 < blockSize + (crcValue + k * delta)) :
      Ending n blockSize crcValue delta kept (.error fault)

/-- What one more record in front does to an ending. -/
theorem Ending.cons {n : ℕ} {blockSize crcValue delta : ℤ} {kept : List Record}
    {outcome : Except Fault (List Record)}
    (hending : Ending n blockSize (crcValue + delta) delta kept outcome) (record : Record)
    (hfirst : 0 < blockSize + crcValue) :
    Ending (n + 1) blockSize crcValue delta (record :: kept) (outcome.map (record :: ·)) := by
  have hshift : ∀ k : ℕ, crcValue + delta + k * delta = crcValue + (k + 1 : ℕ) * delta := by
    intro k
    push_cast
    ring
  have hall : ∀ {m : ℕ}, (∀ k : ℕ, k ≤ m → 0 < blockSize + (crcValue + delta + k * delta)) →
      ∀ k : ℕ, k ≤ m + 1 → 0 < blockSize + (crcValue + k * delta) := by
    intro m hm k hk
    cases k with
    | zero => simpa using hfirst
    | succ k =>
        rw [← hshift]
        exact hm k (by omega)
  cases hending with
  | complete hlength hblock => exact .complete (by simp [hlength]) (hall hblock)
  | usedUp hpos hlength hblock hempty =>
      rw [hshift] at hempty ⊢
      refine .usedUp (Nat.succ_pos _) (by simpa using hlength) ?_ hempty
      intro k hk
      refine hall (m := kept.length - 1) (fun j hj => hblock j (by omega)) k ?_
      simp only [List.length_cons] at hk
      omega
  | overflow hfault hlength hblock =>
      exact .overflow hfault (by simpa using hlength) (hall hblock)

section Steady

variable {setup : Setup (τ × List Record)} {rule : Rule} {policy : CommitPolicy}
  (hsteady : setup.Steady rule policy) {delta : ℤ} (hadds : rule.Adds delta)

include hsteady hadds

/-- Taking a record and a step: either the series goes on with inputs that still have a block, or it
has come to its end. -/
theorem advance_cases {state : State} (hread : state.inputs.Readable)
    (hblock : 0 < state.inputs.blockSize + state.inputs.crcValue) {first : ℤ}
    (hcounter : state.t.toInt? = some first) (calls : τ) (log : List Record) :
    (∃ record next calls',
      setup.advance (state, (calls, log))
          = (.ok record, (⟨state.t + 1, next⟩, (calls', log ++ [record])))
        ∧ Consecutive first [record] ∧ next.Readable
        ∧ next.blockSize = state.inputs.blockSize
        ∧ next.crcValue = state.inputs.crcValue + delta
        ∧ 0 < state.inputs.blockSize + (state.inputs.crcValue + delta))
    ∨ ∃ fault left calls' kept,
      setup.advance (state, (calls, log)) = (.error fault, (left, (calls', log ++ kept)))
        ∧ Consecutive first kept
        ∧ ∀ n, Ending (n + 1) state.inputs.blockSize state.inputs.crcValue delta kept
          (.error fault) := by
  rcases observe_cases hsteady hread calls log hblock with
    ⟨record, calls', hobserve, hrecord⟩ | ⟨fault, calls', hoverflow, hobserve⟩
  case inr =>
    -- Not even the record is taken.
    refine .inr ⟨fault, state, calls', [], ?_, trivial, fun n => ?_⟩
    · rw [List.append_nil]
      exact Action.bind_of_error _ hobserve
    · refine .overflow hoverflow (Nat.zero_le _) fun k hk => ?_
      obtain rfl : k = 0 := by simpa using hk
      simpa using hblock
  have hadvance := advance_of_observed hsteady calls log hobserve
  have hfirst : Consecutive first [record] := ⟨by rw [hrecord]; exact hcounter, trivial⟩
  rw [hsteady.sequencer] at hadvance
  by_cases hnextBlock : 0 < state.inputs.blockSize + (state.inputs.crcValue + delta)
  case neg =>
    obtain ⟨left, hstep⟩ := step_of_empty hadds policy hread (calls', log ++ [record])
      (not_lt.mp hnextBlock)
    have hkept : ∀ k : ℕ, k < [record].length →
        0 < state.inputs.blockSize + (state.inputs.crcValue + k * delta) := by
      intro k hk
      obtain rfl : k = 0 := by simpa using hk
      simpa using hblock
    have hused : state.inputs.blockSize
        + (state.inputs.crcValue + ([record].length : ℕ) * delta) ≤ 0 := by
      simpa using hnextBlock
    refine .inr ⟨_, left, calls', [record], hadvance.trans (Action.bind_of_error _ hstep), hfirst,
      fun n => ?_⟩
    have hpos : 0 < [record].length := Nat.one_pos
    simpa using Ending.usedUp (n := n + 1) hpos (by simp) hkept hused
  rcases step_of_block hadds policy hread (calls', log ++ [record]) hnextBlock with
    ⟨value, next, hstep, hnextRead, hsize, hcrc⟩ | ⟨fault, left, hoverflow, hstep⟩
  case inl =>
    exact .inl ⟨record, next, calls', hadvance.trans (Action.bind_of_ok _ hstep), hfirst, hnextRead,
      hsize, hcrc, hnextBlock⟩
  case inr =>
    refine .inr ⟨fault, left, calls', [record], hadvance.trans (Action.bind_of_error _ hstep),
      hfirst, fun n => .overflow hoverflow (by simp) fun k hk => ?_⟩
    rcases Nat.le_one_iff_eq_zero_or_eq_one.mp hk with rfl | rfl
    · simpa using hblock
    · simpa using hnextBlock

/-- **How a series ends.** By induction on the number of records: as long as the block is not used
up, one more of them is taken, or an overflow ends the series. -/
theorem simulate_ending (n : ℕ) {state : State} (hread : state.inputs.Readable)
    (hblock : 0 < state.inputs.blockSize + state.inputs.crcValue) {first : ℤ}
    (hcounter : state.t.toInt? = some first) (hnonneg : 0 ≤ first) (hlast : first + n ≤ 2 ^ 53)
    (calls : τ) (log : List Record) :
    ∃ outcome left calls' kept,
      setup.simulate n (state, (calls, log)) = (outcome, (left, (calls', log ++ kept)))
        ∧ Consecutive first kept
        ∧ Ending n state.inputs.blockSize state.inputs.crcValue delta kept outcome := by
  induction n generalizing state first calls log with
  | zero =>
      refine ⟨.ok [], state, calls, [], by rw [simulate, List.append_nil]; rfl, trivial,
        .complete rfl fun k hk => ?_⟩
      obtain rfl : k = 0 := by omega
      simpa using hblock
  | succ n ih =>
      rw [simulate]
      rcases advance_cases hsteady hadds hread hblock hcounter calls log with
        ⟨record, next, calls', hadvance, hfirst, hnextRead, hsize, hcrc, hnextBlock⟩
          | ⟨fault, left, calls', kept, hadvance, hconsecutive, hending⟩
      case inr =>
        exact ⟨.error fault, left, calls', kept, Action.bind_of_error _ hadvance, hconsecutive,
          hending n⟩
      have hcounter' : (state.t + 1).toInt? = some (first + 1) :=
        Double.toInt?_add hcounter (Double.toInt?_ofNat (n := 1) (by decide))
          (by push_cast at hlast ⊢; omega)
      obtain ⟨outcome, left, calls'', kept, hrun, hconsecutive, hending⟩ :=
        @ih ⟨state.t + 1, next⟩ hnextRead (by rw [hsize, hcrc]; exact hnextBlock) (first + 1)
          hcounter' (by omega) (by push_cast at hlast; omega) calls' (log ++ [record])
      rw [hsize, hcrc] at hending
      rw [List.append_assoc, List.singleton_append] at hrun
      refine ⟨outcome.map (record :: ·), left, calls'', record :: kept, ?_,
        ⟨hfirst.1, hconsecutive⟩, hending.cons record hblock⟩
      rw [Action.bind_of_ok _ hadvance]
      cases outcome with
      | error fault => exact Action.bind_of_error _ hrun
      | ok records => exact Action.bind_of_ok _ hrun

end Steady

end Setup

end AngleSeries
