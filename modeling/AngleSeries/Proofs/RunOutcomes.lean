import AngleSeries.Proofs.Pacing
import AngleSeries.Proofs.ReachedValues
import AngleSeries.Proofs.Recording
import AngleSeries.Run

/-!
# Outcomes of runs

A run of a checked configuration fails where its series fails, or at the digest, which refuses
numbers that are not finite and nothing that has to do with the inputs. What remains of the faults
of the inputs is the empty block, and it comes exactly at the step that uses the block up.
-/

namespace AngleSeries

/-! ### Digests -/

/-- A value that a canonical document has no place for. -/
inductive Fault.IsUnwritable : Fault → Prop where
  | nonFiniteNumber (text : Text) : IsUnwritable (.nonFiniteNumber text)
  | unsupported (tag : Text) : IsUnwritable (.unsupported tag)
  | wrongKind : IsUnwritable .wrongKind

namespace Value

theorem isUnwritable_of_refusal? {value : Value} {fault : Fault}
    (hrefusal : value.refusal? = some fault) : fault.IsUnwritable := by
  cases value with
  | number x =>
      rw [refusal?] at hrefusal
      split at hrefusal
      · cases hrefusal
      · cases hrefusal
        exact .nonFiniteNumber _
  | object kind members =>
      cases kind with
      | plain | bare => cases hrefusal
      | instanceOf =>
          rw [refusal?] at hrefusal
          split at hrefusal
          · cases hrefusal
          · cases hrefusal
            exact .unsupported _
  | set | error | pattern =>
      cases hrefusal
      exact .unsupported _
  | absent | null | bool | integer | string | decimal | array | map | standIn | date | procedure
    | symbol => cases hrefusal

theorem normalize_error {fault : Fault} (value : Value) (herror : value.normalize = .error fault) :
    fault.IsUnwritable := by
  obtain ⟨node, -, hrefusal | ⟨-, rfl⟩⟩ := exists_source_of_error herror
  · exact isUnwritable_of_refusal? hrefusal
  · exact .wrongKind

end Value

theorem Plan.digest_error {plan : Plan} {records : List Record} {fault : Fault}
    (herror : plan.digest records = .error fault) : fault.IsUnwritable := by
  rw [digest, Canonical.write] at herror
  rcases Outcome.bind_eq_error_iff.mp herror with hwrite | ⟨text, -, hok⟩
  · rcases Outcome.bind_eq_error_iff.mp hwrite with hnormal | ⟨document, -, hok⟩
    · exact Value.normalize_error _ hnormal
    · cases hok
  · cases hok

/-! ### Checked settings in use -/

namespace Oracle

section Shots

variable {shots : Double} (hshots : IsCount 1 shots)

include hshots

theorem exists_readShots : ∃ n, readShots (.number shots) = .ok n := by
  obtain ⟨n, hn, hpos⟩ := hshots
  refine ⟨n.toNat, ?_⟩
  simp only [readShots, Value.number?, Option.bind_some, hn]
  rw [if_neg (by omega)]

theorem analytic_answers (angle : Double) (calls : ℕ) :
    analytic angle (.number shots) calls = (.ok (rotationProbability angle), calls) := by
  obtain ⟨n, hread⟩ := exists_readShots hshots
  rw [analytic, Action.bind_of_ok _ (by rw [hread, Action.ofExcept_run]), Action.pure_run]

theorem sampled_answers (seed : UInt32) (angle : Double) (calls : ℕ) :
    ∃ p, sampled seed angle (.number shots) calls = (.ok p, calls + 1) := by
  obtain ⟨n, hread⟩ := exists_readShots hshots
  rw [sampled, Action.bind_of_ok _ (by rw [hread, Action.ofExcept_run]),
    Action.bind_of_ok _ (Action.get_run _)]
  exact ⟨_, rfl⟩

/-- The oracle that checked settings select answers every call. -/
theorem select_answers (kind : OracleKind) (seed angle : Double) (calls : ℕ) :
    ∃ p calls', (select (.string kind.name) (.number seed)).loose angle (.number shots) calls
      = (.ok (.number p), calls') := by
  obtain ⟨p, calls', hanswer⟩ : ∃ p calls',
      select (.string kind.name) (.number seed) angle (.number shots) calls = (.ok p, calls') := by
    cases kind with
    | analytic => exact ⟨_, _, analytic_answers hshots angle calls⟩
    | sampled =>
        obtain ⟨p, hp⟩ := sampled_answers hshots seed.toWord angle calls
        exact ⟨p, _, hp⟩
  exact ⟨p, calls', Action.bind_of_ok _ hanswer⟩

end Shots

end Oracle

theorem CommitPolicy.ofValue_name (policy : CommitPolicy) :
    CommitPolicy.ofValue (.string policy.name) = policy := by
  cases policy <;> decide

/-- A checked count of steps is taken as it is, at once or one by one. -/
theorem Setup.run_counted {σ : Type} (setup : Setup σ) {steps : Double} (hsteps : IsCount 0 steps) :
    ∃ n : ℕ, steps.toInt? = some (n : ℤ) ∧ n < 2 ^ 53
      ∧ setup.run (.number steps) = setup.simulate n
      ∧ setup.runPaced (.number steps) = setup.simulate n := by
  obtain ⟨n, hn, hlt, hread, hrounds⟩ := readSteps_of_isCount hsteps
  refine ⟨n, hn, hlt, ?_, ?_⟩ <;> funext env
  · rw [run, Action.bind_of_ok _ (by rw [hread, Action.ofExcept_run])]
  · rw [runPaced_number, hrounds]

namespace Plan

/-- A plan carried out with its own oracle and every record kept. -/
def recorded (plan : Plan) (paced : Bool) : Action (ℕ × List Record) Summary :=
  plan.execute paced (fun angle shots => (plan.oracle.loose angle shots).inFirst) Setup.keep

/-- What the plan of a configuration makes its series with, once its rule is known. -/
def recordingSetup (config : Config) (rule : Rule) : Setup (ℕ × List Record) where
  sequencer := .unobserved rule (.ofValue (ofConfig config {}).settings.commitPolicy)
  encoding := ⟨(ofConfig config {}).settings.scale, (ofConfig config {}).settings.shots⟩
  oracle := fun angle shots => ((ofConfig config {}).oracle.loose angle shots).inFirst
  sink := Setup.keep

variable {config : Config} (hvalid : config.Valid) (paced : Bool)

include hvalid

theorem recorded_steady (rule : Rule) :
    (recordingSetup config rule).Steady rule config.run.commitPolicy where
  sequencer := by
    change Sequencer.unobserved rule (.ofValue (.string config.run.commitPolicy.name)) = _
    rw [CommitPolicy.ofValue_name]
  scale := ⟨config.run.scale, rfl, hvalid.run.scale⟩
  oracle angle env := by
    obtain ⟨p, calls', hanswer⟩ :=
      Oracle.select_answers hvalid.run.shots config.run.oracle config.run.seed angle env.1
    exact ⟨p, calls', Action.inFirst_run hanswer env.2⟩
  sink := rfl

/-- What becomes of a run once its series has ended: a fault stays, and records are digested. -/
inductive Closing (kept : List Record) : Except Fault (List Record) → Except Fault Summary → Prop where
  | failed (fault : Fault) : Closing kept (.error fault) (.error fault)
  | summed (summary : Summary) (hrecords : summary.records = kept) :
      Closing kept (.ok kept) (.ok summary)
  | undigested {fault : Fault} (hfault : fault.IsUnwritable) :
      Closing kept (.ok kept) (.error fault)

omit hvalid in
/-- With its rule known, the plan of a configuration is a series and its digest. -/
theorem recorded_eq {rule : Rule}
    (hrule : Rule.ofValues (config.rules.map RuleSpec.toValue) = .ok rule)
    (env : ℕ × List Record) : (ofConfig config {}).recorded paced env = (do
      let (records, final) ← Action.withPrivate ⟨0, config.inputs⟩
        (if paced then (recordingSetup config rule).runPaced (.number config.run.steps)
          else (recordingSetup config rule).run (.number config.run.steps))
      let digest ← Action.ofExcept ((ofConfig config {}).digest records)
      return ⟨config.metadata.name, (ofConfig config {}).settings, records, final, digest⟩ :
        Action (ℕ × List Record) Summary) env :=
  Action.bind_of_ok _ (by rw [Action.ofExcept_run]; exact congrArg (·, _) hrule)

theorem series_ending (rule : Rule) (hadds : rule.Adds (RuleSpec.stepDelta config.rules)) :
    ∃ (n : ℕ) (series : Except Fault (List Record)) (final : State) (calls : ℕ)
      (kept : List Record), config.run.steps.toInt? = some (n : ℤ)
      ∧ (if paced then (recordingSetup config rule).runPaced (.number config.run.steps)
          else (recordingSetup config rule).run (.number config.run.steps))
        (⟨0, config.inputs⟩, (0, [])) = (series, (final, (calls, kept)))
      ∧ Setup.Consecutive 0 kept
      ∧ Setup.Ending n config.inputs.blockSize config.inputs.crcValue
        (RuleSpec.stepDelta config.rules) kept series := by
  obtain ⟨y, heval⟩ := hvalid.inputs
  obtain ⟨n, hn, hlast, hrun, hpaced⟩ := (recordingSetup config rule).run_counted hvalid.run.steps
  have hzero : (0 : Double).toInt? = some 0 := Double.toInt?_ofNat (n := 0) (by decide)
  obtain ⟨series, final, calls, kept, hsimulate, hconsecutive, hending⟩ :=
    @Setup.simulate_ending _ _ _ _ (recorded_steady hvalid rule) _ hadds n ⟨0, config.inputs⟩
      heval.readable heval.block 0 hzero le_rfl (by omega) 0 []
  refine ⟨n, series, final, calls, kept, hn, ?_, hconsecutive, hending⟩
  cases paced
  · rw [if_neg Bool.false_ne_true, hrun, hsimulate, List.nil_append]
  · rw [if_pos rfl, hpaced, hsimulate, List.nil_append]

/-- A run of a checked configuration is its series and what is made of it. -/
theorem recorded_ending : ∃ (n : ℕ) (series : Except Fault (List Record))
    (outcome : Except Fault Summary) (calls : ℕ) (kept : List Record),
    config.run.steps.toInt? = some (n : ℤ)
      ∧ (ofConfig config {}).recorded paced (0, []) = (outcome, (calls, kept))
      ∧ Setup.Consecutive 0 kept
      ∧ Setup.Ending n config.inputs.blockSize config.inputs.crcValue
        (RuleSpec.stepDelta config.rules) kept series
      ∧ Closing kept series outcome := by
  obtain ⟨rule, hrule, hadds⟩ := Rule.ofValues_adds hvalid.rules
  obtain ⟨n, series, final, calls, kept, hn, hseries, hconsecutive, hending⟩ :=
    series_ending hvalid paced rule hadds
  have hprivate := Action.withPrivate_run hseries
  rw [recorded_eq paced hrule]
  cases series with
  | error fault =>
      exact ⟨n, _, .error fault, calls, kept, hn, Action.bind_of_error _ hprivate, hconsecutive,
        hending, .failed fault⟩
  | ok records =>
      obtain rfl : records = kept := by
        cases hending
        rfl
      rw [Action.bind_of_ok _ hprivate]
      cases hdigest : (ofConfig config {}).digest records with
      | error fault =>
          refine ⟨n, _, .error fault, calls, records, hn, ?_, hconsecutive, hending,
            .undigested (digest_error hdigest)⟩
          exact Action.bind_of_error _ (by rw [Action.ofExcept_run, hdigest])
      | ok digest =>
          let summary : Summary :=
            ⟨config.metadata.name, (ofConfig config {}).settings, records, final, digest⟩
          refine ⟨n, _, .ok summary, calls, records, hn, ?_, hconsecutive, hending,
            .summed summary rfl⟩
          exact Action.bind_of_ok _ (by rw [Action.ofExcept_run, hdigest])

/-! ### The block is used up -/

omit hvalid

/-- The block total after a number of steps. -/
def blockAfter (config : Config) (steps : ℕ) : ℤ :=
  config.inputs.blockSize + (config.inputs.crcValue + steps * RuleSpec.stepDelta config.rules)

/-- The first step that leaves no block. -/
def IsExhaustion (config : Config) (k : ℕ) : Prop :=
  IsLeast {k : ℕ | 1 ≤ k ∧ blockAfter config k ≤ 0} k

/-- A linear total that was positive and is used up stays so. -/
theorem blockAfter_nonpos_of_le {k n : ℕ} (hstart : 0 < blockAfter config 0)
    (hempty : blockAfter config k ≤ 0) (hle : k ≤ n) : blockAfter config n ≤ 0 := by
  simp only [blockAfter, Nat.cast_zero, zero_mul] at hstart hempty ⊢
  have hdelta : RuleSpec.stepDelta config.rules ≤ 0 := by
    by_contra hpos
    have : (0 : ℤ) ≤ k * RuleSpec.stepDelta config.rules :=
      mul_nonneg (Int.natCast_nonneg k) (by omega)
    omega
  have hmono : (n : ℤ) * RuleSpec.stepDelta config.rules ≤ k * RuleSpec.stepDelta config.rules :=
    mul_le_mul_of_nonpos_right (by exact_mod_cast hle) hdelta
  omega

theorem exists_exhaustion {n : ℕ} (hstart : 0 < blockAfter config 0)
    (hempty : blockAfter config n ≤ 0) : ∃ k, IsExhaustion config k := by
  have hn : n ≠ 0 := by
    rintro rfl
    omega
  have hexists : ∃ k, 1 ≤ k ∧ blockAfter config k ≤ 0 := ⟨n, Nat.one_le_iff_ne_zero.mpr hn, hempty⟩
  exact ⟨_, Nat.isLeast_find hexists⟩

/-- The one fault of the inputs that a run can end with, and what was kept until then. -/
def emptyBlockAt (config : Config) (k : ℕ) : Fault :=
  .field (.emptyBlock config.inputs.blockSize
    (config.inputs.crcValue + k * RuleSpec.stepDelta config.rules))

/-- **Faults of runs.** A run of a configuration that passed validation never ends with a fault of
its inputs other than the empty block. That fault comes exactly if the block is used up within the
run, at the step that does so and after the records of all steps before it, unless a number
overflows earlier; then there are fewer records. -/
theorem recorded_faults {payload : Value} {reading : Reading Config}
    (hok : Config.validate payload = .ok reading) (paced : Bool) :
    ∃ (n : ℕ) (outcome : Except Fault Summary) (calls : ℕ) (kept : List Record),
      reading.value.run.steps.toInt? = some (n : ℤ)
        ∧ (ofConfig reading.value {}).recorded paced (0, []) = (outcome, (calls, kept))
        ∧ Setup.Consecutive 0 kept
        ∧ (∀ fault, outcome = .error (.field fault) →
          blockAfter reading.value n ≤ 0 ∧ IsExhaustion reading.value kept.length
            ∧ Fault.field fault = emptyBlockAt reading.value kept.length)
        ∧ (blockAfter reading.value n ≤ 0 → ∃ k, IsExhaustion reading.value k
          ∧ (outcome = .error (emptyBlockAt reading.value k) ∧ kept.length = k
            ∨ (∃ fault, fault.IsOverflow ∧ outcome = .error fault) ∧ kept.length < k)) := by
  have hvalid := Config.validate_valid hok
  obtain ⟨y, heval⟩ := hvalid.inputs
  have hstart : 0 < blockAfter reading.value 0 := by
    simpa [blockAfter] using heval.block
  obtain ⟨n, series, outcome, calls, kept, hn, hrecorded, hconsecutive, hending, hclosing⟩ :=
    recorded_ending hvalid paced
  refine ⟨n, outcome, calls, kept, hn, hrecorded, hconsecutive, ?_, ?_⟩
  · rintro fault rfl
    cases hclosing with
    | undigested hfault => cases hfault
    | failed =>
        cases hending with
        | overflow hfault => cases hfault
        | usedUp hpos hlength hblock hempty =>
            -- The total falls on a line, so it is no longer positive at the end of the run either.
            refine ⟨blockAfter_nonpos_of_le hstart hempty hlength, ⟨⟨hpos, hempty⟩, ?_⟩, rfl⟩
            intro k hk
            exact not_lt.mp fun hlt => (hblock k hlt).not_ge hk.2
  · intro hempty
    cases hending with
    | complete hlength hblock => exact absurd hempty (hblock n le_rfl).not_ge
    | usedUp hpos hlength hblock hused =>
        cases hclosing
        refine ⟨kept.length, ⟨⟨hpos, hused⟩, ?_⟩, .inl ⟨rfl, rfl⟩⟩
        intro k hk
        exact not_lt.mp fun hlt => (hblock k hlt).not_ge hk.2
    | overflow hfault hlength hblock =>
        cases hclosing
        -- The overflow came while there was a block, hence before the step that uses it up.
        obtain ⟨k, hk⟩ := exists_exhaustion hstart hempty
        refine ⟨k, hk, .inr ⟨⟨_, hfault, rfl⟩, ?_⟩⟩
        exact not_le.mp fun hle => (hblock k hle).not_ge hk.1.2

/-- A configuration that takes one of two units of its block with each of five steps. -/
def dwindling : Value :=
  .object .plain [
    ("inputs", .object .plain [
      ("pi", .string "1"),
      ("lambda", .string "1"),
      ("mu", .string "1"),
      ("x", .string "1"),
      ("hashHex", .string "1"),
      ("blockSize", .string "2"),
      ("crcValue", .string "0")]),
    ("rules", .array [
      .object .plain [("kind", .string "increment-crc"), ("delta", .string "-1")]]),
    ("run", .object .plain [("steps", .number 5)])]

theorem dwindling_faults : ∃ reading, Config.validate dwindling = .ok reading
    ∧ ∃ (outcome : Except Fault Summary) (calls : ℕ) (kept : List Record),
      (ofConfig reading.value {}).recorded true (0, []) = (outcome, (calls, kept))
        ∧ ∃ k, IsExhaustion reading.value k
          ∧ (outcome = .error (emptyBlockAt reading.value k) ∧ kept.length = k
            ∨ (∃ fault, fault.IsOverflow ∧ outcome = .error fault) ∧ kept.length < k) := by
  have hany : (Config.validate dwindling).toOption.any (fun reading =>
      reading.value.run.steps.toInt? = some 5 ∧ blockAfter reading.value 5 ≤ 0) = true := by
    decide +kernel
  obtain ⟨reading, hok, htest⟩ := Outcome.exists_of_any hany
  obtain ⟨hsteps, hempty⟩ := of_decide_eq_true htest
  obtain ⟨n, outcome, calls, kept, hn, hrecorded, -, -, hused⟩ := recorded_faults hok true
  obtain rfl : n = 5 := by
    rw [hsteps, Option.some_inj] at hn
    omega
  exact ⟨reading, hok, outcome, calls, kept, hrecorded, hused hempty⟩

end Plan

end AngleSeries
