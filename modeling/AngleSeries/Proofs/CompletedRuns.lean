import AngleSeries.Proofs.Magnitudes
import AngleSeries.Proofs.RunDocuments
import AngleSeries.Proofs.RunOutcomes

/-!
# Digests of completed series

When the last record has been taken and the last step has succeeded, only the digest can still fail,
and it fails for a number that is not finite. Such a number can come from one place only: scale and
value are checked to be finite, but their product is not. What the oracle and the expectation make
of a finite angle is finite, so a completed run has its digest exactly if no angle overflowed.
-/

namespace AngleSeries

namespace Setup

variable {σ : Type} {setup : Setup σ}

/-! ### Where records come from -/

/-- What a record consists of that was taken in a state. -/
structure Observed (setup : Setup σ) (state : State) (record : Record) : Prop where
  angle : ∃ value, Angle.ofDecimal value setup.encoding.scale = .ok record.theta
  answer : ∃ env env', setup.oracle record.theta setup.encoding.shots env = (.ok record.p1, env')
  expectation : ∃ share, record.p1.toDouble = .ok share ∧ record.expZ = 1 - share - share

theorem observed_of_observe {state : State} {env : σ} {record : Record} {last : State × σ}
    (hrun : setup.observe (state, env) = (.ok record, last)) : setup.Observed state record := by
  obtain ⟨value, env₁, hvalue, hrun⟩ := Action.exists_of_bind_ok hrun
  obtain ⟨theta, env₂, htheta, hrun⟩ := Action.exists_of_bind_ok hrun
  obtain ⟨p1, env₃, hp1, hrun⟩ := Action.exists_of_bind_ok hrun
  obtain ⟨current, env₄, hcurrent, hrun⟩ := Action.exists_of_bind_ok hrun
  obtain ⟨share, env₅, hshare, hrun⟩ := Action.exists_of_bind_ok hrun
  cases hrun
  refine ⟨⟨value, congrArg Prod.fst htheta⟩, ?_, share, congrArg Prod.fst hshare, rfl⟩
  rcases hanswer : setup.oracle theta setup.encoding.shots env₂.2 with ⟨outcome, left⟩
  rw [Action.inSecond_run hanswer] at hp1
  cases hp1
  exact ⟨_, _, hanswer⟩

theorem observed_of_simulate {n : ℕ} {env last : State × σ} {records : List Record}
    (hrun : setup.simulate n env = (.ok records, last)) :
    ∀ record ∈ records, ∃ state, setup.Observed state record := by
  induction n generalizing env records with
  | zero =>
      cases hrun
      intro record hrecord
      cases hrecord
  | succ n ih =>
      obtain ⟨first, env₁, hadvance, hrun⟩ := Action.exists_of_bind_ok hrun
      obtain ⟨rest, env₂, hrest, hrun⟩ := Action.exists_of_bind_ok hrun
      cases hrun
      intro record hrecord
      rcases List.mem_cons.mp hrecord with rfl | hrecord
      · obtain ⟨taken, env₃, hobserve, hadvance⟩ := Action.exists_of_bind_ok hadvance
        obtain ⟨_, env₄, -, hadvance⟩ := Action.exists_of_bind_ok hadvance
        obtain ⟨_, env₅, -, hadvance⟩ := Action.exists_of_bind_ok hadvance
        cases hadvance
        exact ⟨_, observed_of_observe hobserve⟩
      · exact ih hrest record hrecord

end Setup

/-! ### What the oracle answers -/

namespace Oracle

/-- A count of shots that was read is that number, and none that could be rounded. -/
theorem count_of_readShots {shots : Double} {n : ℕ} (hread : readShots (.number shots) = .ok n) :
    0 < n ∧ n ≤ 2 ^ 53 ∧ shots.toInt? = some (n : ℤ) := by
  have hmax : Double.maxSafe = 2 ^ 53 - 1 := rfl
  simp only [readShots, Value.number?, Option.bind_some] at hread
  split at hread
  case h_1 i hi =>
    obtain ⟨hint, hsafe⟩ := Option.filter_eq_some_iff.mp hi
    have hbounds : -Double.maxSafe ≤ i ∧ i ≤ Double.maxSafe := of_decide_eq_true hsafe
    split at hread
    · cases hread
    case isFalse hpos =>
      cases hread
      rw [Int.toNat_of_nonneg (by omega)]
      exact ⟨by omega, by omega, hint⟩
  case h_2 => cases hread

/-- Estimates are shares whatever the angle is; the exact probability needs a finite one. -/
theorem within_of_select (kind : OracleKind) {seed angle shots : Double} {p1 : Value}
    {calls calls' : ℕ}
    (hanswer : (select (.string kind.name) (.number seed)).loose angle (.number shots) calls
      = (.ok p1, calls')) :
    ∃ p, p1 = .number p
      ∧ (kind = .sampled ∨ angle.isFinite = true → p.Within unitsPerOne) := by
  obtain ⟨p, left, hanswer, hp1⟩ := Action.exists_of_bind_ok hanswer
  cases hp1
  refine ⟨p, rfl, fun hangle => ?_⟩
  cases kind with
  | analytic =>
      change analytic angle (.number shots) calls = _ at hanswer
      obtain ⟨n, _, -, hanswer⟩ := Action.exists_of_bind_ok hanswer
      cases hanswer
      exact within_rotationProbability (hangle.resolve_left (by decide))
  | sampled =>
      change sampled seed.toWord angle (.number shots) calls = _ at hanswer
      obtain ⟨n, _, hread, hanswer⟩ := Action.exists_of_bind_ok hanswer
      obtain ⟨call, _, -, hanswer⟩ := Action.exists_of_bind_ok hanswer
      obtain ⟨_, _, -, hanswer⟩ := Action.exists_of_bind_ok hanswer
      cases hanswer
      obtain ⟨hpos, hmax, -⟩ := count_of_readShots (congrArg Prod.fst hread)
      exact within_estimate _ hpos hmax _

end Oracle

namespace Plan

variable {config : Config} (rule : Rule) (paced : Bool)

/-- The series that a run of a configuration makes with its own oracle, keeping every record. -/
def series (config : Config) (rule : Rule) (paced : Bool) :
    Action (State × (ℕ × List Record)) (List Record) :=
  if paced then (recordingSetup config rule).runPaced (.number config.run.steps)
  else (recordingSetup config rule).run (.number config.run.steps)

section Checked

variable {rule paced} (hvalid : config.Valid) {records : List Record} {final : State} {calls : ℕ}
  {log : List Record}

include hvalid

theorem series_eq_simulate : ∃ n : ℕ, config.run.steps.toInt? = some (n : ℤ)
    ∧ series config rule paced = (recordingSetup config rule).simulate n := by
  obtain ⟨n, hn, -, hrun, hpaced⟩ := (recordingSetup config rule).run_counted hvalid.run.steps
  refine ⟨n, hn, ?_⟩
  cases paced
  · exact hrun
  · exact hpaced

/-- A record of a completed series was measured, and it is finite if its angle is. -/
theorem measured_of_series {env last : State × (ℕ × List Record)}
    (hseries : series config rule paced env = (.ok records, last)) :
    ∀ record ∈ records, record.IsMeasured
      ∧ (config.run.oracle = .sampled ∨ record.theta.isFinite = true →
        record.share.isFinite = true ∧ record.expZ.isFinite = true)
      ∧ (config.run.scale.Within (2 ^ 1021 * unitsPerOne) → record.theta.isFinite = true) := by
  obtain ⟨n, -, hsimulate⟩ := @series_eq_simulate config rule paced hvalid
  rw [hsimulate] at hseries
  intro record hrecord
  obtain ⟨state, ⟨value, hangle⟩, ⟨env, env', hanswer⟩, share, hshare, hexpZ⟩ :=
    Setup.observed_of_simulate hseries record hrecord
  rcases hloose : (ofConfig config {}).oracle.loose record.theta (.number config.run.shots) env.1
    with ⟨outcome, calls⟩
  have hanswer : (outcome, (calls, env.2)) = (.ok record.p1, env') :=
    (Action.inFirst_run hloose env.2).symm.trans hanswer
  cases hanswer
  obtain ⟨p, hp, hwithin⟩ := Oracle.within_of_select config.run.oracle hloose
  obtain ⟨hmeasured, hp1⟩ := Record.isMeasured_of_number hp
  rw [hp] at hshare
  cases hshare
  refine ⟨hmeasured, fun hangle => ?_, fun hscale => Angle.isFinite_of_scale hscale hangle⟩
  rw [hp1, hexpZ]
  exact ⟨(hwithin hangle).isFinite, isFinite_expectation (hwithin hangle)⟩

theorem series_ended (hrule : Rule.ofValues (config.rules.map RuleSpec.toValue) = .ok rule)
    (hseries : series config rule paced (⟨0, config.inputs⟩, (0, []))
      = (.ok records, (final, (calls, log)))) :
    log = records ∧ (∃ n : ℕ, config.run.steps.toInt? = some (n : ℤ) ∧ records.length = n)
      ∧ Setup.Consecutive 0 records := by
  obtain ⟨other, hother, hadds⟩ := Rule.ofValues_adds hvalid.rules
  obtain rfl : other = rule := Except.ok.inj (hother.symm.trans hrule)
  obtain ⟨n, outcome, _, _, kept, hn, hrun, hconsecutive, hending⟩ :=
    series_ending hvalid paced other hadds
  rw [series, hrun] at hseries
  cases hseries
  cases hending with
  | complete hlength => exact ⟨rfl, ⟨n, hn, hlength⟩, hconsecutive⟩

end Checked

theorem isFinite_t_of_consecutive {first : ℤ} {records : List Record}
    (hconsecutive : Setup.Consecutive first records) :
    ∀ record ∈ records, record.t.isFinite = true := by
  induction records generalizing first with
  | nil =>
      intro record hrecord
      cases hrecord
  | cons head records ih =>
      intro record hrecord
      rcases List.mem_cons.mp hrecord with rfl | hrecord
      · exact Double.isFinite_of_toInt? hconsecutive.1
      · exact ih hconsecutive.2 record hrecord

/-- After a completed series the outcome of the run is that of its digest. -/
theorem recorded_of_series {rule : Rule} {paced : Bool} {records : List Record} {final : State}
    {calls : ℕ} {log : List Record}
    (hrule : Rule.ofValues (config.rules.map RuleSpec.toValue) = .ok rule)
    (hseries : series config rule paced (⟨0, config.inputs⟩, (0, []))
      = (.ok records, (final, (calls, log)))) :
    (ofConfig config {}).recorded paced (0, []) = (((ofConfig config {}).digest records).map
      fun digest => ⟨config.metadata.name, (ofConfig config {}).settings, records, final, digest⟩,
        (calls, log)) := by
  rw [series] at hseries
  rw [recorded_eq paced hrule, Action.bind_of_ok _ (Action.withPrivate_run hseries)]
  cases hdigest : (ofConfig config {}).digest records with
  | error fault => exact Action.bind_of_error _ (by rw [Action.ofExcept_run, hdigest])
  | ok digest => exact Action.bind_of_ok _ (by rw [Action.ofExcept_run, hdigest])

/-- **When a completed run has its digest.** Let a configuration pass validation and let its series
come to its end, with as many records as it asks for and every step done. Then its records are finite
where their angles are, and the run returns its summary exactly if no angle is infinite; otherwise it
ends with the complaint about a number that is not finite. No angle is infinite if the scale is at
most `2 ^ 1021` in magnitude. -/
theorem completed_digest_iff {payload : Value} {reading : Reading Config}
    (hok : Config.validate payload = .ok reading) {rule : Rule} {paced : Bool}
    {records : List Record} {final : State} {calls : ℕ} {log : List Record}
    (hrule : Rule.ofValues (reading.value.rules.map RuleSpec.toValue) = .ok rule)
    (hseries : series reading.value rule paced (⟨0, reading.value.inputs⟩, (0, []))
      = (.ok records, (final, (calls, log)))) :
    log = records
      ∧ (∃ n : ℕ, reading.value.run.steps.toInt? = some (n : ℤ) ∧ records.length = n)
      ∧ (∀ record ∈ records, record.theta.isFinite = true → record.IsFinite)
      ∧ ((∃ digest, (ofConfig reading.value {}).recorded paced (0, [])
            = (.ok ⟨reading.value.metadata.name, (ofConfig reading.value {}).settings, records,
                final, digest⟩, (calls, log)))
          ↔ ∀ record ∈ records, record.theta.isFinite = true)
      ∧ ((∃ record ∈ records, record.theta.isFinite = false) → ∃ x : Double, x.isFinite = false
          ∧ (ofConfig reading.value {}).recorded paced (0, [])
            = (.error (.nonFiniteNumber x.text), (calls, log)))
      ∧ (reading.value.run.scale.Within (2 ^ 1021 * unitsPerOne) →
          ∀ record ∈ records, record.theta.isFinite = true) := by
  have hvalid := Config.validate_valid hok
  have hmeasured := measured_of_series hvalid hseries
  obtain ⟨hlog, hlength, hconsecutive⟩ := series_ended hvalid hrule hseries
  have hfinite : ∀ record ∈ records, record.theta.isFinite = true → record.IsFinite := by
    intro record hrecord htheta
    obtain ⟨hshare, hexpZ⟩ := (hmeasured record hrecord).2.1 (.inr htheta)
    exact ⟨isFinite_t_of_consecutive hconsecutive record hrecord, htheta, hshare, hexpZ⟩
  have hdigest := digest_cases hvalid fun record hrecord => (hmeasured record hrecord).1
  rw [recorded_of_series hrule hseries]
  refine ⟨hlog, hlength, hfinite, ⟨?_, fun hangles => ?_⟩, ?_, ?_⟩
  · rintro ⟨digest, hsummary⟩ record hrecord
    rcases hdigest with ⟨hall, -⟩ | ⟨-, x, -, hfault⟩
    · exact (hall record hrecord).theta
    · rw [hfault] at hsummary
      cases hsummary
  · rcases hdigest with ⟨-, digest, hdigest⟩ | ⟨⟨record, hrecord, hinfinite⟩, -⟩
    · exact ⟨digest, by rw [hdigest]; rfl⟩
    · exact absurd (hfinite record hrecord (hangles record hrecord)) hinfinite
  · rintro ⟨record, hrecord, hinfinite⟩
    rcases hdigest with ⟨hall, -⟩ | ⟨-, x, hx, hfault⟩
    · rw [(hall record hrecord).theta] at hinfinite
      cases hinfinite
    · exact ⟨x, hx, by rw [hfault]; rfl⟩
  · intro hscale record hrecord
    exact (hmeasured record hrecord).2.2 hscale

/-! ### One step -/

/-- A single step that changes nothing is taken if value and angle can be computed. -/
theorem series_single (hvalid : config.Valid) (paced : Bool)
    (hsteps : config.run.steps.toInt? = some 1) (hrules : config.rules = []) {value : Decimal}
    {angle : Double} (hvalue : config.inputs.secret = .ok value)
    (hangle : Angle.ofDecimal value (.number config.run.scale) = .ok angle) :
    ∃ record final calls, record.theta = angle
      ∧ Rule.ofValues (config.rules.map RuleSpec.toValue) = .ok (Rule.compose [])
      ∧ series config (Rule.compose []) paced (⟨0, config.inputs⟩, (0, []))
        = (.ok [record], (final, (calls, [record]))) := by
  let setup := recordingSetup config (Rule.compose [])
  let start : State := ⟨0, config.inputs⟩
  have hsteady : setup.Steady (Rule.compose []) _ := recorded_steady hvalid (Rule.compose [])
  obtain ⟨p, calls, horacle⟩ := hsteady.oracle angle (0, [])
  let record : Record := ⟨0, value.text, angle, .number p, 1 - p - p⟩
  have hangle : Angle.ofDecimal value setup.encoding.scale = .ok angle := hangle
  have hobserve : setup.observe (start, (0, [])) = (.ok record, (start, (calls, []))) := by
    rw [Setup.observe, Action.bind_of_ok _ (by rw [Sequencer.currentValue_run, hvalue]), hangle,
      Action.bind_of_ok _ (Action.ofExcept_run _ _),
      Action.bind_of_ok _ (Action.inSecond_run horacle start),
      Action.bind_of_ok _ (Action.get_run _)]
    exact Action.bind_of_ok _ (Action.ofExcept_run (.ok p) _)
  have hrule : setup.sequencer.rule start.inputs start.t = .ok config.inputs := rfl
  have hstep : setup.sequencer.step (start, (calls, [record]))
      = (.ok value, (⟨start.t + 1, config.inputs⟩, (calls, [record]))) :=
    Sequencer.step_of_ok hrule hvalue rfl
  have hadvance : setup.advance (start, (0, []))
      = (.ok record, (⟨start.t + 1, config.inputs⟩, (calls, [record]))) := by
    rw [Setup.advance_of_observed hsteady 0 [] hobserve]
    exact Action.bind_of_ok _ hstep
  obtain ⟨n, hn, hsimulate⟩ := @series_eq_simulate config (Rule.compose []) paced hvalid
  obtain rfl : n = 1 := by
    rw [hsteps, Option.some_inj] at hn
    omega
  refine ⟨record, ⟨start.t + 1, config.inputs⟩, calls, rfl, by rw [hrules]; rfl, ?_⟩
  rw [hsimulate]
  exact (Action.bind_of_ok _ hadvance).trans (Action.bind_of_ok _ (Action.pure_run _ _))

/-- A configuration of one step that changes nothing, with a scale of its own. -/
def scaled (scale : Double) : Value :=
  .object .plain [
    ("inputs", .object .plain [
      ("pi", .string "3"),
      ("lambda", .string "1"),
      ("mu", .string "1"),
      ("x", .string "1"),
      ("hashHex", .string "1"),
      ("blockSize", .string "1"),
      ("crcValue", .string "0")]),
    ("rules", .array []),
    ("run", .object .plain [("steps", .number 1), ("scale", .number scale)])]

/-- Whether the one angle of a configuration is finite; that there is one is part of the test. -/
def testsAngle (finite : Bool) (reading : Reading Config) : Bool :=
  reading.value.rules = [] ∧ reading.value.run.steps.toInt? = some 1
    ∧ reading.value.inputs.secret.toOption.any fun value =>
        (Angle.ofDecimal value (.number reading.value.run.scale)).toOption.any fun angle =>
          angle.isFinite = finite

theorem exists_series_of_test {payload : Value} {finite : Bool}
    (htest : (Config.validate payload).toOption.any (testsAngle finite) = true) (paced : Bool) :
    ∃ reading rule record final calls, Config.validate payload = .ok reading
      ∧ Rule.ofValues (reading.value.rules.map RuleSpec.toValue) = .ok rule
      ∧ series reading.value rule paced (⟨0, reading.value.inputs⟩, (0, []))
        = (.ok [record], (final, (calls, [record])))
      ∧ record.theta.isFinite = finite := by
  obtain ⟨reading, hok, htest⟩ := Outcome.exists_of_any htest
  obtain ⟨hrules, hsteps, htest⟩ := of_decide_eq_true htest
  obtain ⟨value, hvalue, htest⟩ := Outcome.exists_of_any htest
  obtain ⟨angle, hangle, htest⟩ := Outcome.exists_of_any htest
  obtain ⟨record, final, calls, htheta, hrule, hseries⟩ :=
    series_single (Config.validate_valid hok) paced hsteps hrules hvalue hangle
  exact ⟨reading, _, record, final, calls, hok, hrule, hseries, htheta ▸ of_decide_eq_true htest⟩

theorem scaled_digest_iff : ∃ reading rule records final calls log,
    Config.validate (scaled 2) = .ok reading
      ∧ Rule.ofValues (reading.value.rules.map RuleSpec.toValue) = .ok rule
      ∧ series reading.value rule false (⟨0, reading.value.inputs⟩, (0, []))
        = (.ok records, (final, (calls, log)))
      ∧ records.length = 1
      ∧ ∃ digest, (ofConfig reading.value {}).recorded false (0, [])
        = (.ok ⟨reading.value.metadata.name, (ofConfig reading.value {}).settings, records, final,
            digest⟩, (calls, log)) := by
  have htest : (Config.validate (scaled 2)).toOption.any (testsAngle true) = true := by
    decide +kernel
  obtain ⟨reading, rule, record, final, calls, hok, hrule, hseries, hfinite⟩ :=
    exists_series_of_test htest false
  obtain ⟨-, -, -, hdigest, -, -⟩ := completed_digest_iff hok hrule hseries
  refine ⟨reading, rule, [record], final, calls, _, hok, hrule, hseries, rfl, hdigest.mpr ?_⟩
  exact List.forall_mem_singleton.mpr hfinite

/-- With a scale of `10 ^ 308` the angle is infinite, and the completed run has no digest. -/
theorem not_completed_digest : ¬ ∀ (payload : Value) (reading : Reading Config),
    Config.validate payload = .ok reading → ∀ (rule : Rule) (paced : Bool) (records : List Record)
      (final : State) (calls : ℕ) (log : List Record),
      Rule.ofValues (reading.value.rules.map RuleSpec.toValue) = .ok rule →
      series reading.value rule paced (⟨0, reading.value.inputs⟩, (0, []))
        = (.ok records, (final, (calls, log))) →
      ∃ summary, ((ofConfig reading.value {}).recorded paced (0, [])).1 = .ok summary := by
  intro hcompletes
  have htest : (Config.validate (scaled (.ofInt (10 ^ 308)))).toOption.any (testsAngle false)
      = true := by
    decide +kernel
  obtain ⟨reading, rule, record, final, calls, hok, hrule, hseries, hinfinite⟩ :=
    exists_series_of_test htest false
  obtain ⟨summary, hsummary⟩ := hcompletes _ _ hok _ _ _ _ _ _ hrule hseries
  have hvalid := Config.validate_valid hok
  have hmeasured := measured_of_series hvalid hseries
  rw [recorded_of_series hrule hseries] at hsummary
  rcases digest_cases hvalid fun record hrecord => (hmeasured record hrecord).1 with
    ⟨hall, -⟩ | ⟨-, x, -, hfault⟩
  · rw [(hall record (List.mem_singleton_self record)).theta] at hinfinite
    cases hinfinite
  · rw [hfault] at hsummary
    cases hsummary

end Plan

end AngleSeries
