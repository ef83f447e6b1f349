import AngleSeries.Proofs.RunOutcomes
import AngleSeries.Proofs.StepCounter

/-!
# Series and their listeners

A round evaluates the state and turns its value into an angle, asks the oracle, hands the record to
the sink and takes a step. Each of these can fail, and the series then stops where it is.

What the oracle was asked and what the sink was handed cannot be read off a series, since both may
do with their environment as they like. So a series is also run with an oracle and a sink that write
down their calls. It goes as the one without a log, and its log shows how far it came: full rounds,
one for every state that the rule leads to, and what there was of a last one.
-/

namespace AngleSeries

namespace Action

variable {σ ε α : Type}

/-- Writes down behind earlier notes how an action came out. -/
def noting (note : Except Fault α → ε) (action : Action σ α) : Action (σ × List ε) α :=
  fun env =>
    let (outcome, first) := action env.1
    (outcome, (first, env.2 ++ [note outcome]))

theorem noting_run {action : Action σ α} {env env' : σ} {outcome : Except Fault α}
    (haction : action env = (outcome, env')) (note : Except Fault α → ε) (notes : List ε) :
    action.noting note (env, notes) = (outcome, (env', notes ++ [note outcome])) := by
  rw [noting, haction]

end Action

/-! ### States -/

namespace Sequencer

variable {σ : Type} (sequencer : Sequencer σ)

/-- The state that the rule makes of a state, whether it can be evaluated or not. -/
def next (state : State) : Except Fault State :=
  (sequencer.rule state.inputs state.t).map fun inputs => ⟨state.t + 1, inputs⟩

/-- Where the rule alone leads in a number of steps. -/
def stateAt (start : State) : ℕ → Except Fault State
  | 0 => .ok start
  | i + 1 => stateAt start i >>= sequencer.next

section States

variable {sequencer} {start state : State}

/-- The first step can be taken off in front as well. -/
theorem stateAt_succ_of_next (hnext : sequencer.next start = .ok state) (i : ℕ) :
    sequencer.stateAt start (i + 1) = sequencer.stateAt state i := by
  induction i with
  | zero => exact hnext
  | succ i ih =>
      rw [stateAt, ih]
      rfl

theorem counter_stateAt {t₀ : ℕ} (hcounter : start.t.toInt? = some (t₀ : ℤ)) {i : ℕ}
    (hstate : sequencer.stateAt start i = .ok state) (hbound : t₀ + i ≤ 2 ^ 53) :
    state.t.toInt? = some ((t₀ + i : ℕ) : ℤ) := by
  induction i generalizing state with
  | zero =>
      cases hstate
      exact hcounter
  | succ i ih =>
      obtain ⟨previous, hprevious, hnext⟩ := Outcome.bind_eq_ok_iff.mp hstate
      obtain ⟨inputs, -, rfl⟩ := Outcome.map_eq_ok_iff.mp hnext
      have hone := Double.toInt?_add_one (ih hprevious (by omega)) (by omega)
      rwa [min_eq_left (by omega), add_assoc] at hone

theorem next_of_stepped {env env' : σ} {value : Decimal}
    (hstepped : sequencer.Stepped state env (.ok value, (start, env'))) :
    sequencer.next state = .ok start := by
  cases hstepped with
  | heard hrule hsecret hobserver =>
      rw [next, hrule]
      rfl

end States

/-- The same sequencer in a larger environment, of which its observer keeps to the first part. -/
def beside (τ : Type) : Sequencer (σ × τ) where
  rule := sequencer.rule
  policy := sequencer.policy
  observer state value := (sequencer.observer state value).inFirst

variable {sequencer} in
theorem step_beside {τ : Type} {state left : State} {env env' : σ} {outcome : Except Fault Decimal}
    (hstep : sequencer.step (state, env) = (outcome, (left, env'))) (aside : τ) :
    (sequencer.beside τ).step (state, (env, aside)) = (outcome, (left, (env', aside))) := by
  have hcases := sequencer.step_cases state env
  rw [hstep] at hcases
  cases hcases with
  | unruled hrule => exact step_of_rule_error hrule
  | refused hpolicy hrule hsecret => exact step_of_refused hrule hpolicy hsecret
  | left hpolicy hrule hsecret => exact step_of_left hrule hpolicy hsecret
  | unheard hrule hsecret hobserver =>
      exact @step_of_ok _ (sequencer.beside τ) _ _ _ _ hrule hsecret _ _
        (Action.inFirst_run hobserver aside)
  | heard hrule hsecret hobserver =>
      exact @step_of_ok _ (sequencer.beside τ) _ _ _ _ hrule hsecret _ _
        (Action.inFirst_run hobserver aside)

end Sequencer

/-! ### The log -/

/-- A call of the oracle or of the sink, and how it came out. -/
inductive Exchange where
  | asked (angle : Double) (shots : Value) (answer : Except Fault Value)
  | handed (record : Record) (outcome : Except Fault Unit)

def Exchange.record? : Exchange → Option Record
  | asked _ _ _ => none
  | handed record _ => some record

/-- The records that were handed to the sink, whatever it did with them. -/
def streamed (log : List Exchange) : List Record :=
  log.filterMap Exchange.record?

namespace Setup

variable {σ : Type} (setup : Setup σ)

/-- The same setup with a log of what the oracle is asked and the sink is handed. -/
def overheard : Setup (σ × List Exchange) where
  sequencer := setup.sequencer.beside _
  encoding := setup.encoding
  oracle angle shots := (setup.oracle angle shots).noting (.asked angle shots)
  sink record := (setup.sink record).noting (.handed record)

def angleAt (state : State) : Except Fault Double := do
  let value ← state.inputs.secret
  Angle.ofDecimal value setup.encoding.scale

/-- A record that is taken of a state, with some answer of the oracle. -/
structure Depicts (state : State) (record : Record) : Prop where
  counter : record.t = state.t
  angle : ∃ value, state.inputs.secret = .ok value ∧ record.s = value.text
    ∧ Angle.ofDecimal value setup.encoding.scale = .ok record.theta
  expectation : ∃ share, record.p1.toDouble = .ok share ∧ record.expZ = 1 - share - share

/-- The records are those of the states the rule leads to, one for each. -/
def Traces (start : State) (records : List Record) : Prop :=
  ∀ i record, records[i]? = some record →
    ∃ state, setup.sequencer.stateAt start i = .ok state ∧ setup.Depicts state record

/-- What the log shows of a round that was not stopped before its step. -/
def exchanges (record : Record) : List Exchange :=
  [.asked record.theta setup.encoding.shots (.ok record.p1), .handed record (.ok ())]

/-- Where a round can stop, with its fault, the state it leaves and what the log shows of it. -/
inductive Halts (state : State) : Fault → State → List Exchange → Prop where
  | unturned {fault : Fault} (hangle : setup.angleAt state = .error fault) :
      Halts state fault state []
  | unanswered {fault : Fault} {theta : Double} (hangle : setup.angleAt state = .ok theta) :
      Halts state fault state [.asked theta setup.encoding.shots (.error fault)]
  | unshared {fault : Fault} {theta : Double} {p1 : Value}
      (hangle : setup.angleAt state = .ok theta) (hshare : p1.toDouble = .error fault) :
      Halts state fault state [.asked theta setup.encoding.shots (.ok p1)]
  | untaken {fault : Fault} {record : Record} (hrecord : setup.Depicts state record) :
      Halts state fault state
        [.asked record.theta setup.encoding.shots (.ok record.p1), .handed record (.error fault)]
  | unstepped {fault : Fault} {record : Record} {left : State} {env env' : σ}
      (hrecord : setup.Depicts state record)
      (hstepped : setup.sequencer.Stepped state env (.error fault, (left, env'))) :
      Halts state fault left (setup.exchanges record)

/-- How one round can go. -/
inductive Round (state : State) : Except Fault Record → State → List Exchange → Prop where
  | halted {fault : Fault} {left : State} {tail : List Exchange}
      (hhalts : setup.Halts state fault left tail) : Round state (.error fault) left tail
  | taken {record : Record} {left : State} (hrecord : setup.Depicts state record)
      (hnext : setup.sequencer.next state = .ok left) :
      Round state (.ok record) left (setup.exchanges record)

/-- How a series of `n` rounds can go: all of them are taken, or one after fewer of them stops. -/
inductive Course (start : State) (n : ℕ) :
    Except Fault (List Record) → State → List Exchange → Prop where
  | complete {records : List Record} {left : State} (hlength : records.length = n)
      (hrecords : setup.Traces start records) (hleft : setup.sequencer.stateAt start n = .ok left) :
      Course start n (.ok records) left (records.flatMap setup.exchanges)
  | halted {records : List Record} {state left : State} {fault : Fault} {tail : List Exchange}
      (hlength : records.length < n) (hrecords : setup.Traces start records)
      (hstate : setup.sequencer.stateAt start records.length = .ok state)
      (hhalts : setup.Halts state fault left tail) :
      Course start n (.error fault) left (records.flatMap setup.exchanges ++ tail)

/-! ### One round -/

section Round

variable {setup} {state : State} {env env₁ env₂ env₃ : σ} {fault : Fault}

theorem observe_of_unturned (hangle : setup.angleAt state = .error fault) :
    setup.observe (state, env) = (.error fault, (state, env)) := by
  rw [observe]
  rcases Outcome.bind_eq_error_iff.mp hangle with hsecret | ⟨value, hsecret, hangle⟩
  · exact Action.bind_of_error _ (by rw [Sequencer.currentValue_run, hsecret])
  · rw [Action.bind_of_ok _ (by rw [Sequencer.currentValue_run, hsecret])]
    exact Action.bind_of_error _ (by rw [Action.ofExcept_run, hangle])

theorem observe_of_unanswered {theta : Double} (hangle : setup.angleAt state = .ok theta)
    (horacle : setup.oracle theta setup.encoding.shots env = (.error fault, env₁)) :
    setup.observe (state, env) = (.error fault, (state, env₁)) := by
  obtain ⟨value, hsecret, hangle⟩ := Outcome.bind_eq_ok_iff.mp hangle
  rw [observe, Action.bind_of_ok _ (by rw [Sequencer.currentValue_run, hsecret]),
    Action.bind_of_ok _ (by rw [Action.ofExcept_run, hangle])]
  exact Action.bind_of_error _ (Action.inSecond_run horacle state)

/-- Once the oracle has answered, only an answer that is no number is left to fail. -/
theorem observe_of_answered {value : Decimal} {theta : Double} {p1 : Value}
    (hsecret : state.inputs.secret = .ok value)
    (hangle : Angle.ofDecimal value setup.encoding.scale = .ok theta)
    (horacle : setup.oracle theta setup.encoding.shots env = (.ok p1, env₁)) :
    setup.observe (state, env)
      = (p1.toDouble.map fun share => ⟨state.t, value.text, theta, p1, 1 - share - share⟩,
        (state, env₁)) := by
  rw [observe, Action.bind_of_ok _ (by rw [Sequencer.currentValue_run, hsecret]),
    Action.bind_of_ok _ (by rw [Action.ofExcept_run, hangle]),
    Action.bind_of_ok _ (Action.inSecond_run horacle state),
    Action.bind_of_ok _ (Action.get_run _)]
  cases hshare : p1.toDouble with
  | error fault => exact Action.bind_of_error _ (by rw [Action.ofExcept_run])
  | ok share => exact Action.bind_of_ok _ (by rw [Action.ofExcept_run])

theorem advance_of_unobserved
    (hobserve : setup.observe (state, env) = (.error fault, (state, env₁))) :
    setup.advance (state, env) = (.error fault, (state, env₁)) :=
  Action.bind_of_error _ hobserve

theorem advance_of_untaken {record : Record}
    (hobserve : setup.observe (state, env) = (.ok record, (state, env₁)))
    (hsink : setup.sink record env₁ = (.error fault, env₂)) :
    setup.advance (state, env) = (.error fault, (state, env₂)) := by
  rw [advance, Action.bind_of_ok _ hobserve]
  exact Action.bind_of_error _ (Action.inSecond_run hsink state)

theorem advance_of_taken {record : Record} {outcome : Except Fault Decimal} {left : State}
    (hobserve : setup.observe (state, env) = (.ok record, (state, env₁)))
    (hsink : setup.sink record env₁ = (.ok (), env₂))
    (hstep : setup.sequencer.step (state, env₂) = (outcome, (left, env₃))) :
    setup.advance (state, env) = (outcome.map fun _ => record, (left, env₃)) := by
  rw [advance, Action.bind_of_ok _ hobserve, Action.bind_of_ok _ (Action.inSecond_run hsink state)]
  cases outcome with
  | error fault => exact Action.bind_of_error _ hstep
  | ok value => exact Action.bind_of_ok _ hstep

/-- From its record on, a round goes alike with a log and without. -/
theorem advance_of_observed_overheard {record : Record} (hrecord : setup.Depicts state record)
    (hobserve : setup.observe (state, env) = (.ok record, (state, env₁)))
    (hoverheard : ∀ log, setup.overheard.observe (state, (env, log))
      = (.ok record, (state, (env₁,
        log ++ [.asked record.theta setup.encoding.shots (.ok record.p1)])))) :
    ∃ outcome left env' more, setup.advance (state, env) = (outcome, (left, env'))
      ∧ (∀ log, setup.overheard.advance (state, (env, log))
        = (outcome, (left, (env', log ++ more))))
      ∧ setup.Round state outcome left more := by
  rcases hsink : setup.sink record env₁ with ⟨taken, env₂⟩
  have hhanded (log : List Exchange) : setup.overheard.sink record (env₁, log)
      = (taken, (env₂, log ++ [.handed record taken])) :=
    Action.noting_run hsink (Exchange.handed record) log
  cases taken with
  | error fault =>
      refine ⟨.error fault, state, env₂, _, advance_of_untaken hobserve hsink, fun log => ?_,
        .halted (.untaken hrecord)⟩
      rw [advance_of_untaken (hoverheard log) (hhanded _), List.append_assoc]
      rfl
  | ok done =>
      rcases hstep : setup.sequencer.step (state, env₂) with ⟨outcome, left, env₃⟩
      have hstepped := setup.sequencer.step_cases state env₂
      rw [hstep] at hstepped
      refine ⟨outcome.map fun _ => record, left, env₃, setup.exchanges record,
        advance_of_taken hobserve hsink hstep, fun log => ?_, ?_⟩
      · rw [advance_of_taken (hoverheard log) (hhanded _) (Sequencer.step_beside hstep _),
          List.append_assoc]
        rfl
      · cases outcome with
        | error fault => exact .halted (.unstepped hrecord hstepped)
        | ok value => exact .taken hrecord (Sequencer.next_of_stepped hstepped)

end Round

/-- **One round**, with a log and without. -/
theorem advance_round (state : State) (env : σ) :
    ∃ outcome left env' more, setup.advance (state, env) = (outcome, (left, env'))
      ∧ (∀ log, setup.overheard.advance (state, (env, log))
        = (outcome, (left, (env', log ++ more))))
      ∧ setup.Round state outcome left more := by
  cases hangle : setup.angleAt state with
  | error fault =>
      refine ⟨.error fault, state, env, [], advance_of_unobserved (observe_of_unturned hangle),
        fun log => ?_, .halted (.unturned hangle)⟩
      rw [List.append_nil]
      exact advance_of_unobserved (observe_of_unturned hangle)
  | ok theta =>
      rcases horacle : setup.oracle theta setup.encoding.shots env with ⟨answer, env₁⟩
      have hasked (log : List Exchange) :
          setup.overheard.oracle theta setup.overheard.encoding.shots (env, log)
            = (answer, (env₁, log ++ [.asked theta setup.encoding.shots answer])) :=
        Action.noting_run horacle (Exchange.asked theta setup.encoding.shots) log
      cases answer with
      | error fault =>
          exact ⟨.error fault, state, env₁, _,
            advance_of_unobserved (observe_of_unanswered hangle horacle),
            fun log => advance_of_unobserved (observe_of_unanswered hangle (hasked log)),
            .halted (.unanswered hangle)⟩
      | ok p1 =>
          obtain ⟨value, hsecret, hvalue⟩ := Outcome.bind_eq_ok_iff.mp hangle
          have hobserve := observe_of_answered hsecret hvalue horacle
          have hoverheard (log : List Exchange) :=
            @observe_of_answered _ setup.overheard _ _ _ _ _ _ hsecret hvalue (hasked log)
          cases hshare : p1.toDouble with
          | error fault =>
              rw [hshare] at hobserve hoverheard
              exact ⟨.error fault, state, env₁, _, advance_of_unobserved hobserve,
                fun log => advance_of_unobserved (hoverheard log),
                .halted (.unshared hangle hshare)⟩
          | ok share =>
              rw [hshare] at hobserve hoverheard
              have hrecord : setup.Depicts state
                  ⟨state.t, value.text, theta, p1, 1 - share - share⟩ :=
                ⟨rfl, ⟨value, hsecret, rfl, hvalue⟩, share, hshare, rfl⟩
              exact advance_of_observed_overheard hrecord hobserve hoverheard

/-! ### Many rounds -/

section Course

variable {setup} {start state left : State} {record : Record} {records : List Record}
  {log : List Exchange} {n : ℕ}

theorem traces_nil : setup.Traces start [] := by
  intro i record hrecord
  cases hrecord

theorem traces_cons (hrecord : setup.Depicts start record)
    (hnext : setup.sequencer.next start = .ok state) (hrecords : setup.Traces state records) :
    setup.Traces start (record :: records) := by
  intro i other hother
  cases i with
  | zero =>
      cases hother
      exact ⟨start, rfl, hrecord⟩
  | succ i =>
      rw [Sequencer.stateAt_succ_of_next hnext]
      exact hrecords i other hother

theorem traces_concat (hrecords : setup.Traces start records)
    (hstate : setup.sequencer.stateAt start records.length = .ok state)
    (hrecord : setup.Depicts state record) : setup.Traces start (records ++ [record]) := by
  intro i other hother
  rcases lt_or_ge i records.length with hlt | hge
  · rw [List.getElem?_append_left hlt] at hother
    exact hrecords i other hother
  · have hi := (List.getElem?_eq_some_iff.mp hother).1
    rw [List.length_append, List.length_singleton] at hi
    obtain rfl : i = records.length := by omega
    rw [List.getElem?_concat_length] at hother
    cases hother
    exact ⟨state, hstate, hrecord⟩

/-- What one more round in front does to a course. -/
theorem Course.cons {outcome : Except Fault (List Record)}
    (hcourse : setup.Course state n outcome left log) (hrecord : setup.Depicts start record)
    (hnext : setup.sequencer.next start = .ok state) :
    setup.Course start (n + 1) (outcome.map (record :: ·)) left
      (setup.exchanges record ++ log) := by
  cases hcourse with
  | complete hlength hrecords hleft =>
      refine .complete (by simp [hlength]) (traces_cons hrecord hnext hrecords) ?_
      rwa [Sequencer.stateAt_succ_of_next hnext]
  | halted hlength hrecords hstate hhalts =>
      rw [← List.append_assoc]
      refine .halted (by simpa using hlength) (traces_cons hrecord hnext hrecords) ?_ hhalts
      rwa [List.length_cons, Sequencer.stateAt_succ_of_next hnext]

theorem simulate_of_advance {τ : Type} {setup : Setup τ} {env env' last : State × τ}
    (hadvance : setup.advance env = (.ok record, env')) {outcome : Except Fault (List Record)}
    (hrest : setup.simulate n env' = (outcome, last)) :
    setup.simulate (n + 1) env = (outcome.map (record :: ·), last) := by
  rw [simulate, Action.bind_of_ok _ hadvance]
  cases outcome with
  | error fault => exact Action.bind_of_error _ hrest
  | ok records => exact Action.bind_of_ok _ hrest

/-- By induction on the number of rounds: the first one stops the series, or the others start where
it leads. -/
theorem simulate_course (n : ℕ) (start : State) (env : σ) :
    ∃ outcome left env' more, setup.simulate n (start, env) = (outcome, (left, env'))
      ∧ (∀ log, setup.overheard.simulate n (start, (env, log))
        = (outcome, (left, (env', log ++ more))))
      ∧ setup.Course start n outcome left more := by
  induction n generalizing start env with
  | zero =>
      refine ⟨.ok [], start, env, [], rfl, fun log => ?_, .complete rfl traces_nil rfl⟩
      rw [List.append_nil]
      rfl
  | succ n ih =>
      obtain ⟨first, middle, env₁, more, hadvance, hoverheard, hround⟩ :=
        setup.advance_round start env
      cases hround with
      | halted hhalts =>
          exact ⟨.error _, middle, env₁, more, Action.bind_of_error _ hadvance,
            fun log => Action.bind_of_error _ (hoverheard log),
            .halted (Nat.succ_pos n) traces_nil rfl hhalts⟩
      | taken hrecord hnext =>
          obtain ⟨outcome, left, env', rest, hrest, hrestOverheard, hcourse⟩ := ih middle env₁
          refine ⟨_, left, env', _, simulate_of_advance hadvance hrest, fun log => ?_,
            hcourse.cons hrecord hnext⟩
          rw [simulate_of_advance (hoverheard log) (hrestOverheard _), List.append_assoc]

theorem streamed_append (first second : List Exchange) :
    streamed (first ++ second) = streamed first ++ streamed second :=
  List.filterMap_append

theorem streamed_exchanges (records : List Record) :
    streamed (records.flatMap setup.exchanges) = records := by
  induction records with
  | nil => rfl
  | cons record records ih =>
      rw [List.flatMap_cons, streamed_append, ih]
      rfl

theorem Halts.streamed {fault : Fault} (hhalts : setup.Halts state fault left log) :
    streamed log = [] ∨ ∃ record, streamed log = [record] ∧ setup.Depicts state record := by
  cases hhalts with
  | unturned hangle => exact .inl rfl
  | unanswered hangle => exact .inl rfl
  | unshared hangle hshare => exact .inl rfl
  | untaken hrecord => exact .inr ⟨_, rfl, hrecord⟩
  | unstepped hrecord hstepped => exact .inr ⟨_, rfl, hrecord⟩

/-- The sink is handed the record of every state in turn, up to the one where the series stops. -/
theorem Course.streamed {outcome : Except Fault (List Record)}
    (hcourse : setup.Course start n outcome left log) :
    setup.Traces start (streamed log) ∧ (streamed log).length ≤ n := by
  cases hcourse with
  | complete hlength hrecords hleft =>
      rw [streamed_exchanges]
      exact ⟨hrecords, hlength.le⟩
  | halted hlength hrecords hstate hhalts =>
      rw [streamed_append, streamed_exchanges]
      rcases hhalts.streamed with htail | ⟨record, htail, hrecord⟩
      · rw [htail, List.append_nil]
        exact ⟨hrecords, hlength.le⟩
      · rw [htail]
        refine ⟨traces_concat hrecords hstate hrecord, ?_⟩
        rw [List.length_append]
        exact hlength

end Course

theorem run_of_toInt? {steps : Double} {n : ℕ} (hsteps : steps.toInt? = some (n : ℤ))
    (hsafe : n < 2 ^ 53) : setup.run (.number steps) = setup.simulate n := by
  have hmax : Double.maxSafe = 2 ^ 53 - 1 := rfl
  have hcount : IsCount 0 steps := by
    refine ⟨n, Option.filter_eq_some_iff.mpr ⟨hsteps, ?_⟩, Int.natCast_nonneg n⟩
    exact decide_eq_true (by omega)
  obtain ⟨m, hm, -, hrun, -⟩ := setup.run_counted hcount
  obtain rfl : m = n := by
    rw [hsteps, Option.some_inj] at hm
    omega
  exact hrun

/-- **The course of a series.** Whatever the oracle, the sink and the observer do, and whichever of
them fails, a series goes as it does with a log, and the log is that of full rounds and at most one
that stops. A record stands at the place of the log that its step counter says, so none is left out
and none comes twice. -/
theorem run_overheard {start : State} {t₀ n : ℕ} {steps : Double} (env : σ)
    (hcounter : start.t.toInt? = some (t₀ : ℤ)) (hsteps : steps.toInt? = some (n : ℤ))
    (hlast : t₀ + n < 2 ^ 53) :
    ∃ outcome left env' log,
      setup.run (.number steps) (start, env) = (outcome, (left, env'))
        ∧ setup.overheard.run (.number steps) (start, (env, []))
          = (outcome, (left, (env', log)))
        ∧ setup.Course start n outcome left log
        ∧ (∀ i state, i ≤ n → setup.sequencer.stateAt start i = .ok state →
          state.t.toInt? = some ((t₀ + i : ℕ) : ℤ))
        ∧ ∀ i record, (streamed log)[i]? = some record →
          record.t.toInt? = some ((t₀ + i : ℕ) : ℤ) := by
  obtain ⟨outcome, left, env', log, hrun, hoverheard, hcourse⟩ :=
    @simulate_course _ setup n start env
  rw [setup.run_of_toInt? hsteps (by omega), setup.overheard.run_of_toInt? hsteps (by omega)]
  refine ⟨outcome, left, env', log, hrun, hoverheard [], hcourse, fun i state hi hstate => ?_,
    fun i record hrecord => ?_⟩
  · exact Sequencer.counter_stateAt hcounter hstate (by omega)
  · obtain ⟨hrecords, hlength⟩ := hcourse.streamed
    obtain ⟨state, hstate, hdepicts⟩ := hrecords i record hrecord
    have hi : i < (streamed log).length := (List.getElem?_eq_some_iff.mp hrecord).1
    rw [hdepicts.counter]
    exact Sequencer.counter_stateAt hcounter hstate (by omega)

/-- Takes one unit of the block with every step, and commits the step that finds none. -/
def exhausting : Setup ℕ where
  sequencer := .unobserved (Rule.incrementCrc (.integer (-1))) .commitFirst
  encoding := ⟨.number 1, .number 100⟩
  oracle := (Oracle.sampled 1337).loose
  sink _ := pure ()

theorem exhausting_overheard :
    Sequencer.lastUnit.t.toInt? = some ((0 : ℕ) : ℤ) ∧ (3 : Double).toInt? = some ((3 : ℕ) : ℤ)
      ∧ ∃ outcome left calls log,
        exhausting.run (.number 3) (Sequencer.lastUnit, 0) = (outcome, (left, calls))
          ∧ exhausting.overheard.run (.number 3) (Sequencer.lastUnit, (0, []))
            = (outcome, (left, (calls, log)))
          ∧ exhausting.Course Sequencer.lastUnit 3 outcome left log := by
  have hzero : (0 : Double).toInt? = some ((0 : ℕ) : ℤ) := Double.toInt?_ofNat (by decide)
  have hthree : (3 : Double).toInt? = some ((3 : ℕ) : ℤ) := Double.toInt?_ofNat (by decide)
  obtain ⟨outcome, left, calls, log, hrun, hoverheard, hcourse, -⟩ :=
    @run_overheard _ exhausting Sequencer.lastUnit 0 3 3 0 hzero hthree (by decide)
  exact ⟨hzero, hthree, outcome, left, calls, log, hrun, hoverheard, hcourse⟩

end Setup

end AngleSeries
