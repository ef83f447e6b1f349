import AngleSeries.Proofs.CompletedRuns
import AngleSeries.Proofs.DrawsAsNumbers

/-!
# Sessions with the sampled oracle

An oracle is asked again and again, and between two calls it keeps only the number of calls that it
has accepted. That number and the seed decide the draws of a call, so its answer depends on how many
calls were accepted before it, and neither on what they asked nor on the refused ones among them.
-/

namespace AngleSeries.Oracle

/-- A call with an angle and a count of shots. -/
structure Call where
  angle : Double
  shots : Double
  deriving DecidableEq

/-- Calls of an oracle, one after another. -/
def session {σ : Type} (oracle : Oracle σ) : List Call → σ → List (Except Fault Double) × σ
  | [], env => ([], env)
  | call :: calls, env =>
    let first := oracle call.angle (.number call.shots) env
    let rest := session oracle calls first.2
    (first.1 :: rest.1, rest.2)

namespace Call

/-- The count of shots is a positive safe integer. -/
def accepted (call : Call) : Bool :=
  call.shots.toSafeInt?.any (0 < ·)

/-- The share of the draws that lie below the probability, for a call with its number among the
accepted ones. -/
def share (base : UInt32) (number : ℕ) (call : Call) : Double :=
  let draws := Generator.drawAt (Generator.shotSeed base (UInt32.ofNat number))
  let below := (List.range call.shots.naturalsBelow).countP fun k =>
    (draws (k + 1)).lt (rotationProbability call.angle)
  Double.ofNat below / call.shots

def answer (base : UInt32) (number : ℕ) (call : Call) : Except Fault Double :=
  if call.accepted then .ok (call.share base number)
  else .error (.range (.shots call.shots.text))

variable {call : Call}

theorem accepted_iff : call.accepted = true ↔ IsCount 1 call.shots := by
  rw [accepted, Option.any_eq_true, IsCount]
  simp only [decide_eq_true_eq]
  exact Iff.rfl

end Call

/-! ### One call -/

section Step

variable {call : Call}

theorem readShots_of_rejected (hrejected : call.accepted = false) :
    readShots (.number call.shots) = .error (.range (.shots call.shots.text)) := by
  rw [Call.accepted] at hrejected
  simp only [readShots, Value.number?, Option.bind_some]
  split
  case h_1 n hn =>
    rw [hn] at hrejected
    have hle : n ≤ 0 := by simpa using hrejected
    rw [if_pos hle]
    rfl
  case h_2 => rfl

theorem readShots_of_accepted (haccepted : call.accepted = true) :
    ∃ n : ℕ, 0 < n ∧ n ≤ 2 ^ 53 ∧ call.shots.toInt? = some (n : ℤ)
      ∧ readShots (.number call.shots) = .ok n := by
  obtain ⟨n, hread⟩ := exists_readShots (Call.accepted_iff.mp haccepted)
  obtain ⟨hpos, hmax, hshots⟩ := count_of_readShots hread
  exact ⟨n, hpos, hmax, hshots, hread⟩

/-- An accepted call is answered with its share of draws. -/
theorem estimate_eq_share (base : UInt32) (number : ℕ) {n : ℕ} (hpos : 0 < n) (hmax : n ≤ 2 ^ 53)
    (hshots : call.shots.toInt? = some (n : ℤ)) :
    estimate (Generator.shotSeed base (UInt32.ofNat number)) n
      (rotationProbability call.angle) = call.share base number := by
  have hofNat : call.shots = Double.ofNat n :=
    Double.eq_of_toInt?_eq hshots (Double.toInt?_ofInt hmax) (by omega)
  rw [estimate, Generator.count_eq_draws, Call.share, Double.naturalsBelow_of_toInt? hshots,
    hofNat]

/-- What one call does to the number of accepted calls, and what it is answered. -/
theorem sampled_step (base : UInt32) (call : Call) (number : ℕ) :
    sampled base call.angle (.number call.shots) number
      = (call.answer base number, number + if call.accepted = true then 1 else 0) := by
  cases haccepted : call.accepted with
  | false =>
      rw [sampled, Action.bind_of_error _
        (by rw [readShots_of_rejected haccepted, Action.ofExcept_run]), Call.answer, haccepted]
      rfl
  | true =>
      obtain ⟨n, hpos, hmax, hshots, hread⟩ := readShots_of_accepted haccepted
      rw [sampled_run _ _ _ hread, estimate_eq_share base number hpos hmax hshots, Call.answer,
        haccepted]
      rfl

theorem refuses_iff (base : UInt32) (call : Call) (number : ℕ) :
    (∃ fault, (sampled base call.angle (.number call.shots) number).1 = .error (.range fault))
      ↔ ¬ IsCount 1 call.shots := by
  rw [sampled_step, Call.answer, ← Call.accepted_iff]
  cases call.accepted <;> simp

/-- A refused call changes nothing. -/
theorem sampled_of_refused (base : UInt32) {call : Call} (number : ℕ)
    (hrefused : ¬ IsCount 1 call.shots) :
    sampled base call.angle (.number call.shots) number
      = (.error (.range (.shots call.shots.text)), number) := by
  rw [← Call.accepted_iff, Bool.not_eq_true] at hrefused
  rw [sampled_step, Call.answer, hrefused]
  rfl

end Step

/-! ### Many calls -/

theorem session_cons {σ : Type} (oracle : Oracle σ) (call : Call) (calls : List Call) (env : σ) :
    session oracle (call :: calls) env
      = ((oracle call.angle (.number call.shots) env).1
          :: (session oracle calls (oracle call.angle (.number call.shots) env).2).1,
        (session oracle calls (oracle call.angle (.number call.shots) env).2).2) := rfl

theorem length_session {σ : Type} (oracle : Oracle σ) (calls : List Call) (env : σ) :
    (session oracle calls env).1.length = calls.length := by
  induction calls generalizing env with
  | nil => rfl
  | cons call calls ih => rw [session_cons, List.length_cons, List.length_cons, ih]

theorem session_append {σ : Type} (oracle : Oracle σ) (before after : List Call) (env : σ) :
    session oracle (before ++ after) env
      = ((session oracle before env).1 ++ (session oracle after (session oracle before env).2).1,
        (session oracle after (session oracle before env).2).2) := by
  induction before generalizing env with
  | nil => rfl
  | cons call before ih => rw [List.cons_append, session_cons, session_cons, ih, List.cons_append]

/-- What is answered after some calls is answered from what they left behind. -/
theorem drop_session_append {σ : Type} (oracle : Oracle σ) (before after : List Call) (env : σ) :
    (session oracle (before ++ after) env).1.drop before.length
      = (session oracle after (session oracle before env).2).1 := by
  rw [session_append, ← length_session oracle before env, List.drop_left]

section Runs

variable (base : UInt32)

/-- The number of a call is the number of calls accepted before it. -/
theorem session_sampled_eq (calls : List Call) (number : ℕ) :
    session (sampled base) calls number
      = (calls.mapIdx fun i call =>
          call.answer base (number + (calls.take i).countP Call.accepted),
        number + calls.countP Call.accepted) := by
  induction calls generalizing number with
  | nil => rfl
  | cons call calls ih =>
      have hcount (rest : List Call) : number + (call :: rest).countP Call.accepted
          = number + (if call.accepted = true then 1 else 0) + rest.countP Call.accepted := by
        rw [List.countP_cons]
        omega
      rw [session_cons, sampled_step, ih, List.mapIdx_cons, hcount]
      simp only [List.take_succ_cons, hcount, List.take_zero, List.countP_nil, Nat.add_zero]

/-- The answers that are no refusals are those to the accepted calls, as if there were no others. -/
theorem filterMap_session_sampled (calls : List Call) (number : ℕ) :
    (session (sampled base) calls number).1.filterMap Except.toOption
      = (calls.filter Call.accepted).mapIdx fun i call => call.share base (number + i) := by
  induction calls generalizing number with
  | nil => rfl
  | cons call calls ih =>
      rw [session_cons, sampled_step]
      cases haccepted : call.accepted with
      | false =>
          rw [List.filter_cons_of_neg (by simp [haccepted]), ← ih, Call.answer, haccepted]
          rfl
      | true =>
          have hshift (i : ℕ) : number + 1 + i = number + (i + 1) := by omega
          rw [List.filter_cons_of_pos haccepted, List.mapIdx_cons, Call.answer, haccepted, if_pos rfl,
            if_pos rfl]
          change call.share base number :: _ = _
          rw [ih]
          simp only [hshift, Nat.add_zero]

end Runs

/-! ### The sampled oracle -/

/-- The answers of a session that are no refusals. -/
def estimates {σ : Type} (oracle : Oracle σ) (calls : List Call) (env : σ) : List Double :=
  (session oracle calls env).1.filterMap Except.toOption

theorem estimates_sampled (base : UInt32) (calls : List Call) :
    estimates (sampled base) calls 0
      = (calls.filter Call.accepted).mapIdx fun i call => call.share base i := by
  rw [estimates, filterMap_session_sampled]
  simp only [Nat.zero_add]

theorem sampledBy_number (seed : Double) : sampledBy (.number seed) = sampled seed.toWord := rfl

/-- **Sessions with the sampled oracle.** A call is refused just if its count of shots is no positive
safe integer, and then nothing changes. Any other call is answered with its share of the draws that
belong to the number of calls accepted before. So refused calls can be left out, what came before a
call does not matter beyond that number, and whoever makes the same accepted calls with the same seed
gets the same answers. -/
theorem session_sampled (seed : Double) :
    (∀ (call : Call) (number : ℕ),
        ((∃ fault, (sampledBy (.number seed) call.angle (.number call.shots) number).1
            = .error (.range fault)) ↔ ¬ IsCount 1 call.shots)
        ∧ (¬ IsCount 1 call.shots →
          sampledBy (.number seed) call.angle (.number call.shots) number
            = (.error (.range (.shots call.shots.text)), number)))
      ∧ (∀ calls, session (sampledBy (.number seed)) calls 0
          = (calls.mapIdx fun i call =>
              call.answer seed.toWord ((calls.take i).countP Call.accepted),
            calls.countP Call.accepted))
      ∧ (∀ calls, estimates (sampledBy (.number seed)) calls 0
          = (calls.filter Call.accepted).mapIdx fun i call => call.share seed.toWord i)
      ∧ (∀ calls, estimates (sampledBy (.number seed)) (calls.filter Call.accepted) 0
          = estimates (sampledBy (.number seed)) calls 0)
      ∧ (∀ before before' after,
          before.countP Call.accepted = before'.countP Call.accepted →
            (session (sampledBy (.number seed)) (before ++ after) 0).1.drop before.length
              = (session (sampledBy (.number seed)) (before' ++ after) 0).1.drop before'.length)
      ∧ (∀ (seed' : Double) (calls calls' : List Call), seed'.toWord = seed.toWord →
          calls'.filter Call.accepted = calls.filter Call.accepted →
            estimates (sampledBy (.number seed')) calls' 0
              = estimates (sampledBy (.number seed)) calls 0) := by
  simp only [sampledBy_number]
  refine ⟨fun call number => ⟨refuses_iff _ call number, sampled_of_refused _ number⟩,
    fun calls => ?_, estimates_sampled _, fun calls => ?_, fun before before' after hcount => ?_,
    fun seed' calls calls' hseed hsame => ?_⟩
  · rw [session_sampled_eq]
    simp only [Nat.zero_add]
  · rw [estimates_sampled, estimates_sampled, List.filter_filter]
    simp only [Bool.and_self]
  · rw [drop_session_append, drop_session_append, session_sampled_eq _ before,
      session_sampled_eq _ before', hcount]
  · rw [hseed, estimates_sampled, estimates_sampled, hsame]

/-- Two refused calls between accepted ones, and a seed that has the same word. -/
theorem session_sampled_skips :
    [⟨0, 500⟩, ⟨1, 5 / 2⟩, ⟨1, 0⟩, ⟨2, 300⟩].filter Call.accepted = [⟨0, 500⟩, ⟨2, 300⟩]
      ∧ estimates (sampledBy (.number 4294968633)) [⟨0, 500⟩, ⟨2, 300⟩] 0
        = estimates (sampledBy (.number 1337)) [⟨0, 500⟩, ⟨1, 5 / 2⟩, ⟨1, 0⟩, ⟨2, 300⟩] 0 := by
  have hleft : [⟨0, 500⟩, ⟨1, 5 / 2⟩, ⟨1, 0⟩, ⟨2, 300⟩].filter Call.accepted
      = [⟨0, 500⟩, ⟨2, 300⟩] := by decide +kernel
  have hword : (4294968633 : Double).toWord = (1337 : Double).toWord := by decide +kernel
  refine ⟨hleft, (session_sampled 1337).2.2.2.2.2 4294968633 _ _ hword ?_⟩
  rw [hleft]
  decide +kernel

end AngleSeries.Oracle
