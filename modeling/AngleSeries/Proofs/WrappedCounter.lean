import AngleSeries.Proofs.NearestWholes
import AngleSeries.Proofs.Outcomes
import AngleSeries.Rotation.Oracle
import Mathlib.Logic.Function.Iterate

/-!
# The counter behind the draws

The counter of a generator is a sum that is never reduced, and only its last thirty-two bits are
mixed into a draw. As long as the sum is a binary64 number the draws are those of a counter of
thirty-two bits. The constant that is added is odd, so soon after `2 ^ 53` there is a sum that is no
binary64 number; it is rounded to an even one, and its word is another.
-/

namespace AngleSeries

namespace Generator

/-- The exact sum that a counter stands for. -/
def sumAt (seed : UInt32) (n : ℕ) : ℕ :=
  seed.toNat + n * increment

/-- The state at draw number `n` of a generator that keeps its state in thirty-two bits. -/
def wordAt (seed : UInt32) (n : ℕ) : UInt32 :=
  UInt32.ofNat (sumAt seed n)

/-- Every sum up to draw number `n` is a binary64 number. -/
def Lossless (seed : UInt32) (n : ℕ) : Prop :=
  ∀ m ≤ n, sumAt seed m ≤ 2 ^ 53 ∨ sumAt seed m % 2 = 0

/-- How many of the draws from thirty-two bits of state lie below a probability. -/
def wrappedCount (seed : UInt32) (shots : ℕ) (probability : Double) : ℕ :=
  (List.range shots).countP fun k => (mix (wordAt seed (k + 1))).toNat < wordsBelow probability

variable {seed : UInt32} {n : ℕ}

theorem increment_eq : increment = 1831565813 := rfl

@[simp]
theorem sumAt_zero (seed : UInt32) : sumAt seed 0 = seed.toNat := by
  rw [sumAt, zero_mul, add_zero]

theorem sumAt_succ (seed : UInt32) (n : ℕ) : sumAt seed (n + 1) = sumAt seed n + increment := by
  rw [sumAt, sumAt, add_one_mul, add_assoc]

/-! ### Sums without loss -/

theorem Lossless.mono {m : ℕ} (hlossless : Lossless seed n) (hle : m ≤ n) : Lossless seed m :=
  fun k hk => hlossless k (hk.trans hle)

/-- After an even sum comes an odd one, so the first sum beyond `2 ^ 53` or the next one is the
last. -/
theorem Lossless.le (hlossless : Lossless seed n) : sumAt seed n ≤ 2 ^ 53 + increment := by
  have hincrement := increment_eq
  cases n with
  | zero =>
      have := seed.toNat_lt
      rw [sumAt_zero]
      omega
  | succ n =>
      have hbefore := hlossless n n.le_succ
      have hlast := hlossless (n + 1) le_rfl
      rw [sumAt_succ] at hlast ⊢
      omega

theorem Lossless.representable (hlossless : Lossless seed n) : Representable (sumAt seed n) := by
  rcases hlossless n le_rfl with hsmall | heven
  · have hrep : Representable (sumAt seed n * 2 ^ 0) := representable_scaled hsmall (by decide)
    rwa [pow_zero, mul_one] at hrep
  · have hbound := hlossless.le
    have hincrement := increment_eq
    obtain ⟨k, hk⟩ : ∃ k, sumAt seed n = k * 2 ^ 1 := ⟨sumAt seed n / 2, by omega⟩
    rw [hk] at hbound ⊢
    exact representable_scaled (by omega) (by decide)

theorem advance_of_representable {counter : ℕ} (hrep : Representable (counter + increment)) :
    advance counter = counter + increment := by
  rw [advance]
  split_ifs
  · rfl
  · exact Double.roundUnits_of_representable hrep

theorem counterAt_eq_sumAt (hlossless : Lossless seed n) : counterAt seed n = sumAt seed n := by
  induction n with
  | zero => rw [counterAt, sumAt_zero]
  | succ n ih =>
      have hrep := hlossless.representable
      rw [sumAt_succ] at hrep ⊢
      rw [counterAt, ih (hlossless.mono n.le_succ), advance_of_representable hrep]

/-! ### Sums with loss -/

theorem even_roundUnits {m : ℕ} (hm : 2 ^ 53 ≤ m) : Double.roundUnits m 1 % 2 = 0 := by
  have hlog : 53 ≤ m.log2 := (Nat.le_log2 (by omega)).mpr hm
  obtain ⟨k, hk⟩ : ∃ k, m.log2 - 52 = k + 1 := ⟨m.log2 - 53, by omega⟩
  rw [Double.roundUnits, Nat.div_one, hk, pow_succ, ← mul_assoc]
  exact Nat.mul_mod_left _ _

theorem le_advance (counter : ℕ) : min (counter + increment) (2 ^ 53) ≤ advance counter := by
  rw [advance]
  split_ifs with hsmall
  · exact min_le_left _ _
  · exact (min_le_right _ _).trans (Double.pow_le_roundUnits (not_lt.mp hsmall))

theorem even_advance {counter : ℕ} (hlarge : 2 ^ 53 ≤ counter + increment) :
    advance counter % 2 = 0 := by
  rw [advance, if_neg (not_lt.mpr hlarge)]
  exact even_roundUnits hlarge

/-- A counter may lag behind its sum, but only beyond `2 ^ 53`. -/
theorem le_counterAt (seed : UInt32) (n : ℕ) :
    min (sumAt seed n) (2 ^ 53) ≤ counterAt seed n := by
  induction n with
  | zero =>
      rw [counterAt, sumAt_zero]
      exact min_le_left _ _
  | succ n ih =>
      have hstep := le_advance (counterAt seed n)
      rw [counterAt, sumAt_succ]
      omega

theorem even_counterAt (hlarge : 2 ^ 53 < sumAt seed n) : counterAt seed n % 2 = 0 := by
  cases n with
  | zero =>
      have := seed.toNat_lt
      rw [sumAt_zero] at hlarge
      omega
  | succ n =>
      have hbefore := le_counterAt seed n
      rw [sumAt_succ] at hlarge
      rw [counterAt]
      exact even_advance (by omega)

theorem parity_of_word_eq {a b : ℕ} (heq : UInt32.ofNat a = UInt32.ofNat b) : a % 2 = b % 2 := by
  have hmod := congrArg UInt32.toNat heq
  rw [UInt32.toNat_ofNat', UInt32.toNat_ofNat'] at hmod
  omega

theorem word_ne_of_loss (hlarge : 2 ^ 53 < sumAt seed n) (hodd : sumAt seed n % 2 = 1) :
    UInt32.ofNat (counterAt seed n) ≠ wordAt seed n := by
  intro heq
  have hparity := parity_of_word_eq heq
  rw [even_counterAt hlarge, hodd] at hparity
  cases hparity

theorem words_eq_iff :
    (∀ m ≤ n, UInt32.ofNat (counterAt seed m) = wordAt seed m) ↔ Lossless seed n := by
  constructor
  · intro hwords m hm
    by_contra hloss
    rw [not_or, not_le] at hloss
    exact word_ne_of_loss hloss.1 (Nat.mod_two_ne_zero.mp hloss.2) (hwords m hm)
  · intro hlossless m hm
    rw [counterAt_eq_sumAt (hlossless.mono hm), wordAt]

/-- No seed loses anything in the first draws. -/
theorem lossless_of_le (seed : UInt32) (hn : n ≤ 4917756) : Lossless seed n := by
  intro m hm
  have := seed.toNat_lt
  rw [sumAt, increment_eq]
  exact .inl (by omega)

/-- Two sums in a row are beyond `2 ^ 53`, and one of them is odd. -/
theorem not_lossless_of_ge (seed : UInt32) (hn : 4917760 ≤ n) : ¬ Lossless seed n := by
  intro hlossless
  have hfirst := hlossless 4917759 (by omega)
  have hsecond := hlossless 4917760 hn
  rw [sumAt, increment_eq] at hfirst hsecond
  omega

/-! ### Counting draws -/

theorem counterAt_eq_iterate (seed : UInt32) (n : ℕ) :
    counterAt seed n = advance^[n] seed.toNat := by
  induction n with
  | zero => rfl
  | succ n ih => rw [counterAt, ih, Function.iterate_succ_apply']

theorem tally_eq (next : ℕ → ℕ) (test : ℕ → Bool) (count state passed : ℕ) :
    tally next test count state passed
      = passed + (List.range count).countP fun k => test (next^[k + 1] state) := by
  induction count generalizing state passed with
  | zero => rfl
  | succ count ih =>
      have hshift : (fun k => test (next^[k + 1] state)) ∘ Nat.succ
          = fun k => test (next^[k + 1] (next state)) := rfl
      rw [tally, ih, List.range_succ_eq_map, List.countP_cons, List.countP_map, hshift]
      change _ = passed + (_ + if test (next state) = true then 1 else 0)
      by_cases htest : test (next state) = true
      · rw [if_pos htest, if_pos htest]
        omega
      · rw [if_neg htest, if_neg htest]
        omega

theorem count_eq (seed : UInt32) (shots : ℕ) (probability : Double) :
    count seed shots probability = (List.range shots).countP fun k =>
      (draw (counterAt seed (k + 1))).toNat < wordsBelow probability := by
  simp only [count, tally_eq, Nat.zero_add, counterAt_eq_iterate]

theorem count_eq_wrappedCount (hlossless : Lossless seed n) (probability : Double) :
    count seed n probability = wrappedCount seed n probability := by
  rw [count_eq, wrappedCount]
  refine List.countP_congr fun k hk => ?_
  rw [draw, words_eq_iff.mpr hlossless (k + 1) (List.mem_range.mp hk)]

end Generator

namespace Oracle

/-- The estimate from the draws of a generator that keeps its state in thirty-two bits. -/
def wrappedEstimate (seed : UInt32) (shots : ℕ) (probability : Double) : Double :=
  Double.ofNat (Generator.wrappedCount seed shots probability) / Double.ofNat shots

theorem sampled_run (base : UInt32) (angle : Double) (call : ℕ) {shots : Value} {n : ℕ}
    (hshots : readShots shots = .ok n) :
    sampled base angle shots call
      = (.ok (estimate (Generator.shotSeed base (UInt32.ofNat call)) n (rotationProbability angle)),
        call + 1) := by
  rw [sampled, Action.bind_of_ok _ (by rw [hshots, Action.ofExcept_run]),
    Action.bind_of_ok _ (Action.get_run _)]
  rfl

end Oracle

namespace Generator

/-- **How long the counter stands for its word.** The words are those of thirty-two bits of state just
as long as no sum is lost, and so are the draws and what the sampled oracle makes of them. Every seed
comes to the first `4917756` draws without loss, and none beyond draw `4917759`. -/
theorem wrapped_iff_lossless (seed : UInt32) (n : ℕ) :
    ((∀ m ≤ n, UInt32.ofNat (counterAt seed m) = wordAt seed m) ↔ Lossless seed n)
      ∧ (Lossless seed n → (∀ m ≤ n, draw (counterAt seed m) = mix (wordAt seed m))
        ∧ ∀ (base : UInt32) (call : ℕ) (angle : Double) (shots : Value),
          shotSeed base (UInt32.ofNat call) = seed → Oracle.readShots shots = .ok n →
            Oracle.sampled base angle shots call
              = (.ok (Oracle.wrappedEstimate seed n (rotationProbability angle)), call + 1))
      ∧ (n ≤ 4917756 → Lossless seed n)
      ∧ (4917760 ≤ n → ¬ Lossless seed n) := by
  refine ⟨words_eq_iff, fun hlossless => ⟨fun m hm => ?_, ?_⟩, lossless_of_le seed,
    not_lossless_of_ge seed⟩
  · rw [draw, words_eq_iff.mpr hlossless m hm]
  · rintro base call angle shots rfl hshots
    rw [Oracle.sampled_run base angle call hshots, Oracle.estimate,
      count_eq_wrappedCount hlossless, Oracle.wrappedEstimate]

/-- The usual number of shots is far from any loss. -/
theorem wrapped_usual :
    Lossless (shotSeed 1337 0) 2000
      ∧ Oracle.sampled 1337 (.ofInt 1) (.number 2000) 0
        = (.ok (Oracle.wrappedEstimate (shotSeed 1337 0) 2000 (rotationProbability (.ofInt 1))),
          1) := by
  have hshots : Oracle.readShots (.number 2000) = .ok 2000 := by
    have hsafe : (2000 : Double).toSafeInt? = some 2000 := by decide +kernel
    simp only [Oracle.readShots, Value.number?, Option.bind_some, hsafe]
    rfl
  obtain ⟨-, hwrapped, hfirst, -⟩ := wrapped_iff_lossless (shotSeed 1337 0) 2000
  have hlossless := hfirst (by decide)
  exact ⟨hlossless, (hwrapped hlossless).2 1337 0 (.ofInt 1) (.number 2000) rfl hshots⟩

/-- The seed of the first call with the usual base. -/
def straying : UInt32 := 634134675

theorem sumAt_straying (n : ℕ) : sumAt straying n = 634134675 + n * 1831565813 := rfl

theorem lossless_straying : Lossless straying 4917759 := by
  intro m hm
  rw [sumAt_straying]
  omega

theorem counterAt_straying : counterAt straying (4917759 + 1) = 9007201726673556 := by
  rw [counterAt, counterAt_eq_sumAt lossless_straying, sumAt_straying]
  decide +kernel

/-- The sum `9007201726673555` is odd and rounded up, and draw number `4917760` is another one. -/
theorem not_draws_wrapped :
    shotSeed 1337 0 = straying
      ∧ ¬ ∀ (seed : UInt32) (n : ℕ), 1 ≤ n → draw (counterAt seed n) = mix (wordAt seed n) := by
  refine ⟨by decide +kernel, fun hall => ?_⟩
  have hdraw := hall straying (4917759 + 1) (by decide)
  rw [counterAt_straying, wordAt, sumAt_straying] at hdraw
  have hne : draw 9007201726673556
      ≠ mix (UInt32.ofNat (634134675 + (4917759 + 1) * 1831565813)) := by decide +kernel
  exact hne hdraw

end Generator

end AngleSeries
