import AngleSeries.Proofs.ExactValues
import AngleSeries.Proofs.WrappedCounter

/-!
# Draws as numbers

The counter of a generator is a binary64 number to which the increment is added, and a draw is the
word mixed from it, divided by `2 ^ 32`. A draw is a multiple of that fraction and less than one, so
to count the draws below a probability is to compare words with a whole number. More draws lie below
a greater probability, none below zero and all of them below one, and the estimate made of the count
keeps this.
-/

namespace AngleSeries

namespace Double

/-- What has fifty-three binary digits or more is rounded alike at every scale. -/
theorem roundUnits_mul_pow {m : ℕ} (hm : 2 ^ 52 ≤ m) (e : ℕ) :
    roundUnits (m * 2 ^ e) 1 = roundUnits m 1 * 2 ^ e := by
  have hne : m ≠ 0 := by omega
  have hlow : 52 ≤ m.log2 := (Nat.le_log2 hne).mpr hm
  have hstep : 2 ^ (m.log2 + e - 52) = 2 ^ (m.log2 - 52) * 2 ^ e := by
    rw [← pow_add]
    congr 1
    omega
  rw [roundUnits, roundUnits, Nat.div_one, Nat.div_one, log2_mul_pow hne, hstep, one_mul, one_mul,
    roundHalfEven_mul_right _ _ (Nat.two_pow_pos e), mul_assoc]

theorem toInt?_ofUnits {n : ℕ} (hrep : Representable (n * unitsPerOne)) :
    (ofUnits false (n * unitsPerOne)).toInt? = some (n : ℤ) := by
  rw [ofUnits, dif_pos hrep]
  simp only [toInt?, Nat.mul_mod_left, if_true, Nat.mul_div_cancel _ unitsPerOne_pos,
    Bool.false_eq_true, if_false]

theorem toWord_of_toInt? {x : Double} {n : ℕ} (hx : x.toInt? = some (n : ℤ)) :
    x.toWord = UInt32.ofNat n := by
  cases x with
  | nan => cases hx
  | infinite _ => cases hx
  | finite negative units h =>
      rw [toInt?] at hx
      split at hx
      case isFalse => cases hx
      case isTrue =>
        have hmod : ((n : ℤ) % 2 ^ (32 : ℕ)).toNat = n % 2 ^ 32 := by omega
        rw [toWord]
        dsimp only at hx ⊢
        rw [Option.some.inj hx, hmod]
        exact UInt32.toNat_inj.mp (by rw [UInt32.toNat_ofNat', UInt32.toNat_ofNat', Nat.mod_mod])

/-- The binary logarithm of the least positive draw, in units. -/
def wordBits : ℕ := 1042

/-- The units of the least positive draw. -/
def wordUnits : ℕ := 2 ^ wordBits

theorem wordUnits_pos : 0 < wordUnits := Nat.two_pow_pos wordBits

theorem unitsPerOne_eq_wordUnits : unitsPerOne = wordUnits * 2 ^ 32 := by
  rw [wordUnits, ← pow_add, unitsPerOne]
  congr 1

/-- A word over `2 ^ 32` is a number. -/
theorem ofNat_div_pow {w : ℕ} (hw : w ≤ 2 ^ 53) :
    ∃ h, ofNat w / ofNat (2 ^ 32) = finite false (w * wordUnits) h := by
  have hrep : Representable (w * wordUnits) := representable_scaled hw (by decide)
  refine ⟨hrep, ?_⟩
  rw [ofNat_div_ofNat hw (by decide) (by decide), unitsPerOne_eq_wordUnits, ← mul_assoc, ofQuotient,
    roundUnits_of_mul hrep (by decide), ofUnits, dif_pos hrep]

/-- A word over `2 ^ 32` lies below a probability just as it is one of the words below. -/
theorem lt_iff_wordsBelow {w : ℕ} (hw : w < 2 ^ 32) (probability : Double) :
    (ofNat w / ofNat (2 ^ 32)).lt probability = true ↔ w < Generator.wordsBelow probability := by
  obtain ⟨h, hdraw⟩ := ofNat_div_pow (w := w) (by omega)
  rw [hdraw]
  cases probability with
  | nan => simp [lt, Generator.wordsBelow]
  | infinite negative =>
      cases negative with
      | true => simp [lt, Generator.wordsBelow]
      | false => exact iff_of_true rfl hw
  | finite negative units hunits =>
      cases negative with
      | true =>
          simp only [lt, Generator.wordsBelow, Bool.false_eq_true, if_false, if_true, decide_eq_true_eq]
          omega
      | false =>
          have hone := unitsPerOne_pos
          simp only [lt, Generator.wordsBelow, Bool.false_eq_true, if_false, decide_eq_true_eq,
            Int.ofNat_lt]
          calc w * wordUnits < units ↔ w * wordUnits * 2 ^ 32 < units * 2 ^ 32 :=
                (Nat.mul_lt_mul_right (by decide)).symm
            _ ↔ w * unitsPerOne < units * 2 ^ 32 := by rw [mul_assoc, unitsPerOne_eq_wordUnits]
            _ ↔ w + 1 ≤ (units * 2 ^ 32 + (unitsPerOne - 1)) / unitsPerOne := by
                rw [Nat.le_div_iff_mul_le hone, add_one_mul]
                omega

end Double

namespace Generator

open Double

/-- The number that is counted on, with the sums of numbers. -/
def stateAt (seed : UInt32) : ℕ → Double
  | 0 => Double.ofNat seed.toNat
  | n + 1 => stateAt seed n + Double.ofNat increment

/-- Draw number `n` as a number: the word mixed from the state, over `2 ^ 32`. -/
def drawAt (seed : UInt32) (n : ℕ) : Double :=
  Double.ofNat (mix (stateAt seed n).toWord).toNat / Double.ofNat (2 ^ 32)

variable (seed : UInt32)

/-! ### The state -/

/-- At `2 ^ 84` the increment is lost in rounding. -/
theorem advance_le {counter : ℕ} (hle : counter ≤ 2 ^ 84) : advance counter ≤ 2 ^ 84 := by
  rw [advance]
  split_ifs with hsmall
  · exact hsmall.le.trans (by decide)
  · have hstays : roundUnits (2 ^ 84 + increment) 1 = 2 ^ 84 := by decide +kernel
    rw [← hstays]
    exact roundUnits_mono Nat.one_pos (Nat.add_le_add_right hle increment)

theorem counterAt_le (n : ℕ) : counterAt seed n ≤ 2 ^ 84 := by
  induction n with
  | zero => exact seed.toNat_lt.le.trans (by decide)
  | succ n ih => exact advance_le ih

/-- A counter is advanced as numbers are added. -/
theorem toInt?_advance {counter : ℕ} (hle : counter ≤ 2 ^ 84) :
    (Double.ofInt ((counter + increment : ℕ) : ℤ)).toInt? = some (advance counter : ℤ) := by
  rw [advance]
  split_ifs with hsmall
  · exact toInt?_ofInt hsmall.le
  · have hround : roundUnits ((counter + increment) * unitsPerOne) 1
        = roundUnits (counter + increment) 1 * unitsPerOne :=
      roundUnits_mul_pow (le_trans (by decide) (not_lt.mp hsmall)) oneBits
    have hbound : roundUnits (counter + increment) 1 ≤ 2 ^ 84 := by
      have hadvance := advance_le hle
      rwa [advance, if_neg hsmall] at hadvance
    have hrep : Representable (roundUnits ((counter + increment) * unitsPerOne) 1) := by
      refine representable_roundUnits Nat.one_pos ?_
      rw [hround]
      calc roundUnits (counter + increment) 1 * unitsPerOne ≤ 2 ^ 84 * unitsPerOne :=
            Nat.mul_le_mul_right _ hbound
        _ = 2 ^ (84 + oneBits) := by rw [unitsPerOne, pow_add]
        _ < unitsLimit := Nat.pow_lt_pow_right (by decide) (by decide)
    rw [hround] at hrep
    have hsign : decide (((counter + increment : ℕ) : ℤ) < 0) = false := by
      rw [decide_eq_false_iff_not]
      omega
    rw [Double.ofInt, ofQuotient, Int.natAbs_natCast, hround, hsign]
    exact toInt?_ofUnits hrep

/-- The state is the counter, however long the generator runs. -/
theorem toInt?_stateAt (n : ℕ) : (stateAt seed n).toInt? = some (counterAt seed n : ℤ) := by
  induction n with
  | zero => exact toInt?_ofInt (seed.toNat_lt.le.trans (by decide))
  | succ n ih =>
      have hincrement : (Double.ofNat increment).toInt? = some (increment : ℤ) :=
        toInt?_ofInt (by decide)
      have hpos : 0 < increment := by decide
      rw [stateAt, add_eq_ofInt ih hincrement (by omega), counterAt]
      exact toInt?_advance (counterAt_le seed n)

theorem drawAt_eq (n : ℕ) :
    drawAt seed n = Double.ofNat (draw (counterAt seed n)).toNat / Double.ofNat (2 ^ 32) := by
  rw [drawAt, toWord_of_toInt? (toInt?_stateAt seed n), draw]

/-! ### Draws and counts -/

/-- A multiple of `2 ^ -32` that is not negative and less than one. -/
def IsWordShare (x : Double) : Prop :=
  x.isFinite = true ∧ ∃ word : ℕ, word < 2 ^ 32 ∧ x.toRat = (word : ℚ) / 2 ^ 32

theorem isWordShare_drawAt (n : ℕ) : IsWordShare (drawAt seed n) := by
  have hword := (draw (counterAt seed n)).toNat_lt
  obtain ⟨h, hdraw⟩ := ofNat_div_pow (hword.le.trans (by decide))
  rw [drawAt_eq, hdraw]
  refine ⟨rfl, _, hword, ?_⟩
  have hunit : (wordUnits : ℚ) ≠ 0 := Nat.cast_ne_zero.mpr wordUnits_pos.ne'
  rw [toRat_finite, unitsPerOne_eq_wordUnits, if_neg Bool.false_ne_true, Int.cast_natCast,
    Nat.cast_mul, Nat.cast_mul, mul_comm (wordUnits : ℚ), mul_div_mul_right _ _ hunit]
  norm_num

variable {seed} {x : Double}

theorem IsWordShare.nonneg (hx : IsWordShare x) : 0 ≤ x.toRat := by
  obtain ⟨-, word, -, hrat⟩ := hx
  rw [hrat]
  positivity

theorem IsWordShare.lt_one (hx : IsWordShare x) : x.toRat < 1 := by
  obtain ⟨-, word, hword, hrat⟩ := hx
  rw [hrat, div_lt_one (by positivity)]
  exact_mod_cast hword

variable (seed)

/-- To compare words with the words below a probability is to compare draws with it. -/
theorem count_eq_draws (shots : ℕ) (probability : Double) :
    count seed shots probability
      = (List.range shots).countP fun k => (drawAt seed (k + 1)).lt probability := by
  rw [count_eq]
  refine List.countP_congr fun k _ => ?_
  rw [drawAt_eq, lt_iff_wordsBelow (UInt32.toNat_lt _), decide_eq_true_iff]

variable {shots : ℕ} {p q : Double}

theorem count_mono (hp : p.isFinite = true) (hq : q.isFinite = true) (hle : p.toRat ≤ q.toRat) :
    count seed shots p ≤ count seed shots q := by
  rw [count_eq_draws, count_eq_draws]
  refine List.countP_mono_left fun k _ hbelow => ?_
  have hdraw := (isWordShare_drawAt seed (k + 1)).1
  rw [lt_iff_toRat hdraw hp] at hbelow
  rw [lt_iff_toRat hdraw hq]
  exact hbelow.trans_le hle

theorem count_eq_zero (hp : p.isFinite = true) (hle : p.toRat ≤ 0) : count seed shots p = 0 := by
  rw [count_eq_draws, List.countP_eq_zero]
  intro k _ hbelow
  have hdraw := isWordShare_drawAt seed (k + 1)
  rw [lt_iff_toRat hdraw.1 hp] at hbelow
  exact absurd (hbelow.trans_le hle) hdraw.nonneg.not_gt

theorem count_eq_shots (hp : p.isFinite = true) (hge : 1 ≤ p.toRat) :
    count seed shots p = shots := by
  have hall : ∀ k ∈ List.range shots, (drawAt seed (k + 1)).lt p = true := by
    intro k _
    have hdraw := isWordShare_drawAt seed (k + 1)
    rw [lt_iff_toRat hdraw.1 hp]
    exact hdraw.lt_one.trans_le hge
  rw [count_eq_draws, List.countP_eq_length.mpr hall, List.length_range]

end Generator

/-! ### Estimates -/

namespace Double

section Shares

variable {m n d : ℕ}

/-- A share is the nearest number of its quotient. -/
theorem toRat_share (hpos : 0 < d) (hmax : d ≤ 2 ^ 53) (hle : n ≤ d) :
    (ofNat n / ofNat d).toRat = (roundUnits (n * unitsPerOne) d : ℚ) / (unitsPerOne : ℚ) := by
  have hunits : roundUnits (n * unitsPerOne) d ≤ unitsPerOne := by
    refine roundUnits_le representable_one hpos ?_
    rw [mul_comm]
    exact Nat.mul_le_mul_left unitsPerOne hle
  rw [ofNat_div_ofNat (hle.trans hmax) hmax hpos,
    toRat_ofQuotient (representable_roundUnits hpos (hunits.trans_lt representable_one.2))]

theorem toRat_share_mono (hpos : 0 < d) (hmax : d ≤ 2 ^ 53) (hle : m ≤ n) (hn : n ≤ d) :
    (ofNat m / ofNat d).toRat ≤ (ofNat n / ofNat d).toRat := by
  rw [toRat_share hpos hmax (hle.trans hn), toRat_share hpos hmax hn,
    div_le_div_iff_of_pos_right unitsPerOne_pos_rat, Nat.cast_le]
  exact roundUnits_mono hpos (Nat.mul_le_mul_right unitsPerOne hle)

theorem zero_share (hpos : 0 < d) (hmax : d ≤ 2 ^ 53) : ofNat 0 / ofNat d = 0 := by
  have hround : roundUnits (0 * d) d = 0 := roundUnits_of_mul representable_zero hpos
  rw [zero_mul] at hround
  rw [ofNat_div_ofNat (by decide) hmax hpos, zero_mul, ofQuotient, hround, zero_eq_signedZero,
    ofUnits, dif_pos representable_zero, signedZero]

theorem whole_share (hpos : 0 < d) (hmax : d ≤ 2 ^ 53) : ofNat d / ofNat d = 1 := by
  rw [ofNat_div_ofNat hmax hmax hpos, mul_comm, ofQuotient,
    roundUnits_of_mul representable_one hpos, ofUnits, dif_pos representable_one]
  change _ = ofNat 1
  rw [ofNat_eq_finite (by decide)]
  simp

end Shares

end Double

namespace Generator

open Double

/-- **More draws lie below a greater probability.** Every draw is a multiple of `2 ^ -32` in `[0, 1)`,
and a call of the sampled oracle answers with the share of draws below its probability. The count
grows with the probability from none at zero to all shots at one, and so does the share; at either
end it is exact. -/
theorem count_monotone (base : UInt32) (call : ℕ) {shots : ℕ} (hpos : 1 ≤ shots) {p q : Double}
    (hp : p.isFinite = true) (hq : q.isFinite = true) (hle : p.toRat ≤ q.toRat) :
    let seed := shotSeed base (UInt32.ofNat call)
    (∀ n, IsWordShare (drawAt seed n))
      ∧ (∀ r, count seed shots r
          = (List.range shots).countP fun k => (drawAt seed (k + 1)).lt r)
      ∧ (∀ angle given, Oracle.readShots given = .ok shots →
          Oracle.sampled base angle given call
            = (.ok (Double.ofNat (count seed shots (rotationProbability angle))
                / Double.ofNat shots), call + 1))
      ∧ (count seed shots p ≤ count seed shots q ∧ count seed shots q ≤ shots)
      ∧ (p.toRat ≤ 0 → count seed shots p = 0)
      ∧ (1 ≤ p.toRat → count seed shots p = shots)
      ∧ (shots ≤ 2 ^ 53 →
          (Oracle.estimate seed shots p).toRat ≤ (Oracle.estimate seed shots q).toRat
            ∧ (p.toRat ≤ 0 → Oracle.estimate seed shots p = 0)
            ∧ (1 ≤ p.toRat → Oracle.estimate seed shots p = 1)) := by
  intro seed
  have hmono : count seed shots p ≤ count seed shots q := count_mono seed hp hq hle
  have hbound : count seed shots q ≤ shots := count_le seed shots q
  refine ⟨isWordShare_drawAt seed, count_eq_draws seed shots, ?_, ⟨hmono, hbound⟩,
    count_eq_zero seed hp, count_eq_shots seed hp, fun hmax => ⟨?_, ?_, ?_⟩⟩
  · intro angle given hgiven
    exact Oracle.sampled_run base angle call hgiven
  · exact toRat_share_mono hpos hmax hmono hbound
  · intro hzero
    rw [Oracle.estimate, count_eq_zero seed hp hzero, zero_share hpos hmax]
  · intro hone
    rw [Oracle.estimate, count_eq_shots seed hp hone, whole_share hpos hmax]

/-- With the usual seed and shots the certain outcome is answered exactly. -/
theorem count_monotone_usual :
    (0 : Double).toRat ≤ (1 : Double).toRat
      ∧ count (shotSeed 1337 0) 2000 0 ≤ count (shotSeed 1337 0) 2000 1
      ∧ Oracle.estimate (shotSeed 1337 0) 2000 0 = 0 := by
  have hzero : (0 : Double).toRat = 0 := toRat_of_toInt? (toInt?_ofNat (by decide))
  have hone : (1 : Double).toRat = 1 := toRat_of_toInt? (toInt?_ofNat (by decide))
  have hle : (0 : Double).toRat ≤ (1 : Double).toRat := by
    rw [hzero, hone]
    exact zero_le_one
  obtain ⟨-, -, -, hcounts, -, -, hestimates⟩ :=
    count_monotone 1337 0 (show 1 ≤ 2000 by decide) (isFinite_of_toInt? (toInt?_ofNat (by decide)))
      (isFinite_of_toInt? (toInt?_ofNat (by decide))) hle
  exact ⟨hle, hcounts.1, (hestimates (by decide)).2.1 hzero.le⟩

end Generator

end AngleSeries
