import AngleSeries.Proofs.ReadNumerals
import AngleSeries.Proofs.ReorderedOptions

/-!
# Counts on the command line

Four options of `run` take a count. A count is accepted by the number that its text is read as, so
every numeral of a safe integer is taken for that integer. But reading rounds, and it makes zero of
nothing: a numeral with a fraction so small that rounding loses it is taken for the integer next to
it, and a blank text for zero. Everything else is refused in the name of the option.
-/

namespace AngleSeries

/-! ### Integers by rounding -/

/-- No other integer is rounded to a safe one. -/
theorem roundBinary_eq_safe_iff {i n : ℤ} (hn : |n| ≤ Double.maxSafe) :
    roundBinary i = n ↔ i = n := by
  have hmax : Double.maxSafe = 2 ^ 53 - 1 := rfl
  by_cases hsmall : i.natAbs ≤ 2 ^ 53
  · rw [roundBinary_intCast hsmall, Int.cast_inj]
  · have hlarge : 2 ^ (53 : ℤ) ≤ |roundBinary i| := by
      have habs : (2 : ℚ) ^ (53 : ℤ) ≤ |(i : ℚ)| := by
        rw [← Int.cast_abs, ← Int.natCast_natAbs]
        have hle : 2 ^ 53 ≤ i.natAbs := by omega
        exact_mod_cast hle
      rcases abs_cases (i : ℚ) with ⟨heq, -⟩ | ⟨heq, -⟩
      · rw [heq] at habs
        exact (zpow_le_roundBinary (by norm_num) habs).trans (le_abs_self _)
      · rw [heq] at habs
        have hneg := zpow_le_roundBinary (by norm_num) habs
        rw [roundBinary_neg] at hneg
        exact hneg.trans (neg_le_abs _)
    -- From `2 ^ 53` on the rounded integer is as large, and so it is not safe.
    refine iff_of_false (fun hround => ?_) ?_
    · rw [hround, ← Int.cast_abs] at hlarge
      have hle : 2 ^ 53 ≤ |n| := by exact_mod_cast hlarge
      omega
    · rintro rfl
      rw [← Int.natCast_natAbs] at hn
      omega

namespace CommandLine

/-! ### Texts of counts -/

/-- The options that take a count, and the least count that each takes. -/
def countFlags : List (Text × ℤ) :=
  [("--steps", 0), ("--seed", 0), ("--interval", 0), ("--shots", 1)]

/-- A numeral, apart from blanks around it, that denotes a safe integer of at least `lowest`. -/
def IsCount (lowest : ℤ) (text : Text) (n : ℤ) : Prop :=
  IsNumeral (Text.trim text.chars) n ∧ lowest ≤ n ∧ n ≤ Double.maxSafe

/-- A text without a count that is taken for one: nothing, or a numeral of a fraction that is
rounded to a count. -/
def LooksLikeCount (lowest : ℤ) (text : Text) : Prop :=
  (Text.trim text.chars = [] ∧ lowest ≤ 0) ∨
    ∃ q, IsNumeral (Text.trim text.chars) q ∧ (∀ i : ℤ, q ≠ i) ∧
      ∃ n : ℤ, roundBinary q = n ∧ lowest ≤ n ∧ n ≤ Double.maxSafe

section Texts

variable {flag text : Text} {lowest n : ℤ}

theorem toSafeInt?_ofText_iff : (Double.ofText text.string).toSafeInt? = some n
    ↔ |n| ≤ Double.maxSafe ∧ (Text.trim text.chars = [] ∧ n = 0
      ∨ ∃ q, IsNumeral (Text.trim text.chars) q ∧ roundBinary q = n) := by
  have hchars : text.string.toList = text.chars := String.toList_ofList
  constructor
  · intro hsafe
    have hint := Double.toSafeInt?_eq_some_iff.mp hsafe
    refine ⟨hint.2, ?_⟩
    have hfinite := Double.isFinite_of_toInt? hint.1
    rcases Double.blank_or_isNumeral hfinite with hblank | ⟨q, hnumeral⟩
    · rw [Double.ofText_of_blank hblank, Double.toInt?_signedZero] at hint
      exact .inl ⟨by rwa [hchars] at hblank, (Option.some.inj hint.1).symm⟩
    · have hround := ((Double.isNearest_ofText hnumeral).toSafeInt?_eq_some_iff.mp hsafe).1
      exact .inr ⟨q, by rwa [hchars] at hnumeral, hround⟩
  · rintro ⟨hbound, ⟨hblank, rfl⟩ | ⟨q, hnumeral, hround⟩⟩
    · rw [← hchars] at hblank
      rw [Double.ofText_of_blank hblank, Double.toSafeInt?_eq_some_iff,
        Double.toInt?_signedZero]
      exact ⟨rfl, hbound⟩
    · rw [← hchars] at hnumeral
      exact (Double.isNearest_ofText hnumeral).toSafeInt?_eq_some_iff.mpr ⟨hround, hbound⟩

theorem IsCount.toSafeInt?_ofText (hlowest : 0 ≤ lowest) (hcount : IsCount lowest text n) :
    (Double.ofText text.string).toSafeInt? = some n := by
  obtain ⟨hnumeral, hlow, hhigh⟩ := hcount
  have hbound : |n| ≤ Double.maxSafe := by rwa [abs_of_nonneg (hlowest.trans hlow)]
  exact toSafeInt?_ofText_iff.mpr
    ⟨hbound, .inr ⟨n, hnumeral, (roundBinary_eq_safe_iff hbound).mpr rfl⟩⟩

theorem LooksLikeCount.not_isCount (hlooks : LooksLikeCount lowest text) (n : ℤ) :
    ¬IsCount lowest text n := by
  rintro ⟨hnumeral, -, -⟩
  rcases hlooks with ⟨hblank, -⟩ | ⟨q, hother, hfraction, -⟩
  · exact hnumeral.ne_nil hblank
  · exact hfraction n (isNumeral_unique hother hnumeral)

theorem LooksLikeCount.exists_toSafeInt? (hlowest : 0 ≤ lowest)
    (hlooks : LooksLikeCount lowest text) :
    ∃ n, (Double.ofText text.string).toSafeInt? = some n ∧ lowest ≤ n := by
  rcases hlooks with ⟨hblank, hzero⟩ | ⟨q, hnumeral, -, n, hround, hlow, hhigh⟩
  · exact ⟨0, toSafeInt?_ofText_iff.mpr ⟨by decide, .inl ⟨hblank, rfl⟩⟩, hzero⟩
  · have hbound : |n| ≤ Double.maxSafe := by rwa [abs_of_nonneg (hlowest.trans hlow)]
    exact ⟨n, toSafeInt?_ofText_iff.mpr ⟨hbound, .inr ⟨q, hnumeral, hround⟩⟩, hlow⟩

theorem isCount_or_looksLikeCount (hsafe : (Double.ofText text.string).toSafeInt? = some n)
    (hlow : lowest ≤ n) : IsCount lowest text n ∨ LooksLikeCount lowest text := by
  obtain ⟨hbound, ⟨hblank, rfl⟩ | ⟨q, hnumeral, hround⟩⟩ := toSafeInt?_ofText_iff.mp hsafe
  · exact .inr (.inl ⟨hblank, hlow⟩)
  · have hhigh : n ≤ Double.maxSafe := (le_abs_self n).trans hbound
    by_cases hwhole : ∃ i : ℤ, q = i
    · obtain ⟨i, rfl⟩ := hwhole
      rw [roundBinary_eq_safe_iff hbound] at hround
      subst hround
      exact .inl ⟨hnumeral, hlow, hhigh⟩
    · exact .inr (.inr ⟨q, hnumeral, not_exists.mp hwhole, n, hround, hlow, hhigh⟩)

/-! ### Reading a count -/

/-- What is said of a text that is no count, in the name of its option. -/
def countFault (flag text : Text) (lowest : ℤ) : Fault :=
  let kind := if lowest = 0 then "non-negative" else "positive"
  .usage (flag ++ " expects a " ++ kind ++ " integer (received \"" ++ text ++ "\").") (some flag)

theorem readCount_of_safe (hsafe : (Double.ofText text.string).toSafeInt? = some n)
    (hlow : lowest ≤ n) : readCount flag text lowest = .ok (Double.ofText text.string) := by
  simp only [readCount, hsafe]
  rw [if_neg (not_lt.mpr hlow)]

theorem readCount_of_not_safe
    (hnone : ∀ n, (Double.ofText text.string).toSafeInt? = some n → n < lowest) :
    readCount flag text lowest = .error (countFault flag text lowest) := by
  cases hsafe : (Double.ofText text.string).toSafeInt? with
  | none =>
      simp only [readCount, hsafe]
      rfl
  | some n =>
      simp only [readCount, hsafe]
      rw [if_pos (hnone n hsafe)]
      rfl

theorem read_count (hflag : (flag, lowest) ∈ countFlags) :
    (Group.setting flag text).read = (readCount flag text lowest).map .number := by
  simp only [countFlags, List.mem_cons, List.not_mem_nil, or_false, Prod.mk.injEq] at hflag
  rcases hflag with ⟨rfl, rfl⟩ | ⟨rfl, rfl⟩ | ⟨rfl, rfl⟩ | ⟨rfl, rfl⟩ <;>
    simp [Group.read, Text.ofString_inj]

theorem fits_count (hflag : (flag, lowest) ∈ countFlags) (htext : isFlag text = false) :
    (Group.setting flag text).fits runShape = true := by
  have hshape : runShape flag = .setting := by
    simp only [countFlags, List.mem_cons, List.not_mem_nil, or_false, Prod.mk.injEq] at hflag
    rcases hflag with ⟨rfl, -⟩ | ⟨rfl, -⟩ | ⟨rfl, -⟩ | ⟨rfl, -⟩ <;> decide +kernel
  simp [Group.fits, hshape, htext]

theorem lowest_nonneg (hflag : (flag, lowest) ∈ countFlags) : 0 ≤ lowest := by
  simp only [countFlags, List.mem_cons, List.not_mem_nil, or_false, Prod.mk.injEq] at hflag
  omega

theorem ne_inputFlag (hflag : (flag, lowest) ∈ countFlags) (field : Field) :
    flag ≠ inputFlag field := by
  simp only [countFlags, List.mem_cons, List.not_mem_nil, or_false, Prod.mk.injEq] at hflag
  rcases hflag with ⟨rfl, -⟩ | ⟨rfl, -⟩ | ⟨rfl, -⟩ | ⟨rfl, -⟩ <;> cases field <;> decide +kernel

end Texts

/-! ### Options that take a count -/

/-- An option that takes exactly the counts: a text that denotes one is accepted and leaves the
option at this integer, and any other text is refused in the name of the option, whatever stands
around it. -/
structure TakesCounts (flag : Text) (lowest : ℤ) (text : Text) : Prop where
  taken : ∀ n, IsCount lowest text n → (∃ options, parseRun [flag, text] = .ok options) ∧
    ∀ groups options, (∀ group ∈ groups, group.fits runShape = true) →
      latest flag groups = some (.setting flag text) → parseRun (spell groups) = .ok options →
        ∃ x, options.setTo flag = some (.number x) ∧ x.toInt? = some n
  refused : (∀ n, ¬IsCount lowest text n) → ∀ before rest,
    (∀ group ∈ before, group.fits runShape = true) →
      (∀ group ∈ before, ∃ setting, group.read = .ok setting) →
        parseRun (spell before ++ flag :: text :: rest) = .error (countFault flag text lowest)

section Options

variable {flag text : Text} {lowest n : ℤ} (hflag : (flag, lowest) ∈ countFlags)

include hflag

theorem read_of_safe (hsafe : (Double.ofText text.string).toSafeInt? = some n)
    (hlow : lowest ≤ n) :
    (Group.setting flag text).read = .ok (.number (Double.ofText text.string)) := by
  rw [read_count hflag, readCount_of_safe hsafe hlow]
  rfl

theorem exists_parseRun_of_safe (htext : isFlag text = false)
    (hsafe : (Double.ofText text.string).toSafeInt? = some n) (hlow : lowest ≤ n) :
    ∃ options, parseRun [flag, text] = .ok options := by
  have hfits : (Group.setting flag text).fits runShape = true := fits_count hflag htext
  have hgroups : ∀ group ∈ [Group.setting flag text], group.fits runShape = true := by
    simpa using hfits
  have hspell : [flag, text] = spell [.setting flag text] := rfl
  rw [hspell]
  refine exists_parseRun hgroups ?_ fun field => ?_
  · intro group hmem
    obtain rfl := List.mem_singleton.mp hmem
    exact ⟨_, read_of_safe hflag hsafe hlow⟩
  · simp [latest, Group.option, ne_inputFlag hflag field]

/-- **A count is accepted, and other texts are refused, unless they look like a count.** -/
theorem takesCounts_iff (htext : isFlag text = false) :
    TakesCounts flag lowest text ↔ ¬LooksLikeCount lowest text := by
  have hlowest := lowest_nonneg hflag
  have hfits : (Group.setting flag text).fits runShape = true := fits_count hflag htext
  constructor
  · intro htakes hlooks
    -- What looks like a count is accepted, although it is none.
    obtain ⟨n, hsafe, hlow⟩ := hlooks.exists_toSafeInt? hlowest
    obtain ⟨options, haccepted⟩ := exists_parseRun_of_safe hflag htext hsafe hlow
    have hrefused := htakes.refused hlooks.not_isCount [] [] (by simp) (by simp)
    rw [spell, List.flatMap_nil, List.nil_append, haccepted] at hrefused
    cases hrefused
  · intro hlooks
    refine ⟨fun n hcount => ?_, fun hnone before rest hbefore hread => ?_⟩
    · have hsafe := hcount.toSafeInt?_ofText hlowest
      have hread := read_of_safe hflag hsafe hcount.2.1
      refine ⟨exists_parseRun_of_safe hflag htext hsafe hcount.2.1,
        fun groups options hgroups hlatest hparse => ?_⟩
      obtain ⟨setting, hsetting, hset⟩ := runCommand.readsLatest.kept _ _ hgroups hparse _ _ hlatest
      rw [hread] at hsetting
      cases hsetting
      exact ⟨_, hset, (Double.toSafeInt?_eq_some_iff.mp hsafe).1⟩
    · have hunsafe : ∀ n, (Double.ofText text.string).toSafeInt? = some n → n < lowest := by
        intro n hsafe
        by_contra hlow
        rcases isCount_or_looksLikeCount hsafe (not_lt.mp hlow) with hcount | hother
        · exact hnone n hcount
        · exact hlooks hother
      have herror : (Group.setting flag text).read = .error (countFault flag text lowest) := by
        rw [read_count hflag, readCount_of_not_safe hunsafe]
        rfl
      change runCommand.parse (spell before ++ ([flag, text] ++ rest)) = _
      exact Command.parse_of_read_error hbefore hread hfits herror rest

end Options

theorem hexadecimal_taken :
    (("--shots" : Text), (1 : ℤ)) ∈ countFlags ∧ isFlag " 0x1F" = false ∧ IsCount 1 " 0x1F" 31 ∧
      TakesCounts "--shots" 1 " 0x1F" := by
  have hflag : (("--shots" : Text), (1 : ℤ)) ∈ countFlags := by simp [countFlags]
  have htext : isFlag " 0x1F" = false := by decide +kernel
  have hcount : IsCount 1 " 0x1F" 31 := by
    have htrim : Text.trim (Text.chars " 0x1F") = ['0', 'x', '1', 'F'] := by decide +kernel
    have hdigits : IsNatural 16 ['1', 'F'] 31 := by
      refine ⟨List.cons_ne_nil _ _, ?_, ?_⟩ <;> decide +kernel
    refine ⟨?_, by decide, by decide⟩
    rw [htrim]
    exact_mod_cast IsNumeral.announced (.hexadecimal (.inl rfl)) hdigits
  exact ⟨hflag, htext, hcount,
    (takesCounts_iff hflag htext).mpr fun hlooks => hlooks.not_isCount 31 hcount⟩

theorem not_takesCounts :
    ¬∀ flag lowest text, (flag, lowest) ∈ countFlags → isFlag text = false →
      TakesCounts flag lowest text := by
  intro htakes
  have hflag : (("--steps" : Text), (0 : ℤ)) ∈ countFlags := by simp [countFlags]
  have hblank : Text.trim (Text.chars "") = [] := by decide +kernel
  have hnone : ∀ n, ¬IsCount 0 "" n := fun n hcount => hcount.1.ne_nil hblank
  have hrefused := (htakes "--steps" 0 "" hflag (by decide +kernel)).refused hnone [] []
    (by simp) (by simp)
  have hany : (parseRun ["--steps", ""]).toOption.any (fun _ => true) = true := by decide +kernel
  obtain ⟨options, haccepted, -⟩ := Outcome.exists_of_any hany
  rw [spell, List.flatMap_nil, List.nil_append, haccepted] at hrefused
  cases hrefused

end CommandLine

end AngleSeries
