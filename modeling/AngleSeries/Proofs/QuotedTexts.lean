import AngleSeries.Proofs.NumberTexts

/-!
# Quoted texts

Between quotes every row of code units comes back, whether a unit stands for itself, is escaped by a
letter or by four digits, or is half of a pair.
-/

namespace AngleSeries.Json

open Numeral Text

/-- A unit that is neither the quote nor the backslash nor below the space stands for itself. -/
theorem readUnit?_plain {unit : UInt16} (hquote : unit ≠ 0x22) (hslash : unit ≠ 0x5C)
    (hlarge : ¬ unit < 0x20) (rest : List UInt16) :
    readUnit? (unit :: rest) = some (some unit, rest) := by
  simp only [readUnit?, hquote, hslash, hlarge, if_false]

theorem readUnit?_surrogate {unit : UInt16} (hunit : (isHigh unit || isLow unit) = true)
    (rest : List UInt16) : readUnit? (unit :: rest) = some (some unit, rest) := by
  have hlarge : 0xD800 ≤ unit := by
    simp only [isHigh, isLow, Bool.or_eq_true, Bool.and_eq_true, decide_eq_true_eq] at hunit
    rcases hunit with ⟨hlow, -⟩ | ⟨hlow, -⟩
    · exact hlow
    · exact UInt16.le_trans (by decide) hlow
  apply readUnit?_plain
  · rintro rfl
    exact absurd hlarge (by decide)
  · rintro rfl
    exact absurd hlarge (by decide)
  · intro hsmall
    exact absurd (UInt16.lt_of_le_of_lt hlarge hsmall) (by decide)

/-! ### Four digits -/

theorem glyph_digitChar {d : ℕ} (hd : d < 16) :
    glyph (UInt16.ofNat (digitChar d).toNat) = digitChar d := by
  refine (unitsOf_of_lt ?_).2
  interval_cases d <;> decide

theorem ofDigits_hexQuad {n : ℕ} (hn : n < 65536) : ofDigits 16 (hexQuad n) = n := by
  have hdigit : ∀ k, digitValue? 16 (digitChar (k % 16)) = some (k % 16) := by
    intro k
    exact digitValue?_digitChar le_rfl (Nat.mod_lt k (by decide))
  simp only [ofDigits, hexQuad, List.foldl_cons, List.foldl_nil, hdigit, Option.getD_some]
  omega

theorem readQuad?_hexQuad (unit : UInt16) (rest : List UInt16) :
    readQuad? (asciiUnits (hexQuad unit.toNat) ++ rest) = some (unit, rest) := by
  have hglyph : ∀ k, glyph (UInt16.ofNat (digitChar (k % 16)).toNat) = digitChar (k % 16) := by
    intro k
    exact glyph_digitChar (Nat.mod_lt k (by decide))
  have hdigit : ∀ k, isDigit 16 (digitChar (k % 16)) = true := by
    intro k
    exact isDigit_digitChar le_rfl (Nat.mod_lt k (by decide))
  have hvalue := ofDigits_hexQuad unit.toNat_lt
  simp only [hexQuad] at hvalue
  simp only [asciiUnits, hexQuad, List.map_cons, List.map_nil, List.cons_append, List.nil_append,
    readQuad?, hglyph, List.all_cons, List.all_nil, hdigit, Bool.and_self, if_true, hvalue,
    UInt16.ofNat_toNat]

/-! ### Units -/

theorem readUnit?_escapeUnit (unit : UInt16) (rest : List UInt16) :
    readUnit? (escapeUnit unit ++ rest) = some (some unit, rest) := by
  unfold escapeUnit
  split_ifs with hquote hslash hback htab hline hfeed hreturn hother
  · subst hquote
    rfl
  · subst hslash
    rfl
  · subst hback
    rfl
  · subst htab
    rfl
  · subst hline
    rfl
  · subst hfeed
    rfl
  · subst hreturn
    rfl
  · have hread := readQuad?_hexQuad unit rest
    change (readQuad? (asciiUnits (hexQuad unit.toNat) ++ rest)).map _ = _
    rw [hread, Option.map_some]
  · simp only [Bool.or_eq_true, not_or, decide_eq_true_eq] at hother
    exact readUnit?_plain hquote hslash hother.1.1 rest

/-- A unit in front is read first. -/
theorem readUnits?_cons {bound : ℕ} {text rest tail : List UInt16} {unit : UInt16}
    {units : List UInt16} (hunit : readUnit? text = some (some unit, rest))
    (hunits : readUnits? bound rest = some (units, tail)) :
    readUnits? (bound + 1) text = some (unit :: units, tail) := by
  rw [readUnits?, hunit, Option.bind_eq_bind, Option.bind_some]
  dsimp only
  rw [hunits, Option.bind_eq_bind, Option.bind_some]

theorem readUnits?_quote (bound : ℕ) (rest : List UInt16) :
    readUnits? (bound + 1) (0x22 :: rest) = some ([], rest) :=
  rfl

/-- **Quoted texts are read back**, with what follows the closing quote. -/
theorem readUnits?_escape {bound : ℕ} {units : List UInt16} (hbound : units.length < bound)
    (rest : List UInt16) :
    readUnits? bound (escape units ++ 0x22 :: rest) = some (units, rest) := by
  fun_induction escape units generalizing bound with
  | case1 high low units hpair ih =>
      obtain ⟨hhigh, hlow⟩ := Bool.and_eq_true_iff.mp hpair
      obtain ⟨bound, rfl⟩ : ∃ k, bound = k + 2 := ⟨bound - 2, by simp at hbound; omega⟩
      have hunits := ih (by simpa using hbound)
      refine readUnits?_cons (readUnit?_surrogate ?_ _) (readUnits?_cons (readUnit?_surrogate ?_ _) ?_)
      · rw [hhigh, Bool.true_or]
      · rw [hlow, Bool.or_true]
      · exact hunits
  | case2 unit next units hsingle ih =>
      obtain ⟨bound, rfl⟩ : ∃ k, bound = k + 1 := ⟨bound - 1, by omega⟩
      rw [List.append_assoc]
      exact readUnits?_cons (readUnit?_escapeUnit unit _) (ih (by simpa using hbound))
  | case3 unit =>
      obtain ⟨bound, rfl⟩ : ∃ k, bound = k + 2 := ⟨bound - 2, by simp at hbound; omega⟩
      exact readUnits?_cons (readUnit?_escapeUnit unit _) (readUnits?_quote bound rest)
  | case4 =>
      obtain ⟨bound, rfl⟩ : ∃ k, bound = k + 1 := ⟨bound - 1, by omega⟩
      exact readUnits?_quote bound rest

end AngleSeries.Json
