import AngleSeries.Canonical
import Mathlib.Data.List.Sort

/-!
# Sorting by key

The order of code units is a total order on texts, so entries with pairwise different keys have only
one sorted arrangement, and nothing of the order in which they came is left in it.
-/

namespace AngleSeries

namespace Text

theorem unitsLE_total (a b : List UInt16) : unitsLE a b = true ∨ unitsLE b a = true := by
  fun_induction unitsLE a b with
  | case1 b => exact .inl rfl
  | case2 unit a => exact .inr rfl
  | case3 unit a b ih => simpa [unitsLE] using ih
  | case4 unit a other b hne =>
      simp only [unitsLE, Ne.symm hne, if_false, decide_eq_true_eq]
      exact UInt16.lt_or_lt_of_ne hne

theorem unitsLE_antisymm {a b : List UInt16} (hab : unitsLE a b = true)
    (hba : unitsLE b a = true) : a = b := by
  fun_induction unitsLE a b with
  | case1 b =>
      cases b with
      | nil => rfl
      | cons unit b => cases hba
  | case2 unit a => cases hab
  | case3 unit a b ih => rw [ih hab (by simpa [unitsLE] using hba)]
  | case4 unit a other b hne =>
      simp only [unitsLE, Ne.symm hne, if_false, decide_eq_true_eq] at hab hba
      exact absurd hba (UInt16.lt_asymm hab)

theorem unitsLE_trans {a b c : List UInt16} (hab : unitsLE a b = true)
    (hbc : unitsLE b c = true) : unitsLE a c = true := by
  fun_induction unitsLE a b generalizing c with
  | case1 b => rfl
  | case2 unit a => cases hab
  | case3 unit a b ih =>
      cases c with
      | nil => cases hbc
      | cons last c => grind [unitsLE]
  | case4 unit a other b hne =>
      cases c with
      | nil => cases hbc
      | cons last c => grind [unitsLE, UInt16.lt_trans, UInt16.lt_asymm]

theorem keyLE_total (a b : Text) : keyLE a b = true ∨ keyLE b a = true :=
  unitsLE_total a.units b.units

theorem keyLE_trans {a b c : Text} (hab : keyLE a b = true) (hbc : keyLE b c = true) :
    keyLE a c = true :=
  unitsLE_trans hab hbc

theorem keyLE_antisymm {a b : Text} (hab : keyLE a b = true) (hba : keyLE b a = true) : a = b := by
  have hunits : a.units = b.units := unitsLE_antisymm hab hba
  cases a
  cases b
  simpa using hunits

end Text

namespace Value

variable {α : Type}

theorem sortEntries_perm (entries : List (Text × α)) : (sortEntries entries).Perm entries :=
  List.mergeSort_perm entries _

theorem sortEntries_pairwise (entries : List (Text × α)) :
    (sortEntries entries).Pairwise fun a b => Text.keyLE a.1 b.1 = true := by
  apply List.pairwise_mergeSort
  · intro a b c hab hbc
    exact Text.keyLE_trans hab hbc
  · intro a b
    rw [Bool.or_eq_true]
    exact Text.keyLE_total a.1 b.1

/-- Sorted entries stay as they are. -/
theorem sortEntries_of_pairwise {entries : List (Text × α)}
    (hsorted : entries.Pairwise fun a b => Text.keyLE a.1 b.1 = true) :
    sortEntries entries = entries :=
  List.mergeSort_of_pairwise hsorted

/-- Sorting looks at nothing but the keys. -/
theorem sortEntries_map {β : Type} (f : Text × α → Text × β) (hf : ∀ entry, (f entry).1 = entry.1)
    (entries : List (Text × α)) : sortEntries (entries.map f) = (sortEntries entries).map f := by
  rw [sortEntries, sortEntries]
  refine (List.map_mergeSort fun a _ b _ => ?_).symm
  rw [hf, hf]

/-- Of two entries with one key there is only one. -/
theorem eq_of_mem_of_nodup {entries : List (Text × α)} (hnodup : (entries.map Prod.fst).Nodup)
    {a b : Text × α} (ha : a ∈ entries) (hb : b ∈ entries) (hkey : a.1 = b.1) : a = b :=
  List.inj_on_of_nodup_map hnodup ha hb hkey

/-- **One arrangement.** Sorting forgets the order of entries whose keys differ. -/
theorem sortEntries_eq_of_perm {entries others : List (Text × α)} (hperm : entries.Perm others)
    (hnodup : (entries.map Prod.fst).Nodup) : sortEntries entries = sortEntries others := by
  have hsorted : (sortEntries entries).Perm (sortEntries others) :=
    (sortEntries_perm entries).trans (hperm.trans (sortEntries_perm others).symm)
  refine hsorted.eq_of_pairwise (fun a b ha hb hab hba => ?_) (sortEntries_pairwise entries)
    (sortEntries_pairwise others)
  refine eq_of_mem_of_nodup hnodup ?_ ?_ (Text.keyLE_antisymm hab hba)
  · exact (sortEntries_perm entries).mem_iff.mp ha
  · exact hperm.mem_iff.mpr ((sortEntries_perm others).mem_iff.mp hb)

/-- What a test tells apart in two lists it tells apart in the same places. -/
theorem append_inj_of_test (test : α → Bool) {a b c d : List α} (heq : a ++ b = c ++ d)
    (ha : ∀ x ∈ a, test x = true) (hb : ∀ x ∈ b, test x = false)
    (hc : ∀ x ∈ c, test x = true) (hd : ∀ x ∈ d, test x = false) : a = c ∧ b = d := by
  have hfront : a = c := by
    have hfilter := congrArg (List.filter test) heq
    rw [List.filter_append, List.filter_append, List.filter_eq_self.mpr ha,
      List.filter_eq_self.mpr hc, List.filter_eq_nil_iff.mpr (by simpa using hb),
      List.filter_eq_nil_iff.mpr (by simpa using hd), List.append_nil, List.append_nil] at hfilter
    exact hfilter
  rw [hfront] at heq
  exact ⟨hfront, List.append_cancel_left heq⟩

/-- An entry is sorted in behind those that it has to stand behind, and before all others. -/
theorem sortEntries_cons (entry : Text × α) (entries : List (Text × α)) :
    ∃ before after, sortEntries (entry :: entries) = before ++ entry :: after
      ∧ sortEntries entries = before ++ after
      ∧ (∀ other ∈ before, Text.keyLE entry.1 other.1 = false)
      ∧ ∀ other ∈ after, Text.keyLE entry.1 other.1 = true := by
  obtain ⟨before, after, hcons, hrest, hbefore⟩ := @List.mergeSort_cons _
    (fun a b : Text × α => Text.keyLE a.1 b.1)
    (fun a b c hab hbc => Text.keyLE_trans hab hbc)
    (fun a b => by rw [Bool.or_eq_true]; exact Text.keyLE_total a.1 b.1) entry entries
  have hsorted := sortEntries_pairwise (entry :: entries)
  rw [sortEntries, hcons] at hsorted
  have hafter := (List.pairwise_cons.mp (List.pairwise_append.mp hsorted).2.1).1
  exact ⟨before, after, hcons, hrest, fun other hother => by simpa using hbefore other hother,
    hafter⟩

/-- **Left out before or after sorting.** Entries that stay keep their places to each other. -/
theorem sortEntries_filter (keep : Text × α → Bool) (entries : List (Text × α)) :
    sortEntries (entries.filter keep) = (sortEntries entries).filter keep := by
  induction entries with
  | nil => rw [List.filter_nil, sortEntries_of_pairwise List.Pairwise.nil, List.filter_nil]
  | cons entry entries ih =>
      obtain ⟨before, after, hcons, hrest, hbefore, hafter⟩ := sortEntries_cons entry entries
      rw [hrest, List.filter_append] at ih
      by_cases hkeep : keep entry = true
      · obtain ⟨front, back, hkept, hothers, hfront, hback⟩ :=
          sortEntries_cons entry (entries.filter keep)
        rw [ih] at hothers
        -- Both rows are cut where the new entry belongs.
        obtain ⟨rfl, rfl⟩ := append_inj_of_test (fun other => !Text.keyLE entry.1 other.1)
          hothers
          (fun other hother => by simp [hbefore other (List.mem_filter.mp hother).1])
          (fun other hother => by simp [hafter other (List.mem_filter.mp hother).1])
          (fun other hother => by simp [hfront other hother])
          (fun other hother => by simp [hback other hother])
        rw [List.filter_cons_of_pos hkeep, hkept, hcons, List.filter_append,
          List.filter_cons_of_pos hkeep]
      · rw [List.filter_cons_of_neg hkeep, ih, hcons, List.filter_append,
          List.filter_cons_of_neg hkeep]

end Value

end AngleSeries
