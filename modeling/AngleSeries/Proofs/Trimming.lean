import AngleSeries.Text.Basic
import Mathlib.Data.List.TakeWhile

/-!
# Blanks around a text

Trimming splits a text into blanks, what is kept, and blanks again. A text that has no blank of its
own is what is kept of it, whatever blanks are put around it.
-/

namespace AngleSeries.Text

/-- Nothing but blanks. -/
def AllBlank (text : List Char) : Prop :=
  ∀ c ∈ text, isBlank c = true

instance (text : List Char) : Decidable (AllBlank text) :=
  decidable_of_iff (text.all isBlank = true) List.all_eq_true

theorem AllBlank.reverse {text : List Char} (hblank : AllBlank text) : AllBlank text.reverse :=
  fun c hmem => hblank c (List.mem_reverse.mp hmem)

theorem allBlank_nil : AllBlank [] := fun _ hmem => absurd hmem List.not_mem_nil

theorem exists_trim (text : List Char) :
    ∃ before after, text = before ++ trim text ++ after ∧ AllBlank before ∧ AllBlank after := by
  have hrest := List.takeWhile_append_dropWhile (p := isBlank)
    (l := (text.dropWhile isBlank).reverse)
  refine ⟨text.takeWhile isBlank, ((text.dropWhile isBlank).reverse.takeWhile isBlank).reverse, ?_,
    fun c => List.mem_takeWhile_imp, AllBlank.reverse fun c => List.mem_takeWhile_imp⟩
  rw [trim, List.append_assoc, ← List.reverse_append, hrest, List.reverse_reverse,
    List.takeWhile_append_dropWhile]

theorem dropWhile_of_no_blank {text : List Char} (hnone : ∀ c ∈ text, isBlank c = false) :
    text.dropWhile isBlank = text := by
  rw [List.dropWhile_eq_self_iff]
  intro hlength
  rw [hnone _ (List.getElem_mem hlength)]
  exact Bool.false_ne_true

theorem dropWhile_surrounded {before core after : List Char} (hbefore : AllBlank before)
    (hafter : AllBlank after) (hnone : ∀ c ∈ core, isBlank c = false) :
    (before ++ core ++ after).dropWhile isBlank = if core = [] then [] else core ++ after := by
  rw [List.append_assoc, List.dropWhile_append_of_pos hbefore, List.dropWhile_append,
    dropWhile_of_no_blank hnone]
  by_cases hcore : core = []
  · have hall : after.dropWhile isBlank = [] := List.dropWhile_eq_nil_iff.mpr hafter
    simp [hcore, hall]
  · simp [hcore]

/-- What has no blank in it is found again between any blanks. -/
theorem trim_surrounded {before core after : List Char} (hbefore : AllBlank before)
    (hafter : AllBlank after) (hnone : ∀ c ∈ core, isBlank c = false) :
    trim (before ++ core ++ after) = core := by
  rw [trim, dropWhile_surrounded hbefore hafter hnone]
  by_cases hcore : core = []
  · simp [hcore]
  · have hreverse : ∀ c ∈ core.reverse, isBlank c = false :=
      fun c hmem => hnone c (List.mem_reverse.mp hmem)
    have hback := dropWhile_surrounded hafter.reverse allBlank_nil hreverse
    rw [List.append_nil, if_neg (mt List.reverse_eq_nil_iff.mp hcore), List.append_nil] at hback
    rw [if_neg hcore, List.reverse_append, hback, List.reverse_reverse]

theorem trim_of_no_blank {text : List Char} (hnone : ∀ c ∈ text, isBlank c = false) :
    trim text = text := by
  have htrim := trim_surrounded allBlank_nil allBlank_nil hnone
  rwa [List.nil_append, List.append_nil] at htrim

end AngleSeries.Text
