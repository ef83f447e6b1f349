import AngleSeries.Proofs.NamedMembers
import AngleSeries.Proofs.NumberTexts

/-!
# The same document in another order

An object is what its members are, in whatever order they come, and a zero is a zero with either
sign. Documents that differ in nothing else are the same, and they name the same keys.
-/

namespace AngleSeries.Json

open Double

/-- One document comes from the other by putting the members of objects in another order and by
giving zeros another sign, at any depth. -/
inductive Same : Json → Json → Prop where
  | refl (document : Json) : Same document document
  | trans {a b c : Json} (hab : Same a b) (hbc : Same b c) : Same a c
  | zero (negative other : Bool) :
      Same (.number (signedZero negative)) (.number (signedZero other))
  | members {members others : Members Json} (hperm : members.Perm others)
      (hkeys : (Members.keys members).Nodup) : Same (.object members) (.object others)
  | item (before after : List Json) {a b : Json} (hab : Same a b) :
      Same (.array (before ++ a :: after)) (.array (before ++ b :: after))
  | member (before after : List (Text × Json)) (key : Text) {a b : Json} (hab : Same a b) :
      Same (.object (before ++ (key, a) :: after)) (.object (before ++ (key, b) :: after))

theorem Same.symm {a b : Json} (hab : Same a b) : Same b a := by
  induction hab with
  | refl document => exact .refl document
  | trans _ _ hba hcb => exact hcb.trans hba
  | zero negative other => exact .zero other negative
  | members hperm hkeys => exact .members hperm.symm ((hperm.map Prod.fst).nodup_iff.mp hkeys)
  | item before after _ hba => exact .item before after hba
  | member before after key _ hba => exact .member before after key hba

theorem same_plainZero (x : Double) : Same (.number x.plainZero) (.number x) := by
  cases x with
  | nan | infinite => exact .refl _
  | finite negative units h =>
      by_cases hzero : units = 0
      · subst hzero
        rw [plainZero, isZero, beq_self_eq_true, if_pos rfl, zero_eq_signedZero]
        exact .zero false negative
      · rw [plainZero, isZero, beq_false_of_ne hzero, if_neg Bool.false_ne_true]
        exact .refl _

/-- Parts may be replaced one after the other. -/
theorem same_map {α β : Type} (whole : List β → Json) (f g : α → β) {parts : List α}
    (hpart : ∀ part ∈ parts, ∀ before after,
      Same (whole (before ++ f part :: after)) (whole (before ++ g part :: after))) :
    Same (whole (parts.map f)) (whole (parts.map g)) := by
  -- What stands in front is replaced already and grows along the induction.
  suffices hbefore : ∀ before, Same (whole (before ++ parts.map f)) (whole (before ++ parts.map g))
    from hbefore []
  induction parts with
  | nil => exact fun before => .refl _
  | cons part parts ih =>
      intro before
      have hfirst := hpart part List.mem_cons_self before (parts.map f)
      have hrest := ih (fun other hother => hpart other (List.mem_cons_of_mem _ hother))
        (before ++ [g part])
      rw [List.append_assoc, List.append_assoc] at hrest
      exact hfirst.trans hrest

/-! ### Names -/

variable {key : Text}

theorem Same.names_iff {a b : Json} (hab : Same a b) : Names key a ↔ Names key b := by
  induction hab with
  | refl document => exact Iff.rfl
  | trans _ _ hab hbc => exact hab.trans hbc
  | zero negative other =>
      exact iff_of_false (not_names_of_single key rfl) (not_names_of_single key rfl)
  | members hperm hkeys => simp only [names_object_iff, hperm.mem_iff]
  | item before after _ ih =>
      simp only [names_array_iff, List.mem_append, List.mem_cons, or_and_right, exists_or,
        exists_eq_left, ih]
  | member before after name _ ih =>
      simp only [names_object_iff, List.mem_append, List.mem_cons, or_and_right, exists_or,
        exists_eq_left, ih]

end AngleSeries.Json
