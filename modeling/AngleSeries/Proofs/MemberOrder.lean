import AngleSeries.Members
import Mathlib.Logic.Basic

/-!
# Looking up and ordering members

A member that is put is found, and every other member is still found where it was.
-/

namespace AngleSeries.Members

variable {α : Type}

/-! ### Lookups -/

@[simp]
theorem get?_nil (key : Text) : get? ([] : Members α) key = none := rfl

@[simp]
theorem get?_cons (name : Text) (value : α) (members : Members α) (key : Text) :
    get? ((name, value) :: members) key = if name = key then some value else get? members key := by
  by_cases hname : name = key <;> simp [get?, hname]

theorem get?_replace (members : Members α) (key : Text) (value : α) (other : Text) :
    get? (replace key value members) other
      = if other = key then (get? members key).map fun _ => value else get? members other := by
  induction members with
  | nil => simp [replace]
  | cons member members ih =>
      obtain ⟨name, found⟩ := member
      by_cases hname : name = key <;> by_cases hother : other = key <;> grind [replace, get?_cons]

theorem get?_insertNew {members : Members α} {key : Text} (hnew : get? members key = none)
    (value : α) (other : Text) :
    get? (insertNew key value members) other
      = if other = key then some value else get? members other := by
  induction members with
  | nil => simp [insertNew, eq_comm]
  | cons member members ih =>
      obtain ⟨name, found⟩ := member
      grind [insertNew, get?_cons]

theorem any_key_iff (members : Members α) (key : Text) :
    (members.any fun member => member.1 == key) = true ↔ get? members key ≠ none := by
  induction members with
  | nil => simp
  | cons member members ih =>
      obtain ⟨name, found⟩ := member
      rw [List.any_cons, Bool.or_eq_true, ih, get?_cons, beq_iff_eq]
      by_cases hname : name = key <;> simp [hname]

/-- What is put is found, and nothing else is lost. -/
theorem get?_put (members : Members α) (key : Text) (value : α) (other : Text) :
    get? (members.put key value) other = if other = key then some value else get? members other := by
  rw [put]
  split
  case isTrue hany =>
    obtain ⟨found, hfound⟩ := Option.ne_none_iff_exists'.mp ((any_key_iff members key).mp hany)
    rw [get?_replace, hfound, Option.map_some]
  case isFalse hany =>
    rw [any_key_iff, not_not] at hany
    exact get?_insertNew hany value other

/-- Among different keys the order does not matter. -/
theorem get?_eq_of_perm {members others : Members α} (hperm : members.Perm others)
    (hnodup : (keys members).Nodup) (key : Text) : get? members key = get? others key := by
  induction hperm with
  | nil => rfl
  | cons member _ ih =>
      obtain ⟨name, value⟩ := member
      rw [get?_cons, get?_cons, ih (List.nodup_cons.mp hnodup).2]
  | swap first second rest =>
      obtain ⟨a, x⟩ := first
      obtain ⟨b, y⟩ := second
      have hne : b ≠ a := by
        rintro rfl
        simp [keys] at hnodup
      grind [get?_cons]
  | trans hfirst _ ih ih' => exact (ih hnodup).trans (ih' ((hfirst.map _).nodup_iff.mp hnodup))

end AngleSeries.Members
