import AngleSeries.Proofs.Arrangement
import AngleSeries.Proofs.InsertionOrder
import AngleSeries.Proofs.Outcomes
import Mathlib.Data.Set.List

/-!
# Gathering members

The object made of sorted entries has as members the entries that are put and not taken by the link.
As long as the link is inherited, the entries of its name are taken: of several with that name the
first is taken in any case, so a single one never becomes a member.
-/

namespace AngleSeries

namespace Canonical

/-- The entries that become members when an object is filled, which still inherits the link or does
not. -/
def putEntries : Bool → List (Text × Option Form) → List (Text × Json)
  | _, [] => []
  | linked, (_, none) :: entries => putEntries linked entries
  | linked, (key, some form) :: entries =>
    if key = linkName ∧ linked then putEntries form.linked entries
    else (key, form.document) :: putEntries linked entries

theorem foldl_put_members (entries : List (Text × Option Form)) (filling : Filling) :
    (entries.foldl (fun filling entry => entry.2.elim filling (filling.put entry.1))
        filling).members
      = (putEntries filling.linked entries).foldl (fun members entry => members.put entry.1 entry.2)
          filling.members := by
  induction entries generalizing filling with
  | nil => rfl
  | cons entry entries ih =>
      obtain ⟨key, _ | form⟩ := entry
      · exact ih filling
      · rw [List.foldl_cons, ih, putEntries, Option.elim_some, Filling.put]
        split_ifs with hlink
        · rfl
        · rfl

/-- The members of a gathered object. -/
theorem gather_members (entries : List (Text × Option Form)) :
    (gather entries).members = Members.ofList (putEntries true entries) :=
  foldl_put_members entries {}

theorem putEntries_sublist (linked : Bool) (entries : List (Text × Option Form)) :
    ((putEntries linked entries).map Prod.fst).Sublist (entries.map Prod.fst) := by
  fun_induction putEntries linked entries with
  | case1 linked => exact List.Sublist.refl _
  | case2 linked key entries ih => exact ih.cons key
  | case3 linked key form entries hlink ih => exact ih.cons key
  | case4 linked key form entries hlink ih => exact ih.cons_cons key

/-- Every member comes from an entry with its document. -/
theorem exists_form_of_mem {linked : Bool} {entries : List (Text × Option Form)}
    {member : Text × Json} (hmem : member ∈ putEntries linked entries) :
    ∃ form, (member.1, some form) ∈ entries ∧ form.document = member.2 := by
  fun_induction putEntries linked entries with
  | case1 linked => cases hmem
  | case2 linked key entries ih =>
      obtain ⟨form, hform, hdocument⟩ := ih hmem
      exact ⟨form, List.mem_cons_of_mem _ hform, hdocument⟩
  | case3 linked key form entries hlink ih =>
      obtain ⟨other, hother, hdocument⟩ := ih hmem
      exact ⟨other, List.mem_cons_of_mem _ hother, hdocument⟩
  | case4 linked key form entries hlink ih =>
      rcases List.mem_cons.mp hmem with rfl | hmem
      · exact ⟨form, List.mem_cons_self, rfl⟩
      · obtain ⟨other, hother, hdocument⟩ := ih hmem
        exact ⟨other, List.mem_cons_of_mem _ hother, hdocument⟩

/-- Only a second entry of the name of the link becomes a member. -/
theorem count_of_linkName_mem {linked : Bool} {entries : List (Text × Option Form)}
    (hmem : linkName ∈ (putEntries linked entries).map Prod.fst) :
    (if linked then 2 else 1) ≤ (entries.map Prod.fst).count linkName := by
  fun_induction putEntries linked entries with
  | case1 linked => cases hmem
  | case2 linked key entries ih =>
      rw [List.map_cons]
      exact (ih hmem).trans List.count_le_count_cons
  | case3 linked key form entries hlink ih =>
      have hrest := ih hmem
      rw [List.map_cons, hlink.1, List.count_cons_self, hlink.2, if_pos rfl]
      split at hrest <;> omega
  | case4 linked key form entries hlink ih =>
      rw [List.map_cons, List.mem_cons] at hmem
      rcases hmem with hkey | hmem
      · rw [List.map_cons, ← hkey, List.count_cons_self]
        have hfalse : linked = false := by
          by_contra hlinked
          exact hlink ⟨hkey.symm, Bool.eq_true_of_not_eq_false hlinked⟩
        rw [hfalse, if_neg Bool.false_ne_true]
        omega
      · rw [List.map_cons]
        exact (ih hmem).trans List.count_le_count_cons

/-- An entry with a document. -/
def present (entry : Text × Form) : Text × Option Form :=
  (entry.1, some entry.2)

/-- The member that an entry with a document becomes. -/
def asMember (entry : Text × Form) : Text × Json :=
  (entry.1, entry.2.document)

theorem putEntries_of_not_mem (linked : Bool) {entries : List (Text × Form)}
    (hlink : linkName ∉ entries.map Prod.fst) :
    putEntries linked (entries.map present) = entries.map asMember := by
  induction entries with
  | nil => rfl
  | cons entry entries ih =>
      rw [List.map_cons, List.mem_cons, not_or] at hlink
      rw [List.map_cons, present, putEntries, if_neg fun h => hlink.1 h.1.symm, ih hlink.2,
        List.map_cons, asMember]

/-- Of different names only that of the link is no member. -/
theorem putEntries_of_nodup {entries : List (Text × Form)}
    (hnodup : (entries.map Prod.fst).Nodup) :
    putEntries true (entries.map present)
      = (entries.filter fun entry => entry.1 ≠ linkName).map asMember := by
  induction entries with
  | nil => rfl
  | cons entry entries ih =>
      obtain ⟨hnew, hrest⟩ := List.nodup_cons.mp hnodup
      by_cases hlink : entry.1 = linkName
      · have hself : (entries.filter fun entry => entry.1 ≠ linkName) = entries := by
          refine List.filter_eq_self.mpr fun other hother => decide_eq_true fun hkey => ?_
          rw [hlink, ← hkey] at hnew
          exact hnew (List.mem_map_of_mem hother)
        rw [List.map_cons, present, putEntries, if_pos ⟨hlink, rfl⟩,
          putEntries_of_not_mem _ (by rwa [hlink] at hnew),
          List.filter_cons_of_neg (by simp [hlink]), hself]
      · rw [List.map_cons, present, putEntries, if_neg fun h => hlink h.1, ih hrest,
          List.filter_cons_of_pos (by simp [hlink]), List.map_cons, asMember]

/-- An entry without a document makes no member. -/
theorem gather_filter (entries : List (Text × Option Form)) :
    gather (entries.filter fun entry => entry.2.isSome) = gather entries := by
  rw [gather, gather, List.foldl_filter]
  congr 1
  funext filling entry
  cases entry.2 <;> rfl

end Canonical

namespace Value

open Canonical

/-- The outcome of an entry that succeeded. -/
def succeeded (entry : Text × Option Form) : Text × Except Fault (Option Form) :=
  (entry.1, .ok entry.2)

theorem collect_map_succeeded (entries : List (Text × Option Form)) :
    collect (entries.map succeeded) = .ok entries := by
  induction entries with
  | nil => rfl
  | cons entry entries ih =>
      obtain ⟨key, form⟩ := entry
      rw [List.map_cons, succeeded, collect, Outcome.ok_bind, ih, Outcome.ok_bind]

theorem eq_map_of_collect {outcomes : List (Text × Except Fault (Option Form))}
    {entries : List (Text × Option Form)} (hcollect : collect outcomes = .ok entries) :
    outcomes = entries.map succeeded := by
  induction outcomes generalizing entries with
  | nil =>
      cases hcollect
      rfl
  | cons entry outcomes ih =>
      obtain ⟨key, outcome⟩ := entry
      rw [collect, Outcome.bind_eq_ok_iff] at hcollect
      obtain ⟨form, hform, hrest⟩ := hcollect
      obtain ⟨rest, hcollect, hentries⟩ := Outcome.bind_eq_ok_iff.mp hrest
      cases hentries
      rw [ih hcollect, hform, List.map_cons, succeeded]

theorem assemble_map_succeeded (entries : List (Text × Option Form)) :
    assemble (entries.map succeeded) = .ok (some (gather (sortEntries entries)).form) := by
  rw [assemble, sortEntries_map succeeded fun _ => rfl, collect_map_succeeded, Outcome.ok_bind]

/-- An object is assembled only if all entries succeed. -/
theorem exists_entries_of_assemble {outcomes : List (Text × Except Fault (Option Form))}
    {form : Option Form} (hassemble : assemble outcomes = .ok form) :
    ∃ entries : List (Text × Option Form), outcomes = entries.map succeeded
      ∧ form = some (gather (sortEntries entries)).form := by
  obtain ⟨sorted, hcollect, hform⟩ := Outcome.bind_eq_ok_iff.mp hassemble
  have hsorted := eq_map_of_collect hcollect
  have hall : ∀ outcome ∈ outcomes, ∃ entry, succeeded entry = outcome := by
    intro outcome houtcome
    rw [← (sortEntries_perm outcomes).mem_iff, hsorted, List.mem_map] at houtcome
    obtain ⟨entry, -, hentry⟩ := houtcome
    exact ⟨entry, hentry⟩
  have hrange : outcomes ∈ Set.range (List.map succeeded) := by
    rw [Set.range_list_map]
    exact hall
  obtain ⟨entries, rfl⟩ := hrange
  refine ⟨entries, rfl, ?_⟩
  rw [assemble_map_succeeded] at hassemble
  exact (Except.ok.inj hassemble).symm

/-- Sorted entries with different names become members in the one arrangement of their names, all
but that of the link. -/
theorem gather_sorted {entries : List (Text × Form)} (hnodup : (entries.map Prod.fst).Nodup) :
    (gather ((sortEntries entries).map present)).members.Perm
        ((entries.filter fun entry => entry.1 ≠ linkName).map asMember)
      ∧ (Members.keys (gather ((sortEntries entries).map present)).members).Pairwise
        Members.Precedes := by
  have hsorted := sortEntries_perm entries
  have hnodupSorted : ((sortEntries entries).map Prod.fst).Nodup :=
    (hsorted.map Prod.fst).nodup_iff.mpr hnodup
  have hfilter : ((sortEntries entries).filter fun entry => entry.1 ≠ linkName).Sublist
      (sortEntries entries) := List.filter_sublist
  rw [gather_members, putEntries_of_nodup hnodupSorted]
  constructor
  · refine (Members.ofList_perm ?_).trans ((hsorted.filter _).map asMember)
    rw [List.map_map]
    exact hnodupSorted.sublist (hfilter.map Prod.fst)
  · refine Members.ofList_precedes (List.pairwise_map.mpr ?_)
    exact (sortEntries_pairwise entries).sublist hfilter

theorem collect_error {outcomes : List (Text × Except Fault (Option Form))} {fault : Fault}
    (herror : collect outcomes = .error fault) : ∃ key, (key, .error fault) ∈ outcomes := by
  induction outcomes with
  | nil => cases herror
  | cons entry outcomes ih =>
      obtain ⟨key, outcome⟩ := entry
      rw [collect, Outcome.bind_eq_error_iff] at herror
      rcases herror with rfl | ⟨document, -, hrest⟩
      · exact ⟨key, List.mem_cons_self⟩
      · rcases Outcome.bind_eq_error_iff.mp hrest with hcollect | ⟨rest, -, hok⟩
        · obtain ⟨other, hmem⟩ := ih hcollect
          exact ⟨other, List.mem_cons_of_mem _ hmem⟩
        · cases hok

/-- An object fails to be assembled only for the fault of an entry. -/
theorem assemble_error {outcomes : List (Text × Except Fault (Option Form))} {fault : Fault}
    (herror : assemble outcomes = .error fault) : ∃ key, (key, .error fault) ∈ outcomes := by
  rw [assemble, Outcome.bind_eq_error_iff] at herror
  rcases herror with hcollect | ⟨entries, -, hok⟩
  · obtain ⟨key, hmem⟩ := collect_error hcollect
    exact ⟨key, List.mem_mergeSort.mp hmem⟩
  · cases hok

/-- Whether an outcome leaves something: a document or a fault. -/
def leaves : Except Fault (Option Form) → Bool
  | .ok none => false
  | _ => true

theorem collect_filter (outcomes : List (Text × Except Fault (Option Form))) :
    collect (outcomes.filter fun outcome => leaves outcome.2)
      = (collect outcomes).map fun entries => entries.filter fun entry => entry.2.isSome := by
  induction outcomes with
  | nil => rfl
  | cons outcome outcomes ih =>
      obtain ⟨key, _ | _ | form⟩ := outcome
      · rfl
      · rw [List.filter_cons_of_neg (by simp [leaves]), ih, collect, Outcome.ok_bind]
        cases collect outcomes with
        | error fault => rfl
        | ok entries => rfl
      · rw [List.filter_cons_of_pos rfl, collect, Outcome.ok_bind, ih, collect, Outcome.ok_bind]
        cases collect outcomes with
        | error fault => rfl
        | ok entries => rfl

/-- **Nothing is missed** where an entry leaves nothing. -/
theorem assemble_filter (outcomes : List (Text × Except Fault (Option Form))) :
    assemble (outcomes.filter fun outcome => leaves outcome.2) = assemble outcomes := by
  rw [assemble, assemble, sortEntries_filter, collect_filter]
  cases collect (sortEntries outcomes) with
  | error fault => rfl
  | ok entries =>
      exact congrArg (fun filling => Except.ok (some filling.form)) (gather_filter entries)

end Value

end AngleSeries
