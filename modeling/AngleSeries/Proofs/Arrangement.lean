import AngleSeries.Proofs.KeyOrder
import AngleSeries.Proofs.MemberOrder
import Mathlib.Data.List.Induction

/-!
# Arrangement of members

Putting a member keeps array indices in front and in order, whatever else is put. Members that are
put in the order of their keys come to stand in an arrangement that depends on the keys alone: the
indices first, by value, then the other keys in the order of their code units.
-/

namespace AngleSeries.Members

open Text

variable {α : Type} {members others : Members α} {key : Text} {value : α}

/-! ### Indices in front -/

theorem goesBefore_asymm {a b : Text} (hab : goesBefore a b = true) : goesBefore b a = false := by
  unfold goesBefore at hab ⊢
  grind

/-- What goes before a member goes before all that do not go before that member. -/
theorem goesBefore_of_not {a b c : Text} (hab : goesBefore a b = true)
    (hcb : goesBefore c b = false) : goesBefore a c = true := by
  unfold goesBefore at hab hcb ⊢
  grind

/-! ### Putting one member -/

@[simp]
theorem keys_nil : keys ([] : Members α) = [] := rfl

@[simp]
theorem keys_cons (member : Text × α) (members : Members α) :
    keys (member :: members) = member.1 :: keys members := rfl

theorem mem_keys_iff : key ∈ keys members ↔ (members.any fun member => member.1 == key) = true := by
  simp [keys]

theorem keys_replace : keys (replace key value members) = keys members := by
  induction members with
  | nil => rfl
  | cons member members ih =>
      rw [replace]
      split
      case isTrue hkey => rw [keys_cons, keys_cons, hkey]
      case isFalse => rw [keys_cons, keys_cons, ih]

theorem insertNew_perm : (insertNew key value members).Perm ((key, value) :: members) := by
  induction members with
  | nil => exact List.Perm.refl _
  | cons member members ih =>
      rw [insertNew]
      split
      · exact List.Perm.refl _
      · exact (ih.cons member).trans (List.Perm.swap _ _ _)

theorem mem_keys_insertNew {name : Text} :
    name ∈ keys (insertNew key value members) ↔ name = key ∨ name ∈ keys members := by
  have hkeys : (keys (insertNew key value members)).Perm (key :: keys members) :=
    insertNew_perm.map Prod.fst
  rw [hkeys.mem_iff, List.mem_cons]

theorem mem_keys_put {name : Text} :
    name ∈ keys (put members key value) ↔ name = key ∨ name ∈ keys members := by
  rw [put]
  split
  case isTrue hany =>
    rw [keys_replace]
    refine ⟨.inr, fun hname => hname.elim (fun heq => ?_) id⟩
    rw [heq, mem_keys_iff]
    exact hany
  case isFalse => exact mem_keys_insertNew

theorem eq_or_mem_of_mem_put {member : Text × α} (hmem : member ∈ put members key value) :
    member = (key, value) ∨ member ∈ members := by
  rw [put] at hmem
  split at hmem
  case isTrue =>
    induction members with
    | nil => cases hmem
    | cons first members ih => grind [replace]
  case isFalse => exact List.mem_cons.mp (insertNew_perm.mem_iff.mp hmem)

/-- A new member may be put without disturbing a relation of the keys before to those after it. -/
theorem insertNew_pairwise {R : Text → Text → Prop}
    (hfront : ∀ {a b}, R a b → goesBefore b a = false) (hpair : (keys members).Pairwise R)
    (hafter : ∀ name ∈ keys members, goesBefore key name = true → R key name)
    (hbefore : ∀ name ∈ keys members, goesBefore key name = false → R name key) :
    (keys (insertNew key value members)).Pairwise R := by
  induction members with
  | nil => exact List.pairwise_singleton _ _
  | cons member members ih =>
      obtain ⟨hhead, htail⟩ := List.pairwise_cons.mp hpair
      rw [insertNew]
      split
      case isTrue hgoes =>
        refine List.pairwise_cons.mpr ⟨fun name hname => ?_, hpair⟩
        refine hafter name hname ?_
        rcases List.mem_cons.mp hname with rfl | hmem
        · exact hgoes
        · exact goesBefore_of_not hgoes (hfront (hhead name hmem))
      case isFalse hstays =>
        refine List.pairwise_cons.mpr ⟨fun name hname => ?_, ih htail ?_ ?_⟩
        · rcases mem_keys_insertNew.mp hname with rfl | hmem
          · exact hbefore member.1 List.mem_cons_self (Bool.eq_false_iff.mpr hstays)
          · exact hhead name hmem
        · intro name hname
          exact hafter name (List.mem_cons_of_mem _ hname)
        · intro name hname
          exact hbefore name (List.mem_cons_of_mem _ hname)

theorem put_pairwise {R : Text → Text → Prop} (hfront : ∀ {a b}, R a b → goesBefore b a = false)
    (hpair : (keys members).Pairwise R)
    (hafter : ∀ name ∈ keys members, name ≠ key → goesBefore key name = true → R key name)
    (hbefore : ∀ name ∈ keys members, name ≠ key → goesBefore key name = false → R name key) :
    (keys (put members key value)).Pairwise R := by
  rw [put]
  split
  case isTrue =>
    rw [keys_replace]
    exact hpair
  case isFalse hnew =>
    rw [← mem_keys_iff] at hnew
    have hne : ∀ name ∈ keys members, name ≠ key := by
      rintro name hname rfl
      exact hnew hname
    exact insertNew_pairwise hfront hpair (fun name hname => hafter name hname (hne name hname))
      (fun name hname => hbefore name hname (hne name hname))

/-! ### Putting a list of members -/

theorem ofList_concat (entries : List (Text × α)) (entry : Text × α) :
    ofList (entries ++ [entry]) = put (ofList entries) entry.1 entry.2 := by
  rw [ofList, List.foldl_append]
  rfl

theorem mem_keys_ofList {entries : List (Text × α)} :
    key ∈ keys (ofList entries) ↔ key ∈ entries.map Prod.fst := by
  induction entries using List.reverseRecOn with
  | nil => rfl
  | append_singleton entries entry ih =>
      rw [ofList_concat, mem_keys_put, ih, List.map_append, List.mem_append, or_comm,
        List.map_singleton, List.mem_singleton]

/-- No member stands there that was not put. -/
theorem mem_of_mem_ofList {entries : List (Text × α)} {member : Text × α}
    (hmem : member ∈ ofList entries) : member ∈ entries := by
  induction entries using List.reverseRecOn with
  | nil => exact hmem
  | append_singleton entries entry ih =>
      rw [ofList_concat] at hmem
      rw [List.mem_append, List.mem_singleton]
      exact (eq_or_mem_of_mem_put hmem).symm.imp ih id

/-- Different keys, none of which goes in front of an earlier one. -/
def InFront (a b : Text) : Prop :=
  a ≠ b ∧ goesBefore b a = false

instance (a b : Text) : Decidable (InFront a b) :=
  inferInstanceAs (Decidable (a ≠ b ∧ goesBefore b a = false))

/-- However members are put, each key stands there once and the indices stand in front. -/
theorem ofList_inFront (entries : List (Text × α)) : (keys (ofList entries)).Pairwise InFront := by
  induction entries using List.reverseRecOn with
  | nil => exact List.Pairwise.nil
  | append_singleton entries entry ih =>
      rw [ofList_concat]
      refine put_pairwise And.right ih ?_ ?_
      · intro name _ hne hgoes
        exact ⟨hne.symm, goesBefore_asymm hgoes⟩
      · intro name _ hne hstays
        exact ⟨hne, hstays⟩

theorem nodup_of_inFront (hpair : (keys members).Pairwise InFront) : (keys members).Nodup :=
  hpair.imp And.left

theorem insertNew_eq_append (hlast : ∀ name ∈ keys members, goesBefore key name = false) :
    insertNew key value members = members ++ [(key, value)] := by
  induction members with
  | nil => rfl
  | cons member members ih =>
      rw [insertNew, hlast member.1 List.mem_cons_self, if_neg Bool.false_ne_true,
        ih fun name hname => hlast name (List.mem_cons_of_mem _ hname), List.cons_append]

theorem put_of_not_mem (hnew : key ∉ keys members) :
    put members key value = insertNew key value members := by
  rw [put, if_neg]
  rwa [← mem_keys_iff]

/-- Members in such an order are put just as they stand. -/
theorem ofList_eq_self (hpair : (keys members).Pairwise InFront) : ofList members = members := by
  induction members using List.reverseRecOn with
  | nil => rfl
  | append_singleton members member ih =>
      rw [keys, List.map_append, List.pairwise_append] at hpair
      obtain ⟨hmembers, -, hlast⟩ := hpair
      have hafter : ∀ name ∈ keys members, InFront name member.1 := by
        intro name hname
        exact hlast name hname member.1 (List.mem_singleton_self _)
      rw [ofList_concat, ih hmembers, put_of_not_mem fun hmem => (hafter _ hmem).1 rfl,
        insertNew_eq_append fun name hname => (hafter name hname).2]

theorem ofList_perm {entries : List (Text × α)} (hnodup : (entries.map Prod.fst).Nodup) :
    (ofList entries).Perm entries := by
  induction entries using List.reverseRecOn with
  | nil => exact List.Perm.refl _
  | append_singleton entries entry ih =>
      rw [List.map_append, List.nodup_append] at hnodup
      obtain ⟨hentries, -, hdisjoint⟩ := hnodup
      have hnew : entry.1 ∉ keys (ofList entries) := by
        rw [mem_keys_ofList]
        intro hmem
        exact hdisjoint _ hmem _ (List.mem_singleton_self _) rfl
      rw [ofList_concat, put_of_not_mem hnew]
      exact insertNew_perm.trans (((ih hentries).cons entry).trans
        (List.perm_append_singleton entry entries).symm)

/-! ### Putting members in the order of their keys -/

/-- Indices first, by value, then the other keys by their code units. -/
def Precedes (a b : Text) : Prop :=
  a ≠ b ∧ (goesBefore a b = true ∨ goesBefore b a = false ∧ keyLE a b = true)

theorem Precedes.inFront {a b : Text} (hab : Precedes a b) : InFront a b :=
  ⟨hab.1, hab.2.elim goesBefore_asymm And.left⟩

theorem Precedes.asymm {a b : Text} (hab : Precedes a b) : ¬ Precedes b a := by
  intro hba
  rcases hab.2 with hgoes | ⟨hstays, hle⟩
  · rw [hba.inFront.2] at hgoes
    cases hgoes
  · rcases hba.2 with hgoes | ⟨-, hge⟩
    · rw [hstays] at hgoes
      cases hgoes
    · exact hab.1 (keyLE_antisymm hle hge)

/-- Keys that come sorted come to stand in their arrangement. -/
theorem ofList_precedes {entries : List (Text × α)}
    (hsorted : entries.Pairwise fun a b => keyLE a.1 b.1 = true) :
    (keys (ofList entries)).Pairwise Precedes := by
  induction entries using List.reverseRecOn with
  | nil => exact List.Pairwise.nil
  | append_singleton entries entry ih =>
      obtain ⟨hentries, -, hlast⟩ := List.pairwise_append.mp hsorted
      have hle : ∀ name ∈ keys (ofList entries), keyLE name entry.1 = true := by
        intro name hname
        rw [mem_keys_ofList, List.mem_map] at hname
        obtain ⟨earlier, hearlier, rfl⟩ := hname
        exact hlast earlier hearlier entry (List.mem_singleton_self _)
      rw [ofList_concat]
      refine put_pairwise (fun hab => hab.inFront.2) (ih hentries) ?_ ?_
      · intro name _ hne hgoes
        exact ⟨hne.symm, .inl hgoes⟩
      · intro name hname hne hstays
        exact ⟨hne, .inr ⟨hstays, hle name hname⟩⟩

/-- **One arrangement.** The keys decide where their members stand. -/
theorem eq_of_perm_of_precedes (hperm : members.Perm others)
    (hmembers : (keys members).Pairwise Precedes) (hothers : (keys others).Pairwise Precedes) :
    members = others := by
  rw [keys, List.pairwise_map] at hmembers hothers
  refine hperm.eq_of_pairwise (fun a b _ _ hab hba => ?_) hmembers hothers
  exact absurd hba hab.asymm

end AngleSeries.Members
