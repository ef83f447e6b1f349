import AngleSeries.Proofs.Documents

/-!
# Members of a name

A document may name a key at any depth. Without the members of that name it is the same document
exactly if it does not name the key.
-/

namespace AngleSeries

namespace Json

/-- Somewhere in the document an object has a member of the name. -/
inductive Names (key : Text) : Json → Prop where
  | here {members : List (Text × Json)} {value : Json} (hmember : (key, value) ∈ members) :
      Names key (.object members)
  | member {members : List (Text × Json)} {name : Text} {value : Json}
      (hmember : (name, value) ∈ members) (hvalue : Names key value) : Names key (.object members)
  | item {items : List Json} {item : Json} (hitem : item ∈ items) (hnames : Names key item) :
      Names key (.array items)

mutual

/-- The document without the members of a name, at any depth. -/
def without (key : Text) : Json → Json
  | .array items => .array (withoutItems key items)
  | .object members => .object (withoutMembers key members)
  | document => document

def withoutItems (key : Text) : List Json → List Json
  | [] => []
  | item :: items => without key item :: withoutItems key items

def withoutMembers (key : Text) : List (Text × Json) → List (Text × Json)
  | [] => []
  | (name, value) :: members =>
    if name = key then withoutMembers key members
    else (name, without key value) :: withoutMembers key members

end

section Names

variable {key : Text}

theorem names_array_iff {items : List Json} :
    Names key (.array items) ↔ ∃ item ∈ items, Names key item := by
  constructor
  · intro hnames
    cases hnames with
    | item hitem hnames => exact ⟨_, hitem, hnames⟩
  · rintro ⟨item, hitem, hnames⟩
    exact .item hitem hnames

theorem names_object_iff {members : List (Text × Json)} :
    Names key (.object members) ↔ ∃ member ∈ members, member.1 = key ∨ Names key member.2 := by
  constructor
  · intro hnames
    cases hnames with
    | here hmember => exact ⟨_, hmember, .inl rfl⟩
    | member hmember hnames => exact ⟨_, hmember, .inr hnames⟩
  · rintro ⟨⟨name, value⟩, hmember, rfl | hnames⟩
    · exact .here hmember
    · exact .member hmember hnames

end Names

variable (key : Text)

theorem withoutItems_eq_map (items : List Json) :
    withoutItems key items = items.map (without key) := by
  induction items with
  | nil => rfl
  | cons item items ih => rw [withoutItems, ih, List.map_cons]

theorem withoutMembers_eq_map (members : List (Text × Json)) :
    withoutMembers key members = (members.filter fun member => member.1 ≠ key).map
      fun member => (member.1, member.2.without key) := by
  induction members with
  | nil => rfl
  | cons member members ih =>
      obtain ⟨name, value⟩ := member
      by_cases hname : name = key
      · rw [withoutMembers, if_pos hname, ih, List.filter_cons_of_neg (by simp [hname])]
      · rw [withoutMembers, if_neg hname, ih, List.filter_cons_of_pos (by simp [hname]),
          List.map_cons]

theorem not_names_of_single {document : Json} (hsingle : document.isCompound = false) :
    ¬ Names key document := by
  intro hnames
  cases hnames <;> cases hsingle

theorem not_names_without (document : Json) : ¬ Names key (document.without key) := by
  induction document using nested_induction with
  | array items ih =>
      rw [without, withoutItems_eq_map, names_array_iff]
      rintro ⟨_, hmem, hnames⟩
      obtain ⟨item, hitem, rfl⟩ := List.mem_map.mp hmem
      exact ih item hitem hnames
  | object members ih =>
      rw [without, withoutMembers_eq_map, names_object_iff]
      rintro ⟨_, hmem, hnames⟩
      obtain ⟨member, hfilter, rfl⟩ := List.mem_map.mp hmem
      obtain ⟨hmember, hkey⟩ := List.mem_filter.mp hfilter
      rcases hnames with hname | hnames
      · exact of_decide_eq_true hkey hname
      · exact ih member hmember hnames
  | single document hsingle =>
      have hself : document.without key = document := by
        cases document with
        | array | object => cases hsingle
        | null | bool | number | string => rfl
      rw [hself]
      exact not_names_of_single key hsingle

/-- Only a document that has the name loses something. -/
theorem without_eq_self_iff {document : Json} :
    document.without key = document ↔ ¬ Names key document := by
  constructor
  · intro hself hnames
    rw [← hself] at hnames
    exact not_names_without key document hnames
  · intro hnames
    induction document using nested_induction with
    | array items ih =>
        have hitems : items.map (without key) = items.map id := by
          refine List.map_congr_left fun item hitem => ih item hitem fun hname => ?_
          exact hnames (.item hitem hname)
        rw [without, withoutItems_eq_map, hitems, List.map_id]
    | object members ih =>
        have hfilter : (members.filter fun member => member.1 ≠ key) = members := by
          refine List.filter_eq_self.mpr fun member hmember => decide_eq_true fun hkey => ?_
          subst hkey
          exact hnames (.here hmember)
        have hmembers : (members.map fun member => (member.1, member.2.without key))
            = members.map id := by
          refine List.map_congr_left fun member hmember => ?_
          rw [ih member hmember fun hname => hnames (.member hmember hname)]
          rfl
        rw [without, withoutMembers_eq_map, hfilter, hmembers, List.map_id]
    | single document hsingle =>
        cases document with
        | array | object => cases hsingle
        | null | bool | number | string => rfl

theorem keys_withoutMembers_sublist (members : List (Text × Json)) :
    ((withoutMembers key members).map Prod.fst).Sublist (members.map Prod.fst) := by
  rw [withoutMembers_eq_map, List.map_map]
  exact List.filter_sublist.map Prod.fst

theorem Throughout.without {N : Double → Prop} {R : Text → Text → Prop} {document : Json}
    (hdocument : Throughout N R document) : Throughout N R (document.without key) := by
  induction hdocument with
  | null => exact .null
  | bool value => exact .bool value
  | number hx => exact .number hx
  | string text => exact .string text
  | array _ ih =>
      rw [Json.without, withoutItems_eq_map]
      refine .array fun item hitem => ?_
      obtain ⟨item, hmem, rfl⟩ := List.mem_map.mp hitem
      exact ih item hmem
  | object hkeys _ ih =>
      rw [Json.without]
      refine .object (hkeys.sublist (keys_withoutMembers_sublist key _)) fun member hmember => ?_
      rw [withoutMembers_eq_map] at hmember
      obtain ⟨member, hmem, rfl⟩ := List.mem_map.mp hmember
      exact ih member (List.mem_filter.mp hmem).1

end Json

end AngleSeries
