import AngleSeries.Proofs.DocumentTexts
import AngleSeries.Proofs.Gathering
import AngleSeries.Proofs.NamedMembers

/-!
# Settled documents

Every document that the canonical form writes is settled: its numbers are finite and no zero has a
sign, and the members of each object stand in the one arrangement that sorted keys come to.
-/

namespace AngleSeries

namespace Value

/-- Values that a document is made of part by part. -/
def isNested : Value → Bool
  | .array _ | .object .. | .map _ | .standIn _ => true
  | _ => false

/-- Induction over a value and all that stands in it. -/
@[elab_as_elim]
theorem nested_induction {motive : Value → Prop}
    (array : ∀ items, (∀ item ∈ items, motive item) → motive (.array items))
    (object : ∀ kind members, (∀ member ∈ members, motive member.2) →
      motive (.object kind members))
    (map : ∀ entries, (∀ entry ∈ entries, motive entry.2) → motive (.map entries))
    (standIn : ∀ value, motive value → motive (.standIn value))
    (single : ∀ value, value.isNested = false → motive value) (value : Value) : motive value := by
  match value with
  | .array items =>
      refine array items fun item hitem => ?_
      exact nested_induction array object map standIn single item
  | .object kind members =>
      refine object kind members fun member hmember => ?_
      exact nested_induction array object map standIn single member.2
  | .map entries =>
      refine map entries fun entry hentry => ?_
      exact nested_induction array object map standIn single entry.2
  | .standIn value => exact standIn value (nested_induction array object map standIn single value)
  | .absent | .null | .bool _ | .number _ | .integer _ | .string _ | .decimal _ | .set _ | .date _
  | .error _ | .pattern _ | .procedure _ | .symbol _ => exact single _ rfl
termination_by sizeOf value
decreasing_by
  · have hlt := List.sizeOf_lt_of_mem hitem
    simp only [Value.array.sizeOf_spec]
    omega
  · obtain ⟨key, value⟩ := member
    have hlt := List.sizeOf_lt_of_mem hmember
    simp only [Prod.mk.sizeOf_spec, Value.object.sizeOf_spec] at hlt ⊢
    omega
  · obtain ⟨key, value⟩ := entry
    have hlt := List.sizeOf_lt_of_mem hentry
    simp only [Prod.mk.sizeOf_spec, Value.map.sizeOf_spec] at hlt ⊢
    omega
  · simp only [Value.standIn.sizeOf_spec]
    omega

end Value

namespace Double

theorem isFinite_plainZero {x : Double} (hx : x.isFinite = true) : x.plainZero.isFinite = true := by
  rw [plainZero]
  split_ifs
  · rw [zero_eq_signedZero]
    rfl
  · exact hx

theorem plainZero_plainZero (x : Double) : x.plainZero.plainZero = x.plainZero := by
  by_cases hzero : x.isZero = true
  · have hplain : x.plainZero = 0 := by rw [plainZero, if_pos hzero]
    rw [hplain, plainZero, if_pos]
    rw [zero_eq_signedZero]
    rfl
  · have hplain : x.plainZero = x := by rw [plainZero, if_neg hzero]
    rw [hplain, hplain]

end Double

namespace Json

/-- A document as the canonical form has it. -/
abbrev Settled : Json → Prop :=
  Throughout IsPlain Members.Precedes

end Json

namespace Value

open Canonical Members

/-- What is assembled is settled if its parts are. -/
theorem settled_of_assemble {outcomes : List (Text × Except Fault (Option Form))} {form : Form}
    (hassemble : assemble outcomes = .ok (some form))
    (hparts : ∀ outcome ∈ outcomes, ∀ part, outcome.2 = .ok (some part) → part.document.Settled) :
    form.document.Settled := by
  obtain ⟨entries, rfl, hform⟩ := exists_entries_of_assemble hassemble
  cases hform
  rw [Filling.form, gather_members]
  have hsorted : (putEntries true (sortEntries entries)).Pairwise
      fun a b => Text.keyLE a.1 b.1 = true := by
    have hkeys : ((sortEntries entries).map Prod.fst).Pairwise fun a b => Text.keyLE a b = true :=
      List.pairwise_map.mpr (sortEntries_pairwise entries)
    exact List.pairwise_map.mp (hkeys.sublist (putEntries_sublist true _))
  refine .object (ofList_precedes hsorted) fun member hmember => ?_
  obtain ⟨part, hpart, hdocument⟩ := exists_form_of_mem (mem_of_mem_ofList hmember)
  rw [(sortEntries_perm entries).mem_iff] at hpart
  rw [← hdocument]
  exact hparts (succeeded (member.1, some part)) (List.mem_map_of_mem hpart) part rfl

/-! Each kind of nested value has its document from its parts. -/

theorem array_of_normalize {items : List Value} {form : Option Form}
    (hnormal : (Value.array items).normalize = .ok form) :
    ∃ documents, normalizeItems items = .ok documents
      ∧ form = some (.ofDocument (.array documents)) := by
  rw [normalize] at hnormal
  obtain ⟨documents, hitems, hform⟩ := Outcome.map_eq_ok_iff.mp hnormal
  exact ⟨documents, hitems, hform.symm⟩

theorem object_of_normalize {kind : ObjectKind} {members : List (Text × Value)} {form : Form}
    (hnormal : (Value.object kind members).normalize = .ok (some form)) :
    assemble (members.map fun member => (member.1, member.2.normalize)) = .ok (some form) := by
  rw [normalize] at hnormal
  split at hnormal
  · cases hnormal
  split at hnormal
  · cases hnormal
  rwa [normalizeMembers_eq_map] at hnormal

theorem map_of_normalize {entries : List (Value × Value)} {form : Option Form}
    (hnormal : (Value.map entries).normalize = .ok form) :
    assemble (entries.map fun entry => (entry.1.label?.getD "", entry.2.normalize)) = .ok form := by
  rw [normalize] at hnormal
  split at hnormal
  case isTrue => rwa [normalizeEntries_eq_map] at hnormal
  case isFalse => cases hnormal

/-- What stands in an array comes from an item, or fills the gap that one leaves. -/
theorem exists_item_of_mem {items : List Value} {documents : List Json}
    (hitems : normalizeItems items = .ok documents) {document : Json}
    (hmem : document ∈ documents) :
    document = .null
      ∨ ∃ item ∈ items, ∃ form, item.normalize = .ok (some form) ∧ form.document = document := by
  induction items generalizing documents with
  | nil =>
      cases hitems
      cases hmem
  | cons item items ih =>
      rw [normalizeItems, Outcome.bind_eq_ok_iff] at hitems
      obtain ⟨form, hform, hnext⟩ := hitems
      obtain ⟨rest, hrest, hdocuments⟩ := Outcome.bind_eq_ok_iff.mp hnext
      cases hdocuments
      rcases List.mem_cons.mp hmem with rfl | hmem
      · cases form with
        | none => exact .inl rfl
        | some form => exact .inr ⟨item, List.mem_cons_self, form, hform, rfl⟩
      · refine (ih hrest hmem).imp_right ?_
        rintro ⟨other, hother, hnormal⟩
        exact ⟨other, List.mem_cons_of_mem _ hother, hnormal⟩

/-- A value with nothing in it has a settled document with nothing in it. -/
theorem single_of_normalize {value : Value} (hsingle : value.isNested = false) {form : Form}
    (hnormal : value.normalize = .ok (some form)) :
    form.document.isCompound = false ∧ form.document.Settled := by
  cases value with
  | number x =>
      rw [normalize, ← Double.plainZero] at hnormal
      split at hnormal
      case isTrue => cases hnormal
      case isFalse hfinite =>
        cases hnormal
        have hx : x.isFinite = true := by simpa using hfinite
        exact ⟨rfl, .number ⟨Double.isFinite_plainZero hx, Double.plainZero_plainZero x⟩⟩
  | array | object | map | standIn => cases hsingle
  | absent | procedure | symbol | set | error | pattern => cases hnormal
  | null =>
      cases hnormal
      exact ⟨rfl, .null⟩
  | bool value =>
      cases hnormal
      exact ⟨rfl, .bool value⟩
  | integer value =>
      cases hnormal
      exact ⟨rfl, .string _⟩
  | string value =>
      cases hnormal
      exact ⟨rfl, .string value⟩
  | decimal value =>
      cases hnormal
      exact ⟨rfl, .string _⟩
  | date instant =>
      cases hnormal
      cases instant with
      | none => exact ⟨rfl, .null⟩
      | some instant => exact ⟨rfl, .string _⟩

/-- **What is normalized is settled.** -/
theorem settled_of_normalize {value : Value} {form : Form}
    (hnormal : value.normalize = .ok (some form)) : form.document.Settled := by
  induction value using nested_induction generalizing form with
  | array items ih =>
      obtain ⟨documents, hitems, hform⟩ := array_of_normalize hnormal
      cases hform
      refine .array fun document hdocument => ?_
      rcases exists_item_of_mem hitems hdocument with rfl | ⟨item, hitem, form, hform, rfl⟩
      · exact .null
      · exact ih item hitem hform
  | object kind members ih =>
      refine settled_of_assemble (object_of_normalize hnormal) fun outcome houtcome part hpart => ?_
      obtain ⟨member, hmember, rfl⟩ := List.mem_map.mp houtcome
      exact ih member hmember hpart
  | map entries ih =>
      refine settled_of_assemble (map_of_normalize hnormal) fun outcome houtcome part hpart => ?_
      obtain ⟨entry, hentry, rfl⟩ := List.mem_map.mp houtcome
      exact ih entry hentry hpart
  | standIn value ih =>
      rw [normalize] at hnormal
      exact ih hnormal
  | single value hsingle => exact (single_of_normalize hsingle hnormal).2

end Value

end AngleSeries
