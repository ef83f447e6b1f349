import AngleSeries.Json.Basic
import Mathlib.Logic.Basic

/-!
# What holds throughout a document

A document is well built if its numbers and the keys of its objects are, at every depth. The numbers
are judged one by one and the keys of an object two by two, the earlier one first.
-/

namespace AngleSeries

namespace Json

def isCompound : Json → Bool
  | .array _ | .object _ => true
  | _ => false

/-- Induction over a document and all that stands in it. -/
@[elab_as_elim]
theorem nested_induction {motive : Json → Prop}
    (array : ∀ items, (∀ item ∈ items, motive item) → motive (.array items))
    (object : ∀ members, (∀ member ∈ members, motive member.2) → motive (.object members))
    (single : ∀ document, document.isCompound = false → motive document) (document : Json) :
    motive document := by
  match document with
  | .array items =>
      refine array items fun item hitem => ?_
      exact nested_induction array object single item
  | .object members =>
      refine object members fun member hmember => ?_
      exact nested_induction array object single member.2
  | .null | .bool _ | .number _ | .string _ => exact single _ rfl
termination_by sizeOf document
decreasing_by
  · have hlt := List.sizeOf_lt_of_mem hitem
    simp only [Json.array.sizeOf_spec]
    omega
  · obtain ⟨key, value⟩ := member
    have hlt := List.sizeOf_lt_of_mem hmember
    simp only [Prod.mk.sizeOf_spec, Json.object.sizeOf_spec] at hlt ⊢
    omega

/-- All numbers of the document satisfy `N`, and the keys of each object stand in relation `R`. -/
inductive Throughout (N : Double → Prop) (R : Text → Text → Prop) : Json → Prop where
  | null : Throughout N R .null
  | bool (value : Bool) : Throughout N R (.bool value)
  | number {x : Double} (hx : N x) : Throughout N R (.number x)
  | string (text : Text) : Throughout N R (.string text)
  | array {items : List Json} (hitems : ∀ item ∈ items, Throughout N R item) :
      Throughout N R (.array items)
  | object {members : Members Json} (hkeys : (Members.keys members).Pairwise R)
      (hvalues : ∀ member ∈ members, Throughout N R member.2) : Throughout N R (.object members)

namespace Throughout

variable {N M : Double → Prop} {R S : Text → Text → Prop} {document : Json}

theorem mono (hnumber : ∀ {x}, N x → M x) (hkey : ∀ {a b}, R a b → S a b)
    (hdocument : Throughout N R document) : Throughout M S document := by
  induction hdocument with
  | null => exact .null
  | bool value => exact .bool value
  | number hx => exact .number (hnumber hx)
  | string text => exact .string text
  | array _ ih => exact .array ih
  | object hkeys _ ih => exact .object (hkeys.imp hkey) ih

end Throughout

end Json

end AngleSeries
