import AngleSeries.Proofs.SettledDocuments

/-!
# What writing comes across

On its way into a document a value is opened up: an array into its items, a map and a plain object
into their entries, and whatever offers something to stand for it into what it offers. Writing is
refused exactly for a value that is reached in this way and has no place in a document, and what is
not reached can be anything.
-/

namespace AngleSeries

namespace Value

open Canonical

/-- What a value offers to stand for it: a stand-in offers the value behind it, a decimal and a date
their text, and an object with a procedure of that name offers nothing at all. -/
def offered? : Value → Option Value
  | .standIn value => some value
  | .decimal value => some (.string value.signedText)
  | .date instant => some (ofJson (Json.ofInstant instant))
  | .object _ members => if isWithdrawn members then some .absent else none
  | _ => none

/-- A value comes across another one when it is written: across itself, and across all that the
items of an array, the value that is offered, and the entries of a map or an object come across. An
object is opened up only if it is no instance of a class and offers nothing. -/
inductive Reaches : Value → Value → Prop where
  | here (value : Value) : Reaches value value
  | offer {value other node : Value} (hoffer : value.offered? = some other)
      (hnode : Reaches other node) : Reaches value node
  | item {items : List Value} {item node : Value} (hitem : item ∈ items)
      (hnode : Reaches item node) : Reaches (.array items) node
  | entry {entries : List (Value × Value)} {entry : Value × Value} {node : Value}
      (hentry : entry ∈ entries) (hnode : Reaches entry.2 node) : Reaches (.map entries) node
  | member {kind : ObjectKind} {members : List (Text × Value)} {member : Text × Value}
      {node : Value} (hkind : kind ≠ .instanceOf) (hoffer : offered? (.object kind members) = none)
      (hmember : member ∈ members) (hnode : Reaches member.2 node) :
      Reaches (.object kind members) node

/-- The fault of a value that has no place in a document: a number that is not finite, or an object
that is neither an array nor a map nor plain and offers nothing to stand for it. -/
def refusal? : Value → Option Fault
  | .number x => if x.isFinite then none else some (.nonFiniteNumber x.text)
  | .object .instanceOf members =>
    if isWithdrawn members then none else some (.unsupported "Object")
  | .set _ => some (.unsupported "Set")
  | .error _ => some (.unsupported "Error")
  | .pattern _ => some (.unsupported "RegExp")
  | _ => none

/-- Values that are compared by what they are and not by where they are. -/
def isPrimitive : Value → Bool
  | .absent | .null | .bool _ | .number _ | .integer _ | .string _ | .symbol _ => true
  | _ => false

/-- Every map that is reached has primitive keys. -/
def PrimitiveKeys (value : Value) : Prop :=
  ∀ entries, value.Reaches (.map entries) → ∀ entry ∈ entries, entry.1.isPrimitive = true

theorem isSome_label?_of_isPrimitive {key : Value} (hkey : key.isPrimitive = true) :
    key.label?.isSome = true := by
  cases key <;> first | rfl | cases hkey

theorem offered?_object_eq_none_iff {kind : ObjectKind} {members : List (Text × Value)} :
    offered? (.object kind members) = none ↔ isWithdrawn members = false := by
  cases hwithdrawn : isWithdrawn members <;> simp [offered?, hwithdrawn]

theorem PrimitiveKeys.of_reaches {value part : Value} (hkeys : value.PrimitiveKeys)
    (hpart : ∀ node, part.Reaches node → value.Reaches node) : part.PrimitiveKeys :=
  fun entries hentries => hkeys entries (hpart _ hentries)

theorem PrimitiveKeys.all_label? {entries : List (Value × Value)}
    (hkeys : PrimitiveKeys (.map entries)) :
    (entries.all fun entry => entry.1.label?.isSome) = true :=
  List.all_eq_true.mpr fun entry hentry =>
    isSome_label?_of_isPrimitive (hkeys entries (.here _) entry hentry)

/-! ### A fault comes from a value that is reached -/

theorem exists_item_of_error {items : List Value} {fault : Fault}
    (herror : normalizeItems items = .error fault) :
    ∃ item ∈ items, item.normalize = .error fault := by
  induction items with
  | nil => cases herror
  | cons item items ih =>
      rw [normalizeItems, Outcome.bind_eq_error_iff] at herror
      rcases herror with hitem | ⟨form, -, hrest⟩
      · exact ⟨item, List.mem_cons_self, hitem⟩
      · rcases Outcome.bind_eq_error_iff.mp hrest with hitems | ⟨rest, -, hok⟩
        · obtain ⟨other, hother, hfault⟩ := ih hitems
          exact ⟨other, List.mem_cons_of_mem _ hother, hfault⟩
        · cases hok

/-- A map with a key that has no text even as a key. -/
def HidesKey : Value → Prop
  | .map entries => ∃ entry ∈ entries, entry.1.label? = none
  | _ => False

/-- **Whence a fault.** A value that cannot be written reaches the value whose fault this is, or a
map with a key that has no text. -/
theorem exists_source_of_error {value : Value} {fault : Fault}
    (herror : value.normalize = .error fault) :
    ∃ node, value.Reaches node
      ∧ (node.refusal? = some fault ∨ node.HidesKey ∧ fault = .wrongKind) := by
  induction value using nested_induction with
  | array items ih =>
      rw [normalize] at herror
      cases hitems : normalizeItems items with
      | ok documents =>
          rw [hitems] at herror
          cases herror
      | error other =>
          rw [hitems] at herror
          cases herror
          obtain ⟨item, hitem, hfault⟩ := exists_item_of_error hitems
          obtain ⟨node, hnode, hsource⟩ := ih item hitem hfault
          exact ⟨node, .item hitem hnode, hsource⟩
  | object kind members ih =>
      rw [normalize] at herror
      split at herror
      case isTrue => cases herror
      case isFalse hwithdrawn =>
        have hoffer : offered? (.object kind members) = none :=
          offered?_object_eq_none_iff.mpr (Bool.eq_false_of_not_eq_true hwithdrawn)
        split at herror
        case isTrue hkind =>
          cases herror
          subst hkind
          exact ⟨_, .here _, .inl (if_neg hwithdrawn)⟩
        case isFalse hkind =>
          obtain ⟨key, hmem⟩ := assemble_error herror
          rw [normalizeMembers_eq_map] at hmem
          obtain ⟨member, hmember, heq⟩ := List.mem_map.mp hmem
          have hfault : member.2.normalize = .error fault := congrArg Prod.snd heq
          obtain ⟨node, hnode, hsource⟩ := ih member hmember hfault
          exact ⟨node, .member hkind hoffer hmember hnode, hsource⟩
  | map entries ih =>
      rw [normalize] at herror
      split at herror
      case isTrue =>
        obtain ⟨key, hmem⟩ := assemble_error herror
        rw [normalizeEntries_eq_map] at hmem
        obtain ⟨entry, hentry, heq⟩ := List.mem_map.mp hmem
        have hfault : entry.2.normalize = .error fault := congrArg Prod.snd heq
        obtain ⟨node, hnode, hsource⟩ := ih entry hentry hfault
        exact ⟨node, .entry hentry hnode, hsource⟩
      case isFalse hall =>
        cases herror
        refine ⟨_, .here _, .inr ⟨?_, rfl⟩⟩
        simpa [HidesKey] using hall
  | standIn value ih =>
      rw [normalize] at herror
      obtain ⟨node, hnode, hsource⟩ := ih herror
      exact ⟨node, .offer rfl hnode, hsource⟩
  | single value hsingle =>
      refine ⟨value, .here value, .inl ?_⟩
      cases value with
      | number x =>
          rw [normalize] at herror
          split at herror
          case isTrue hfinite =>
            cases herror
            exact if_neg (by simpa using hfinite)
          case isFalse => cases herror
      | set | error | pattern =>
          cases herror
          rfl
      | array | object | map | standIn => cases hsingle
      | absent | null | bool | integer | string | decimal | date | procedure | symbol =>
          cases herror

theorem PrimitiveKeys.not_hidesKey {value node : Value} (hkeys : value.PrimitiveKeys)
    (hnode : value.Reaches node) : ¬ node.HidesKey := by
  intro hhides
  cases node with
  | map entries =>
      obtain ⟨entry, hentry, hlabel⟩ := hhides
      have hsome := isSome_label?_of_isPrimitive (hkeys entries hnode entry hentry)
      rw [hlabel] at hsome
      cases hsome
  | _ => exact hhides

theorem exists_refused_of_error {value : Value} (hkeys : value.PrimitiveKeys) {fault : Fault}
    (herror : value.normalize = .error fault) :
    ∃ node, value.Reaches node ∧ node.refusal? = some fault := by
  obtain ⟨node, hnode, hrefusal | ⟨hhides, -⟩⟩ := exists_source_of_error herror
  · exact ⟨node, hnode, hrefusal⟩
  · exact absurd hhides (hkeys.not_hidesKey hnode)

/-! ### Nothing that is reached is refused -/

theorem exists_form_of_item {items : List Value} {documents : List Json}
    (hitems : normalizeItems items = .ok documents) {item : Value} (hitem : item ∈ items) :
    ∃ form, item.normalize = .ok form := by
  induction items generalizing documents with
  | nil => cases hitem
  | cons first items ih =>
      rw [normalizeItems, Outcome.bind_eq_ok_iff] at hitems
      obtain ⟨form, hform, hnext⟩ := hitems
      obtain ⟨rest, hrest, -⟩ := Outcome.bind_eq_ok_iff.mp hnext
      rcases List.mem_cons.mp hitem with rfl | hmem
      · exact ⟨form, hform⟩
      · exact ih hrest hmem

theorem exists_form_of_outcome {outcomes : List (Text × Except Fault (Option Form))}
    {form : Option Form} (hassemble : assemble outcomes = .ok form)
    {outcome : Text × Except Fault (Option Form)} (houtcome : outcome ∈ outcomes) :
    ∃ form, outcome.2 = .ok form := by
  obtain ⟨entries, rfl, -⟩ := exists_entries_of_assemble hassemble
  obtain ⟨entry, -, rfl⟩ := List.mem_map.mp houtcome
  exact ⟨entry.2, rfl⟩

theorem refusal?_of_normalize {value : Value} {form : Option Form}
    (hnormal : value.normalize = .ok form) : value.refusal? = none := by
  cases value with
  | number x =>
      rw [normalize] at hnormal
      split at hnormal
      case isTrue => cases hnormal
      case isFalse hfinite => exact if_pos (by simpa using hfinite)
  | object kind members =>
      cases kind with
      | plain | bare => rfl
      | instanceOf =>
          rw [normalize] at hnormal
          split at hnormal
          case isTrue hwithdrawn => exact if_pos hwithdrawn
          case isFalse => cases hnormal
  | set | error | pattern => cases hnormal
  | absent | null | bool | integer | string | decimal | array | map | standIn | date | procedure
    | symbol => rfl

/-- What is offered has a document if the value that offers it has one. -/
theorem exists_form_of_offered? {value other : Value} (hoffer : value.offered? = some other)
    {form : Option Form} (hnormal : value.normalize = .ok form) :
    ∃ form, other.normalize = .ok form := by
  cases value with
  | standIn value =>
      cases hoffer
      rw [normalize] at hnormal
      exact ⟨form, hnormal⟩
  | decimal value =>
      cases hoffer
      exact ⟨_, rfl⟩
  | date instant =>
      cases hoffer
      cases instant <;> exact ⟨_, rfl⟩
  | object kind members =>
      rw [offered?] at hoffer
      split at hoffer
      · cases hoffer
        exact ⟨_, rfl⟩
      · cases hoffer
  | absent | null | bool | number | integer | string | array | map | set | error | pattern
    | procedure | symbol => cases hoffer

/-- **All that is reached has its place** in the document of a value that is written. -/
theorem refusal?_of_reaches {value node : Value} (hnode : value.Reaches node) {form : Option Form}
    (hnormal : value.normalize = .ok form) : node.refusal? = none := by
  induction hnode generalizing form with
  | here value => exact refusal?_of_normalize hnormal
  | offer hoffer _ ih =>
      obtain ⟨other, hother⟩ := exists_form_of_offered? hoffer hnormal
      exact ih hother
  | item hitem _ ih =>
      obtain ⟨documents, hitems, -⟩ := array_of_normalize hnormal
      obtain ⟨other, hother⟩ := exists_form_of_item hitems hitem
      exact ih hother
  | entry hentry _ ih =>
      obtain ⟨other, hother⟩ :=
        exists_form_of_outcome (map_of_normalize hnormal) (List.mem_map_of_mem hentry)
      exact ih hother
  | member hkind hoffer hmember _ ih =>
      rw [normalize, offered?_object_eq_none_iff.mp hoffer, if_neg Bool.false_ne_true, if_neg hkind,
        normalizeMembers_eq_map] at hnormal
      obtain ⟨other, hother⟩ := exists_form_of_outcome hnormal (List.mem_map_of_mem hmember)
      exact ih hother

end Value

end AngleSeries
