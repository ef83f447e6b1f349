import AngleSeries.Proofs.ReachedValues

/-!
# Values without voids

An absent value, a procedure and a symbol are void: they have no document and are no fault either.
A value is tidied by taking out all that is void or stands for something void: an entry of an object
or a map goes, and an item of an array is replaced by null, because the items after it keep their
places. Writing does not notice, so these values change nothing but this about a text, and they
never make writing fail.
-/

namespace AngleSeries

namespace Value

open Canonical

/-- Values without a document. -/
def isVoid : Value → Bool
  | .absent | .procedure _ | .symbol _ => true
  | _ => false

mutual

/-- The value without all that has no document; `none` if nothing is left. -/
def tidied : Value → Option Value
  | .absent | .procedure _ | .symbol _ => none
  | .array items => some (.array (tidiedItems items))
  | .object kind members =>
    if isWithdrawn members then none else some (.object kind (tidiedMembers members))
  | .map entries => some (.map (tidiedEntries entries))
  | .standIn value => (tidied value).map .standIn
  | value => some value

def tidiedItems : List Value → List Value
  | [] => []
  | item :: items => (tidied item).getD .null :: tidiedItems items

def tidiedMembers : List (Text × Value) → List (Text × Value)
  | [] => []
  | (key, value) :: members =>
    match tidied value with
    | some value => (key, value) :: tidiedMembers members
    | none => tidiedMembers members

def tidiedEntries : List (Value × Value) → List (Value × Value)
  | [] => []
  | (key, value) :: entries =>
    match tidied value with
    | some value => (key, value) :: tidiedEntries entries
    | none => tidiedEntries entries

end

def tidiedRoot (value : Value) : Value :=
  value.tidied.getD .null

def tidiedEntry {κ : Type} (entry : κ × Value) : Option (κ × Value) :=
  entry.2.tidied.map fun value => (entry.1, value)

theorem tidiedItems_eq_map (items : List Value) : tidiedItems items = items.map tidiedRoot := by
  induction items with
  | nil => rfl
  | cons item items ih => rw [tidiedItems, ih, List.map_cons, tidiedRoot]

theorem tidiedMembers_eq_filterMap (members : List (Text × Value)) :
    tidiedMembers members = members.filterMap tidiedEntry := by
  induction members with
  | nil => rfl
  | cons member members ih =>
      rw [tidiedMembers, ih, List.filterMap_cons, tidiedEntry]
      cases member.2.tidied <;> rfl

theorem tidiedEntries_eq_filterMap (entries : List (Value × Value)) :
    tidiedEntries entries = entries.filterMap tidiedEntry := by
  induction entries with
  | nil => rfl
  | cons entry entries ih =>
      rw [tidiedEntries, ih, List.filterMap_cons, tidiedEntry]
      cases entry.2.tidied <;> rfl

theorem mem_filterMap_tidiedEntry {κ : Type} {entries : List (κ × Value)} {entry : κ × Value}
    (hmem : entry ∈ entries.filterMap tidiedEntry) :
    ∃ original ∈ entries, original.1 = entry.1 ∧ original.2.tidied = some entry.2 := by
  obtain ⟨original, horiginal, hentry⟩ := List.mem_filterMap.mp hmem
  obtain ⟨value, hvalue, rfl⟩ := Option.map_eq_some_iff.mp hentry
  exact ⟨original, horiginal, rfl, hvalue⟩

/-! ### Writing does not notice -/

/-- A value is written like what is left of it, and has no document if nothing is. -/
def KeepsForm (value : Value) : Prop :=
  match value.tidied with
  | none => value.normalize = .ok none
  | some other => other.normalize = value.normalize ∧ leaves value.normalize = true

theorem KeepsForm.of_none {value : Value} (hkeeps : value.KeepsForm)
    (htidied : value.tidied = none) : value.normalize = .ok none := by
  rwa [KeepsForm, htidied] at hkeeps

theorem KeepsForm.of_some {value other : Value} (hkeeps : value.KeepsForm)
    (htidied : value.tidied = some other) :
    other.normalize = value.normalize ∧ leaves value.normalize = true := by
  rwa [KeepsForm, htidied] at hkeeps

theorem leaves_assemble (outcomes : List (Text × Except Fault (Option Form))) :
    leaves (assemble outcomes) = true := by
  rw [assemble]
  cases collect (sortEntries outcomes) <;> rfl

theorem normalizeItems_tidiedItems {items : List Value}
    (hkeeps : ∀ item ∈ items, KeepsForm item) :
    normalizeItems (tidiedItems items) = normalizeItems items := by
  induction items with
  | nil => rfl
  | cons item items ih =>
      have hitem := hkeeps item List.mem_cons_self
      have hitems := ih fun other hother => hkeeps other (List.mem_cons_of_mem _ hother)
      rw [tidiedItems, normalizeItems, normalizeItems, hitems]
      cases htidied : item.tidied with
      | none =>
          rw [hitem.of_none htidied]
          rfl
      | some other => rw [Option.getD_some, (hitem.of_some htidied).1]

/-- The entries that go are those whose outcome leaves nothing. -/
theorem map_filterMap_tidiedEntry {κ : Type} (label : κ → Text) {entries : List (κ × Value)}
    (hkeeps : ∀ entry ∈ entries, KeepsForm entry.2) :
    (entries.filterMap tidiedEntry).map (fun entry => (label entry.1, entry.2.normalize))
      = (entries.map fun entry => (label entry.1, entry.2.normalize)).filter
          fun outcome => leaves outcome.2 := by
  induction entries with
  | nil => rfl
  | cons entry entries ih =>
      have hentry := hkeeps entry List.mem_cons_self
      have hentries := ih fun other hother => hkeeps other (List.mem_cons_of_mem _ hother)
      rw [List.filterMap_cons, tidiedEntry, List.map_cons]
      cases htidied : entry.2.tidied with
      | none =>
          rw [List.filter_cons_of_neg (by simp [hentry.of_none htidied, leaves])]
          exact hentries
      | some other =>
          obtain ⟨hsame, hleaves⟩ := hentry.of_some htidied
          rw [List.filter_cons_of_pos (by exact hleaves), ← hentries, ← hsame]
          rfl

/-! ### What is left -/

theorem isVoid_of_tidied {value other : Value} (htidied : value.tidied = some other) :
    other.isVoid = false := by
  cases value with
  | absent | procedure | symbol => cases htidied
  | object kind members =>
      rw [tidied] at htidied
      split at htidied
      · cases htidied
      · cases htidied
        rfl
  | standIn value =>
      rw [tidied, Option.map_eq_some_iff] at htidied
      obtain ⟨inner, -, rfl⟩ := htidied
      rfl
  | null | bool | number | integer | string | decimal | array | map | set | date | error
  | pattern =>
      cases htidied
      rfl

/-- What is left has no procedure that could offer something. -/
theorem isWithdrawn_tidied (members : List (Text × Value)) :
    isWithdrawn (members.filterMap tidiedEntry) = false := by
  rw [isWithdrawn_eq]
  cases hfound : Members.get? (members.filterMap tidiedEntry) "toJSON" with
  | none => rfl
  | some value =>
      rw [Members.get?, Option.map_eq_some_iff] at hfound
      obtain ⟨member, hmember, rfl⟩ := hfound
      obtain ⟨original, -, -, htidied⟩ :=
        mem_filterMap_tidiedEntry (List.mem_of_find?_eq_some hmember)
      have hvoid := isVoid_of_tidied htidied
      rw [Option.map_some, Option.getD_some]
      generalize member.2 = value at hvoid ⊢
      cases value <;> first | rfl | cases hvoid

theorem leaves_map_array (outcome : Except Fault (List Json)) :
    leaves (outcome.map fun items => some (Form.ofDocument (.array items))) = true := by
  cases outcome <;> rfl

theorem keepsForm_object (kind : ObjectKind) {members : List (Text × Value)}
    (hkeeps : isWithdrawn members = false → kind ≠ .instanceOf →
      ∀ member ∈ members, KeepsForm member.2) : KeepsForm (.object kind members) := by
  rw [KeepsForm, tidied]
  cases hwithdrawn : isWithdrawn members with
  | true =>
      rw [normalize, hwithdrawn]
      rfl
  | false =>
      simp only [Bool.false_eq_true, if_false]
      rw [normalize, normalize, hwithdrawn, tidiedMembers_eq_filterMap, isWithdrawn_tidied,
        if_neg Bool.false_ne_true, if_neg Bool.false_ne_true]
      by_cases hkind : kind = .instanceOf
      · rw [if_pos hkind, if_pos hkind]
        exact ⟨rfl, rfl⟩
      · have hleft : (members.filterMap tidiedEntry).map
              (fun member => (member.1, member.2.normalize))
            = (members.map fun member => (member.1, member.2.normalize)).filter
              fun outcome => leaves outcome.2 :=
          map_filterMap_tidiedEntry id (hkeeps hwithdrawn hkind)
        rw [if_neg hkind, if_neg hkind, normalizeMembers_eq_map, normalizeMembers_eq_map, hleft,
          assemble_filter]
        exact ⟨rfl, leaves_assemble _⟩

theorem keepsForm_map {entries : List (Value × Value)} (hkeys : PrimitiveKeys (.map entries))
    (hkeeps : ∀ entry ∈ entries, KeepsForm entry.2) : KeepsForm (.map entries) := by
  have hall := hkeys.all_label?
  have hleft : ((tidiedEntries entries).all fun entry => entry.1.label?.isSome) = true := by
    rw [tidiedEntries_eq_filterMap, List.all_eq_true]
    intro entry hentry
    obtain ⟨original, horiginal, hkey, -⟩ := mem_filterMap_tidiedEntry hentry
    rw [← hkey]
    exact List.all_eq_true.mp hall original horiginal
  rw [KeepsForm, tidied]
  simp only
  rw [normalize, normalize, if_pos hall, if_pos hleft, normalizeEntries_eq_map,
    normalizeEntries_eq_map, tidiedEntries_eq_filterMap,
    map_filterMap_tidiedEntry (fun key => key.label?.getD "") hkeeps, assemble_filter]
  exact ⟨rfl, leaves_assemble _⟩

/-- **Writing does not notice** what is taken out. -/
theorem keepsForm {value : Value} (hkeys : value.PrimitiveKeys) : value.KeepsForm := by
  induction value using nested_induction with
  | array items ih =>
      have hitems := normalizeItems_tidiedItems fun item hitem =>
        ih item hitem (hkeys.of_reaches fun node => .item hitem)
      rw [KeepsForm, tidied]
      simp only
      rw [normalize, normalize, hitems]
      exact ⟨rfl, leaves_map_array _⟩
  | object kind members ih =>
      refine keepsForm_object kind fun hwithdrawn hkind member hmember => ?_
      have hoffer : offered? (.object kind members) = none :=
        offered?_object_eq_none_iff.mpr hwithdrawn
      exact ih member hmember (hkeys.of_reaches fun node => .member hkind hoffer hmember)
  | map entries ih =>
      refine keepsForm_map hkeys fun entry hentry => ?_
      exact ih entry hentry (hkeys.of_reaches fun node => .entry hentry)
  | standIn value ih =>
      have hvalue := ih (hkeys.of_reaches fun node => .offer rfl)
      rw [KeepsForm, tidied]
      cases htidied : value.tidied with
      | none => exact hvalue.of_none htidied
      | some other =>
          rw [Option.map_some]
          simp only
          rw [normalize, normalize]
          exact hvalue.of_some htidied
  | single value hsingle =>
      cases value with
      | array | object | map | standIn => cases hsingle
      | number x =>
          refine ⟨rfl, ?_⟩
          rw [normalize]
          split <;> rfl
      | absent | procedure | symbol => rfl
      | null | bool | integer | string | decimal | date | set | error | pattern => exact ⟨rfl, rfl⟩

/-! ### Nothing void is left -/

/-- A value that is not opened up comes across nothing but itself. -/
theorem eq_of_reaches {value node : Value} (hsingle : value.isNested = false)
    (hoffer : value.offered? = none) (hnode : value.Reaches node) : node = value := by
  cases hnode with
  | here => rfl
  | offer hother => cases hoffer.symm.trans hother
  | item | entry | member => cases hsingle

theorem isVoid_of_reaches_tidiedRoot {value node : Value} (hnode : value.tidiedRoot.Reaches node)
    (hvalue : ∀ other, value.tidied = some other → other.Reaches node → node.isVoid = false) :
    node.isVoid = false := by
  rw [tidiedRoot] at hnode
  cases htidied : value.tidied with
  | none =>
      rw [htidied, Option.getD_none] at hnode
      rw [eq_of_reaches rfl rfl hnode]
      rfl
  | some other =>
      rw [htidied, Option.getD_some] at hnode
      exact hvalue other htidied hnode

/-- **Nothing void is left** of a value anywhere that writing comes across. -/
theorem isVoid_of_reaches_tidied {value other node : Value} (htidied : value.tidied = some other)
    (hnode : other.Reaches node) : node.isVoid = false := by
  induction value using nested_induction generalizing other with
  | array items ih =>
      rw [tidied, tidiedItems_eq_map] at htidied
      cases htidied
      cases hnode with
      | here => rfl
      | offer hoffer => cases hoffer
      | item hitem hnode =>
          obtain ⟨item, hmem, rfl⟩ := List.mem_map.mp hitem
          exact isVoid_of_reaches_tidiedRoot hnode fun other => ih item hmem
  | object kind members ih =>
      rw [tidied, tidiedMembers_eq_filterMap] at htidied
      split at htidied
      case isTrue => cases htidied
      case isFalse =>
        cases htidied
        cases hnode with
        | here => rfl
        | offer hoffer =>
            rw [offered?_object_eq_none_iff.mpr (isWithdrawn_tidied members)] at hoffer
            cases hoffer
        | member _ _ hmember hnode =>
            obtain ⟨original, horiginal, -, hleft⟩ := mem_filterMap_tidiedEntry hmember
            exact ih original horiginal hleft hnode
  | map entries ih =>
      rw [tidied, tidiedEntries_eq_filterMap] at htidied
      cases htidied
      cases hnode with
      | here => rfl
      | offer hoffer => cases hoffer
      | entry hentry hnode =>
          obtain ⟨original, horiginal, -, hleft⟩ := mem_filterMap_tidiedEntry hentry
          exact ih original horiginal hleft hnode
  | standIn value ih =>
      rw [tidied, Option.map_eq_some_iff] at htidied
      obtain ⟨inner, hinner, rfl⟩ := htidied
      cases hnode with
      | here => rfl
      | offer hoffer hnode =>
          cases hoffer
          exact ih hinner hnode
  | single value hsingle =>
      cases value with
      | array | object | map | standIn => cases hsingle
      | absent | procedure | symbol => cases htidied
      | decimal value =>
          cases htidied
          cases hnode with
          | here => rfl
          | offer hoffer hnode =>
              cases hoffer
              rw [eq_of_reaches rfl rfl hnode]
              rfl
      | date instant =>
          cases htidied
          cases hnode with
          | here => rfl
          | offer hoffer hnode =>
              cases hoffer
              cases instant <;> (rw [eq_of_reaches rfl rfl hnode]; rfl)
      | null | bool | number | integer | string | set | error | pattern =>
          cases htidied
          rw [eq_of_reaches rfl rfl hnode]
          rfl

end Value

namespace Canonical

open Value

/-- **What is refused.** A value whose maps have primitive keys is refused exactly if it reaches a
number that is not finite or an object that has no place in a document, for the fault of one such
value, and otherwise it has a text. Void values are none of them: without them the value is written
in the same way, so they are dropped from objects and maps and leave null in arrays and at the
root. -/
theorem write_refuses_iff {value : Value} (hkeys : value.PrimitiveKeys) (indent : Value) :
    ((∃ fault, write value indent = .error fault)
        ↔ ∃ node, value.Reaches node ∧ node.refusal?.isSome = true)
      ∧ (∀ fault, write value indent = .error fault →
        ∃ node, value.Reaches node ∧ node.refusal? = some fault)
      ∧ ((∀ node, value.Reaches node → node.refusal? = none) →
        ∃ text, write value indent = .ok text)
      ∧ write value.tidiedRoot indent = write value indent
      ∧ ∀ node, value.tidiedRoot.Reaches node → node.isVoid = false := by
  have hfault : ∀ fault, write value indent = .error fault →
      ∃ node, value.Reaches node ∧ node.refusal? = some fault := by
    intro fault herror
    rw [write, Outcome.bind_eq_error_iff] at herror
    rcases herror with hnormal | ⟨form, -, hok⟩
    · exact exists_refused_of_error hkeys hnormal
    · cases hok
  have htext : (∀ node, value.Reaches node → node.refusal? = none) →
      ∃ text, write value indent = .ok text := by
    intro hnone
    cases hwrite : write value indent with
    | ok text => exact ⟨text, rfl⟩
    | error fault =>
        obtain ⟨node, hnode, hrefusal⟩ := hfault fault hwrite
        rw [hnone node hnode] at hrefusal
        cases hrefusal
  refine ⟨⟨?_, ?_⟩, hfault, htext, ?_, ?_⟩
  · rintro ⟨fault, herror⟩
    obtain ⟨node, hnode, hrefusal⟩ := hfault fault herror
    exact ⟨node, hnode, by rw [hrefusal, Option.isSome_some]⟩
  · rintro ⟨node, hnode, hrefusal⟩
    cases hnormal : value.normalize with
    | error fault => exact ⟨fault, by rw [write, hnormal, Outcome.error_bind]⟩
    | ok form =>
        rw [refusal?_of_reaches hnode hnormal] at hrefusal
        cases hrefusal
  · have hkeeps := keepsForm hkeys
    rw [tidiedRoot, write, write]
    cases htidied : value.tidied with
    | none =>
        rw [hkeeps.of_none htidied]
        rfl
    | some other => rw [Option.getD_some, (hkeeps.of_some htidied).1]
  · intro node hnode
    exact isVoid_of_reaches_tidiedRoot hnode fun other => isVoid_of_reaches_tidied

/-- An array with a gap, and in it a map with a void entry and a number that is none. -/
def holed : Value :=
  .array [.absent, .map [(.number 1, .standIn (.procedure "f")), (.null, .number .nan)]]

theorem holed_refuses_iff :
    holed.PrimitiveKeys ∧ holed.Reaches (.number .nan)
      ∧ (∃ fault, write holed .absent = .error fault)
      ∧ write (.array [.null, .map [(.null, .number .nan)]]) .absent = write holed .absent := by
  have hkeys : holed.PrimitiveKeys := by
    intro entries hreach
    cases hreach with
    | offer hoffer => cases hoffer
    | item hitem hnode =>
        rcases List.mem_pair.mp hitem with rfl | rfl
        · cases eq_of_reaches rfl rfl hnode
        · cases hnode with
          | here => exact List.forall_mem_cons.mpr ⟨rfl, List.forall_mem_singleton.mpr rfl⟩
          | offer hoffer => cases hoffer
          | entry hentry hnode =>
              rcases List.mem_pair.mp hentry with rfl | rfl
              · cases hnode with
                | offer hoffer hnode =>
                    cases hoffer
                    cases eq_of_reaches rfl rfl hnode
              · cases eq_of_reaches rfl rfl hnode
  have hnan : holed.Reaches (.number .nan) :=
    .item (List.mem_cons_of_mem _ List.mem_cons_self)
      (.entry (List.mem_cons_of_mem _ List.mem_cons_self) (.here _))
  obtain ⟨hrefused, -, -, htidied, -⟩ := write_refuses_iff hkeys .absent
  exact ⟨hkeys, hnan, hrefused.mpr ⟨_, hnan, rfl⟩, htidied⟩

end Canonical

end AngleSeries
