import AngleSeries.Proofs.KeyOrder
import AngleSeries.Proofs.MemberOrder

/-!
# Insertion order

Two values that differ only in the order in which the entries of their objects and maps were put in
are written alike, down to the fault with which writing fails. One rearrangement at one place is
enough to look at: it changes neither the document of the whole nor what the whole looks like as a
key, and the rest follows by induction.
-/

namespace AngleSeries

namespace Value

/-- One value comes from the other by putting the entries of objects and maps in another order, at
any depth. Keys of a map count as different if their texts are. -/
inductive Rearranged : Value → Value → Prop where
  | refl (value : Value) : Rearranged value value
  | trans {a b c : Value} (hab : Rearranged a b) (hbc : Rearranged b c) : Rearranged a c
  | members (kind : ObjectKind) {members others : List (Text × Value)}
      (hperm : members.Perm others) (hkeys : (members.map Prod.fst).Nodup) :
      Rearranged (.object kind members) (.object kind others)
  | entries {entries others : List (Value × Value)} (hperm : entries.Perm others)
      (hkeys : (entries.map fun entry => entry.1.label?).Nodup) :
      Rearranged (.map entries) (.map others)
  | item (before after : List Value) {a b : Value} (hab : Rearranged a b) :
      Rearranged (.array (before ++ a :: after)) (.array (before ++ b :: after))
  | member (kind : ObjectKind) (before after : List (Text × Value)) (key : Text) {a b : Value}
      (hab : Rearranged a b) :
      Rearranged (.object kind (before ++ (key, a) :: after))
        (.object kind (before ++ (key, b) :: after))
  | entry (before after : List (Value × Value)) (key : Value) {a b : Value} (hab : Rearranged a b) :
      Rearranged (.map (before ++ (key, a) :: after)) (.map (before ++ (key, b) :: after))
  | key (before after : List (Value × Value)) (value : Value) {a b : Value} (hab : Rearranged a b) :
      Rearranged (.map (before ++ (a, value) :: after)) (.map (before ++ (b, value) :: after))
  | standIn {a b : Value} (hab : Rearranged a b) : Rearranged (.standIn a) (.standIn b)

def isProcedure : Value → Bool
  | .procedure _ => true
  | _ => false

/-- All that a value contributes to the document of a value around it. -/
structure Alike (a b : Value) : Prop where
  normal : a.normalize = b.normalize
  text : a.text? = b.text?
  label : a.label? = b.label?
  gap : a.gap = b.gap
  procedure : a.isProcedure = b.isProcedure

theorem Alike.refl (a : Value) : Alike a a :=
  ⟨rfl, rfl, rfl, rfl, rfl⟩

theorem Alike.trans {a b c : Value} (hab : Alike a b) (hbc : Alike b c) : Alike a c :=
  ⟨hab.normal.trans hbc.normal, hab.text.trans hbc.text, hab.label.trans hbc.label,
    hab.gap.trans hbc.gap, hab.procedure.trans hbc.procedure⟩

/-! ### Lists of outcomes -/

theorem normalizeMembers_eq_map (members : List (Text × Value)) :
    normalizeMembers members = members.map fun member => (member.1, member.2.normalize) := by
  induction members with
  | nil => rfl
  | cons member members ih => rw [normalizeMembers, ih, List.map_cons]

theorem normalizeEntries_eq_map (entries : List (Value × Value)) :
    normalizeEntries entries
      = entries.map fun entry => (entry.1.label?.getD "", entry.2.normalize) := by
  induction entries with
  | nil => rfl
  | cons entry entries ih => rw [normalizeEntries, ih, List.map_cons]

theorem isWithdrawn_eq (members : List (Text × Value)) :
    isWithdrawn members = ((Members.get? members "toJSON").map isProcedure).getD false := by
  rw [isWithdrawn]
  rcases Members.get? members "toJSON" with _ | value
  · rfl
  · cases value <;> rfl

theorem assemble_eq_of_perm {outcomes others : List (Text × Except Fault (Option Canonical.Form))}
    (hperm : outcomes.Perm others) (hkeys : (outcomes.map Prod.fst).Nodup) :
    assemble outcomes = assemble others := by
  rw [assemble, assemble, sortEntries_eq_of_perm hperm hkeys]

/-! ### Another order -/

theorem alike_members (kind : ObjectKind) {members others : List (Text × Value)}
    (hperm : members.Perm others) (hkeys : (members.map Prod.fst).Nodup) :
    Alike (.object kind members) (.object kind others) := by
  have hwithdrawn : isWithdrawn members = isWithdrawn others := by
    rw [isWithdrawn_eq, isWithdrawn_eq, Members.get?_eq_of_perm hperm hkeys]
  have hassemble : assemble (normalizeMembers members) = assemble (normalizeMembers others) := by
    rw [normalizeMembers_eq_map, normalizeMembers_eq_map]
    refine assemble_eq_of_perm (hperm.map _) ?_
    rw [List.map_map]
    exact hkeys
  have htext : text? (.object kind members) = text? (.object kind others) := by
    rw [text?, text?, hidesText, hidesText, hperm.any_eq]
  refine ⟨?_, htext, htext, rfl, rfl⟩
  rw [normalize, normalize, hwithdrawn, hassemble]

theorem alike_entries {entries others : List (Value × Value)} (hperm : entries.Perm others)
    (hkeys : (entries.map fun entry => entry.1.label?).Nodup) :
    Alike (.map entries) (.map others) := by
  refine ⟨?_, rfl, rfl, rfl, rfl⟩
  rw [normalize, normalize, hperm.all_eq]
  split
  case isFalse => rfl
  case isTrue hall =>
    rw [normalizeEntries_eq_map, normalizeEntries_eq_map]
    refine assemble_eq_of_perm (hperm.map _) ?_
    -- All keys have a text, so different texts stay different without their option.
    refine List.Nodup.of_map some ?_
    have hlabels : (entries.map fun entry => some (entry.1.label?.getD "")) =
        entries.map fun entry => entry.1.label? := by
      refine List.map_congr_left fun entry hentry => ?_
      obtain ⟨label, hlabel⟩ := Option.isSome_iff_exists.mp
        (List.all_eq_true.mp hall entry (hperm.mem_iff.mp hentry))
      rw [hlabel, Option.getD_some]
    simpa only [List.map_map, Function.comp_def, hlabels] using hkeys

/-! ### Another value in one place -/

section Places

variable {a b : Value} (hab : Alike a b)

include hab

theorem normalizeItems_replace (before after : List Value) :
    normalizeItems (before ++ a :: after) = normalizeItems (before ++ b :: after) := by
  induction before with
  | nil => rw [List.nil_append, List.nil_append, normalizeItems, normalizeItems, hab.normal]
  | cons item before ih =>
      rw [List.cons_append, List.cons_append, normalizeItems, normalizeItems, ih]

theorem texts?_replace (before after : List Value) :
    texts? (before ++ a :: after) = texts? (before ++ b :: after) := by
  induction before with
  | nil => rw [List.nil_append, List.nil_append, texts?, texts?, hab.gap, hab.text]
  | cons item before ih => rw [List.cons_append, List.cons_append, texts?, texts?, ih]

theorem alike_item (before after : List Value) :
    Alike (.array (before ++ a :: after)) (.array (before ++ b :: after)) := by
  have htext : text? (.array (before ++ a :: after)) = text? (.array (before ++ b :: after)) := by
    rw [text?, text?, texts?_replace hab]
  refine ⟨?_, htext, htext, rfl, rfl⟩
  rw [normalize, normalize, normalizeItems_replace hab]

theorem isWithdrawn_replace (before after : List (Text × Value)) (key : Text) :
    isWithdrawn (before ++ (key, a) :: after) = isWithdrawn (before ++ (key, b) :: after) := by
  rw [isWithdrawn_eq, isWithdrawn_eq]
  induction before with
  | nil =>
      rw [List.nil_append, List.nil_append, Members.get?_cons, Members.get?_cons]
      split
      · exact hab.procedure
      · rfl
  | cons member before ih =>
      obtain ⟨name, value⟩ := member
      rw [List.cons_append, List.cons_append, Members.get?_cons, Members.get?_cons]
      split
      · rfl
      · exact ih

theorem alike_member (kind : ObjectKind) (before after : List (Text × Value)) (key : Text) :
    Alike (.object kind (before ++ (key, a) :: after))
      (.object kind (before ++ (key, b) :: after)) := by
  have htext : text? (.object kind (before ++ (key, a) :: after))
      = text? (.object kind (before ++ (key, b) :: after)) := by
    simp only [text?, hidesText, List.any_append, List.any_cons]
  refine ⟨?_, htext, htext, rfl, rfl⟩
  rw [normalize, normalize, isWithdrawn_replace hab, normalizeMembers_eq_map,
    normalizeMembers_eq_map]
  simp only [List.map_append, List.map_cons, hab.normal]

theorem alike_entry (before after : List (Value × Value)) (key : Value) :
    Alike (.map (before ++ (key, a) :: after)) (.map (before ++ (key, b) :: after)) := by
  refine ⟨?_, rfl, rfl, rfl, rfl⟩
  rw [normalize, normalize, normalizeEntries_eq_map, normalizeEntries_eq_map]
  simp only [List.map_append, List.map_cons, List.all_append, List.all_cons, hab.normal]

theorem alike_key (before after : List (Value × Value)) (value : Value) :
    Alike (.map (before ++ (a, value) :: after)) (.map (before ++ (b, value) :: after)) := by
  refine ⟨?_, rfl, rfl, rfl, rfl⟩
  rw [normalize, normalize, normalizeEntries_eq_map, normalizeEntries_eq_map]
  simp only [List.map_append, List.map_cons, List.all_append, List.all_cons, hab.label]

theorem alike_standIn : Alike (.standIn a) (.standIn b) := by
  refine ⟨?_, rfl, rfl, rfl, rfl⟩
  rw [normalize, normalize, hab.normal]

end Places

/-- A rearranged value contributes the same to everything around it. -/
theorem Rearranged.alike {a b : Value} (hab : Rearranged a b) : Alike a b := by
  induction hab with
  | refl value => exact .refl value
  | trans _ _ hab hbc => exact hab.trans hbc
  | members kind hperm hkeys => exact alike_members kind hperm hkeys
  | entries hperm hkeys => exact alike_entries hperm hkeys
  | item before after _ ih => exact alike_item ih before after
  | member kind before after key _ ih => exact alike_member ih kind before after key
  | entry before after key _ ih => exact alike_entry ih before after key
  | key before after value _ ih => exact alike_key ih before after value
  | standIn _ ih => exact alike_standIn ih

end Value

namespace Canonical

open Value

/-- **No trace of insertion.** Rearranged values have the same canonical text at every indentation,
or are refused for the same fault. -/
theorem write_eq_of_rearranged {a b : Value} (hab : a.Rearranged b) (indent : Value) :
    write a indent = write b indent := by
  rw [write, write, hab.alike.normal]

/-- An object around a map in an array and around another object behind a stand-in. -/
def scattered : Value :=
  .object .plain [
    ("list", .array [.map [(.string "b", .null), (.string "a", .bool true)]]),
    ("behind", .standIn (.object .plain [("y", .integer 1), ("x", .absent)]))]

/-- The same with every two entries the other way round. -/
def gathered : Value :=
  .object .plain [
    ("behind", .standIn (.object .plain [("x", .absent), ("y", .integer 1)])),
    ("list", .array [.map [(.string "a", .bool true), (.string "b", .null)]])]

theorem scattered_rearranged : scattered.Rearranged gathered := by
  have hmap : Rearranged (.map [(.string "b", .null), (.string "a", .bool true)])
      (.map [(.string "a", .bool true), (.string "b", .null)]) :=
    .entries (List.Perm.swap _ _ _) (by decide +kernel)
  have hbehind : Rearranged (.object .plain [("y", .integer 1), ("x", .absent)])
      (.object .plain [("x", .absent), ("y", .integer 1)]) :=
    .members .plain (List.Perm.swap _ _ _) (by decide +kernel)
  refine Rearranged.trans (.member .plain [] _ "list" (.item [] [] hmap)) ?_
  refine Rearranged.trans (.member .plain [_] [] "behind" (.standIn hbehind)) ?_
  exact .members .plain (List.Perm.swap _ _ _) (by decide +kernel)

theorem write_scattered :
    scattered.Rearranged gathered ∧ write scattered (.number 2) = write gathered (.number 2) :=
  ⟨scattered_rearranged, write_eq_of_rearranged scattered_rearranged (.number 2)⟩

end Canonical

end AngleSeries
