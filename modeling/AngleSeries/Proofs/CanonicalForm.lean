import AngleSeries.Json.Parser
import AngleSeries.Proofs.NamedMembers
import AngleSeries.Proofs.SettledDocuments

/-!
# The canonical form as a fixed point

A canonical text is read back as the document it was written for, whatever the indentation. Brought
into canonical form once more this document stays as it is, except that members with the name of the
link are lost: to a filled object they are no members. So the canonical form is a fixed point of
reading and writing exactly for the documents that do not name the link.
-/

namespace AngleSeries

namespace Canonical

open Value

/-- The form that a document is brought into. -/
def rewrite (document : Json) : Form :=
  ((ofJson document).normalize.toOption.join).getD (.ofDocument .null)

/-- A document is brought into a form without a fault. -/
def Accepted (document : Json) : Prop :=
  (ofJson document).normalize = .ok (some (rewrite document))

theorem accepted_of_normalize {document : Json} {form : Form}
    (hnormal : (ofJson document).normalize = .ok (some form)) :
    Accepted document ∧ rewrite document = form := by
  have hform : rewrite document = form := by
    rw [rewrite, hnormal]
    rfl
  exact ⟨hnormal.trans (by rw [hform]), hform⟩

theorem ofMembers_eq_map (members : List (Text × Json)) :
    ofMembers members = members.map fun member => (member.1, ofJson member.2) := by
  induction members with
  | nil => rfl
  | cons member members ih => rw [ofMembers, ih, List.map_cons]

theorem isProcedure_ofJson (document : Json) : (ofJson document).isProcedure = false := by
  cases document <;> rfl

theorem isWithdrawn_ofMembers (members : List (Text × Json)) :
    isWithdrawn (ofMembers members) = false := by
  rw [isWithdrawn_eq]
  induction members with
  | nil => rfl
  | cons member members ih =>
      rw [ofMembers, Members.get?_cons]
      split
      · exact isProcedure_ofJson member.2
      · exact ih

/-! ### Arrays and objects -/

theorem rewrite_array {items : List Json} (hitems : ∀ item ∈ items, Accepted item) :
    Accepted (.array items)
      ∧ (rewrite (.array items)).document
        = .array (items.map fun item => (rewrite item).document) := by
  have hparts : normalizeItems (ofItems items)
      = .ok (items.map fun item => (rewrite item).document) := by
    induction items with
    | nil => rfl
    | cons item items ih =>
        have hitem : (ofJson item).normalize = .ok (some (rewrite item)) :=
          hitems item List.mem_cons_self
        rw [ofItems, normalizeItems, hitem, Outcome.ok_bind,
          ih fun other hother => hitems other (List.mem_cons_of_mem _ hother), Outcome.ok_bind]
        rfl
  have hnormal : (ofJson (.array items)).normalize
      = .ok (some (.ofDocument (.array (items.map fun item => (rewrite item).document)))) := by
    rw [ofJson, Value.normalize, hparts]
    rfl
  obtain ⟨haccepted, hrewrite⟩ := accepted_of_normalize hnormal
  exact ⟨haccepted, by rw [hrewrite]; rfl⟩

/-- The members that a rewritten object keeps. -/
def keptMembers (members : List (Text × Json)) : List (Text × Json) :=
  (members.filter fun member => member.1 ≠ linkName).map
    fun member => (member.1, (rewrite member.2).document)

/-- Of members with different names a rewritten object keeps all but that of the link. -/
theorem rewrite_object {members : List (Text × Json)} (hnodup : (members.map Prod.fst).Nodup)
    (hmembers : ∀ member ∈ members, Accepted member.2) :
    Accepted (.object members) ∧ ∃ kept : Members Json,
      (rewrite (.object members)).document = .object kept ∧ kept.Perm (keptMembers members)
        ∧ (Members.keys kept).Pairwise Members.Precedes := by
  set entries : List (Text × Form) := members.map fun member => (member.1, rewrite member.2)
    with hentries
  have hkeys : entries.map Prod.fst = members.map Prod.fst := by
    rw [hentries, List.map_map]
    rfl
  have hkept : (entries.filter fun entry => entry.1 ≠ linkName).map asMember
      = keptMembers members := by
    rw [hentries, List.filter_map, List.map_map]
    rfl
  have hparts : normalizeMembers (ofMembers members) = (entries.map present).map succeeded := by
    rw [normalizeMembers_eq_map, ofMembers_eq_map, hentries, List.map_map, List.map_map,
      List.map_map]
    refine List.map_congr_left fun member hmember => ?_
    have hmember : (ofJson member.2).normalize = .ok (some (rewrite member.2)) :=
      hmembers member hmember
    simp only [Function.comp, hmember, present, succeeded]
  have hnormal : (ofJson (.object members)).normalize
      = .ok (some (gather ((sortEntries entries).map present)).form) := by
    rw [ofJson, Value.normalize, isWithdrawn_ofMembers, hparts, assemble_map_succeeded,
      sortEntries_map present fun _ => rfl]
    rfl
  obtain ⟨haccepted, hrewrite⟩ := accepted_of_normalize hnormal
  obtain ⟨hperm, hprecedes⟩ := gather_sorted (hkeys ▸ hnodup)
  rw [hkept] at hperm
  exact ⟨haccepted, _, by rw [hrewrite]; rfl, hperm, hprecedes⟩

/-- **A settled document is kept** but for the members with the name of the link. -/
theorem rewrite_of_settled {document : Json} (hsettled : document.Settled) :
    Accepted document ∧ (rewrite document).document = document.without linkName := by
  have hsingle : ∀ {document : Json},
      (ofJson document).normalize = .ok (some (.ofDocument document)) →
      document.without linkName = document →
      Accepted document ∧ (rewrite document).document = document.without linkName := by
    intro document hnormal hwithout
    obtain ⟨haccepted, hrewrite⟩ := accepted_of_normalize hnormal
    refine ⟨haccepted, ?_⟩
    rw [hrewrite, hwithout]
    rfl
  induction hsettled with
  | null => exact hsingle rfl rfl
  | bool value => exact hsingle rfl rfl
  | number hx =>
      refine hsingle ?_ rfl
      rw [ofJson, Value.normalize, hx.1, ← Double.plainZero, hx.2]
      rfl
  | string text => exact hsingle rfl rfl
  | array hitems ih =>
      obtain ⟨haccepted, hrewrite⟩ := rewrite_array fun item hitem => (ih item hitem).1
      refine ⟨haccepted, ?_⟩
      rw [hrewrite, Json.without, Json.withoutItems_eq_map]
      exact congrArg Json.array (List.map_congr_left fun item hitem => (ih item hitem).2)
  | @object members hkeys hvalues ih =>
      have hnodup : (members.map Prod.fst).Nodup := hkeys.imp And.left
      obtain ⟨haccepted, kept, hrewrite, hperm, hprecedes⟩ :=
        rewrite_object hnodup fun member hmember => (ih member hmember).1
      have hkept : keptMembers members = Json.withoutMembers linkName members := by
        rw [keptMembers, Json.withoutMembers_eq_map]
        refine List.map_congr_left fun member hmember => ?_
        rw [(ih member (List.mem_filter.mp hmember).1).2]
      refine ⟨haccepted, ?_⟩
      rw [hrewrite, Json.without, ← hkept]
      refine congrArg Json.object (Members.eq_of_perm_of_precedes hperm hprecedes ?_)
      rw [hkept]
      exact hkeys.sublist (Json.keys_withoutMembers_sublist linkName members)

end Canonical

/-! ### Where a document names the link -/

namespace Value

open Canonical

/-- Somewhere in the value an object or a map has two entries with the name of the link. -/
inductive LinkedTwice : Value → Prop where
  | members (kind : ObjectKind) {members : List (Text × Value)}
      (htwice : 2 ≤ (members.map Prod.fst).count linkName) : LinkedTwice (.object kind members)
  | entries {entries : List (Value × Value)}
      (htwice : 2 ≤ (entries.map fun entry => entry.1.label?).count (some linkName)) :
      LinkedTwice (.map entries)
  | item {items : List Value} {item : Value} (hitem : item ∈ items) (htwice : LinkedTwice item) :
      LinkedTwice (.array items)
  | member (kind : ObjectKind) {members : List (Text × Value)} {member : Text × Value}
      (hmember : member ∈ members) (htwice : LinkedTwice member.2) :
      LinkedTwice (.object kind members)
  | entry {entries : List (Value × Value)} {entry : Value × Value} (hentry : entry ∈ entries)
      (htwice : LinkedTwice entry.2) : LinkedTwice (.map entries)
  | standIn {value : Value} (htwice : LinkedTwice value) : LinkedTwice (.standIn value)

theorem names_of_assemble {outcomes : List (Text × Except Fault (Option Form))} {form : Form}
    (hassemble : assemble outcomes = .ok (some form)) (hnames : form.document.Names linkName) :
    2 ≤ (outcomes.map Prod.fst).count linkName
      ∨ ∃ outcome ∈ outcomes, ∃ part, outcome.2 = .ok (some part)
        ∧ part.document.Names linkName := by
  obtain ⟨entries, rfl, hform⟩ := exists_entries_of_assemble hassemble
  cases hform
  rw [Filling.form, gather_members] at hnames
  cases hnames with
  | here hmember =>
      left
      have hput := count_of_linkName_mem
        (List.mem_map_of_mem (f := Prod.fst) (Members.mem_of_mem_ofList hmember))
      rw [if_pos rfl, ((sortEntries_perm entries).map Prod.fst).count_eq] at hput
      rw [List.map_map]
      exact hput
  | member hmember hvalue =>
      right
      obtain ⟨part, hpart, rfl⟩ := exists_form_of_mem (Members.mem_of_mem_ofList hmember)
      rw [(sortEntries_perm entries).mem_iff] at hpart
      exact ⟨_, List.mem_map_of_mem hpart, part, rfl, hvalue⟩

/-- The empty text that stands for a missing label is not the name of the link. -/
theorem count_labels (entries : List (Value × Value)) :
    (entries.map fun entry => entry.1.label?.getD "").count linkName
      = (entries.map fun entry => entry.1.label?).count (some linkName) := by
  rw [List.count, List.count, List.countP_map, List.countP_map]
  refine List.countP_congr fun entry _ => ?_
  have hempty : (("" : String) : Text) ≠ linkName := by decide
  cases hlabel : entry.1.label? with
  | none => simp [hlabel, hempty]
  | some label => simp [hlabel]

/-- **A single entry of that name is lost**: a document names the link only if a value has two. -/
theorem linkedTwice_of_names {value : Value} {form : Form}
    (hnormal : value.normalize = .ok (some form)) (hnames : form.document.Names linkName) :
    value.LinkedTwice := by
  induction value using nested_induction generalizing form with
  | array items ih =>
      obtain ⟨documents, hitems, hform⟩ := array_of_normalize hnormal
      cases hform
      cases hnames with
      | item hdocument hnames =>
          rcases exists_item_of_mem hitems hdocument with rfl | ⟨item, hitem, form, hform, rfl⟩
          · cases hnames
          · exact .item hitem (ih item hitem hform hnames)
  | object kind members ih =>
      rcases names_of_assemble (object_of_normalize hnormal) hnames with
        htwice | ⟨outcome, houtcome, part, hpart, hnames⟩
      · rw [List.map_map] at htwice
        exact .members kind htwice
      · obtain ⟨member, hmember, rfl⟩ := List.mem_map.mp houtcome
        exact .member kind hmember (ih member hmember hpart hnames)
  | map entries ih =>
      rcases names_of_assemble (map_of_normalize hnormal) hnames with
        htwice | ⟨outcome, houtcome, part, hpart, hnames⟩
      · rw [List.map_map] at htwice
        exact .entries (htwice.trans_eq (count_labels entries))
      · obtain ⟨entry, hentry, rfl⟩ := List.mem_map.mp houtcome
        exact .entry hentry (ih entry hentry hpart hnames)
  | standIn value ih =>
      rw [normalize] at hnormal
      exact .standIn (ih hnormal hnames)
  | single value hsingle =>
      exact absurd hnames
        (Json.not_names_of_single linkName (single_of_normalize hsingle hnormal).1)

end Value

/-! ### Reading and writing -/

namespace Canonical

open Value

theorem isBlankIndent_indentUnit (indent : Value) : Json.IsBlankIndent (indentUnit indent) := by
  intro unit hunit
  unfold indentUnit at hunit
  split at hunit
  · split_ifs at hunit
    all_goals cases hunit
    all_goals exact List.all_replicate.trans (by simp [Json.isBlank])
  · cases hunit

variable {indent : Option Text} (hindent : Json.IsBlankIndent indent)

include hindent

theorem parse?_writeDocument {document : Json} (hsettled : document.Settled) :
    Json.parse? (writeDocument indent document) = some document :=
  Json.parse?_write hindent (hsettled.mono id Members.Precedes.inFront)

/-- Different settled documents have different texts. -/
theorem writeDocument_injective {a b : Json} (ha : a.Settled) (hb : b.Settled)
    (htext : writeDocument indent a = writeDocument indent b) : a = b := by
  have hread := parse?_writeDocument hindent ha
  rw [htext, parse?_writeDocument hindent hb] at hread
  exact (Option.some.inj hread).symm

omit hindent

/-- What is written is the text of a settled document, the same at every indentation. -/
theorem exists_document_of_write {value indent : Value} {text : Text}
    (hwrite : write value indent = .ok text) :
    ∃ document : Json, document.Settled
      ∧ (∀ other, write value other = .ok (writeDocument (indentUnit other) document))
      ∧ (document.Names linkName → value.LinkedTwice) := by
  obtain ⟨form, hnormal, -⟩ := Outcome.bind_eq_ok_iff.mp hwrite
  have hall : ∀ other, write value other
      = .ok (writeDocument (indentUnit other) ((form.map Form.document).getD .null)) := by
    intro other
    rw [write, hnormal, Outcome.ok_bind]
  cases form with
  | none =>
      refine ⟨.null, .null, hall, fun hnames => ?_⟩
      cases hnames
  | some form =>
      exact ⟨form.document, settled_of_normalize hnormal, hall, linkedTwice_of_names hnormal⟩

theorem write_of_accepted {document : Json} (haccepted : Accepted document) (indent : Value) :
    write (ofJson document) indent
      = .ok (writeDocument (indentUnit indent) (rewrite document).document) := by
  rw [write, haccepted, Outcome.ok_bind]
  rfl

/-- **Reading and writing.** A canonical text is valid at every indentation. Read and written again
it gives the text that the value has without indentation, unless the document names the link; and
it does so only if somewhere in the value an object or a map has two entries of that name. -/
theorem write_fixed_iff {value indent : Value} {text : Text}
    (hwrite : write value indent = .ok text) :
    ∃ document : Json, Json.parse? text = some document
      ∧ (write (ofJson document) .absent = write value .absent ↔ ¬ document.Names linkName)
      ∧ (document.Names linkName → value.LinkedTwice) := by
  obtain ⟨document, hsettled, hall, htwice⟩ := exists_document_of_write hwrite
  obtain ⟨haccepted, hrewrite⟩ := rewrite_of_settled hsettled
  refine ⟨document, ?_, ?_, htwice⟩
  · rw [hall] at hwrite
    rw [← Except.ok.inj hwrite]
    exact parse?_writeDocument (isBlankIndent_indentUnit indent) hsettled
  · rw [write_of_accepted haccepted, hall, hrewrite, ← Json.without_eq_self_iff]
    constructor
    · intro htext
      exact writeDocument_injective (isBlankIndent_indentUnit .absent) (hsettled.without linkName)
        hsettled (Except.ok.inj htext)
    · intro hself
      rw [hself]

/-- An object whose entries were not put in the order of their keys. -/
def unordered : Value :=
  .object .plain [("b", .array [.absent, .string "x"]), ("a", .bool true)]

def unorderedText : Text :=
  "\x7b\n \"a\": true,\n \"b\": [\n  null,\n  \"x\"\n ]\n\x7d"

theorem write_unordered : write unordered (.number 1) = .ok unorderedText := by
  have hindent : indentUnit (.number 1) = some ⟨[0x20]⟩ := by decide +kernel
  rw [write, unordered, Value.normalize, assemble, hindent]
  simp only [normalizeMembers]
  rw [sortEntries_eq_of_perm (List.Perm.swap _ _ _) (by decide),
    sortEntries_of_pairwise (by decide)]
  rfl

theorem unordered_fixed_iff :
    write unordered (.number 1) = .ok unorderedText
      ∧ ∃ document : Json, Json.parse? unorderedText = some document
        ∧ (write (ofJson document) .absent = write unordered .absent ↔ ¬ document.Names linkName)
        ∧ (document.Names linkName → unordered.LinkedTwice) :=
  ⟨write_unordered, write_fixed_iff write_unordered⟩

/-- A map with two keys that are written as the name of the link, in which null ends the inheritance
of the link. -/
def relinked : Value :=
  .map [(.string linkName, .null), (.array [.string linkName], .bool true)]

theorem normalize_relinked :
    relinked.normalize = .ok (some ⟨.object [(linkName, .bool true)], false⟩) := by
  have hstring : (Value.string linkName).label? = some linkName := rfl
  have harray : (Value.array [.string linkName]).label? = some linkName := by decide +kernel
  rw [relinked, Value.normalize, assemble]
  simp only [normalizeEntries, List.all_cons, hstring, harray]
  rw [sortEntries_of_pairwise (by decide)]
  rfl

theorem settled_relinked : Json.Settled (.object [(linkName, .bool true)]) := by
  refine .object (List.pairwise_singleton _ _) fun member hmember => ?_
  rw [List.mem_singleton.mp hmember]
  exact .bool true

/-- The text of this map is not fixed: read and written again it loses its member. -/
theorem not_write_fixed : ¬ ∀ (value indent : Value) (text : Text), write value indent = .ok text →
    ∃ document, Json.parse? text = some document
      ∧ write (ofJson document) .absent = write value .absent := by
  intro hfixed
  have hwrite : write relinked .absent
      = .ok (writeDocument none (.object [(linkName, .bool true)])) := by
    rw [write, normalize_relinked]
    rfl
  obtain ⟨document, hread, hagain⟩ := hfixed relinked .absent _ hwrite
  have hindent : Json.IsBlankIndent none := isBlankIndent_indentUnit .absent
  rw [parse?_writeDocument hindent settled_relinked] at hread
  cases hread
  have hlost : write (ofJson (.object [(linkName, .bool true)])) .absent
      = .ok (writeDocument none (.object [])) := by
    obtain ⟨haccepted, hrewrite⟩ := rewrite_of_settled settled_relinked
    rw [write_of_accepted haccepted, hrewrite]
    rfl
  rw [hlost, hwrite] at hagain
  exact absurd (Except.ok.inj hagain) (by decide +kernel)

end Canonical

end AngleSeries
