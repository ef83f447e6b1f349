import AngleSeries.Proofs.CanonicalForm

/-!
# Keys in the order of the text

A scan of a text from left to right finds the keys of every object in it, in the order in which they
are written. In a canonical text an object has its array indices first, by value, and then its other
keys by their code units. So the keys of an object ascend by code units unless one of the indices is
written in front of a key that is smaller.
-/

namespace AngleSeries

namespace Json

open Numeral Text

/-! ### Scanning a text -/

/-- What a scan has met so far. -/
structure Scan where
  /-- The last text between quotes. -/
  last : Text := ""
  /-- The keys of each object that is still open, the innermost object first. -/
  opened : List (List Text) := []
  /-- The keys of each object that is closed, in the order of the closing braces. -/
  closed : List (List Text) := []

namespace Scan

def extend (keys : List Text) : List (List Text) → List (List Text)
  | [] => []
  | row :: opened => (row ++ keys) :: opened

/-- Takes a unit outside quotes. A text in front of a colon is a key. -/
def mark (scan : Scan) (unit : UInt16) : Scan :=
  match glyph unit with
  | ':' => { scan with opened := extend [scan.last] scan.opened }
  | '\x7b' => { scan with opened := [] :: scan.opened }
  | '\x7d' =>
    match scan.opened with
    | [] => scan
    | row :: opened => { scan with opened := opened, closed := scan.closed ++ [row] }
  | _ => scan

def run : ℕ → Scan → List UInt16 → Scan
  | 0, scan, _ => scan
  | _ + 1, scan, [] => scan
  | bound + 1, scan, unit :: rest =>
    if unit = 0x22 then
      match readUnits? bound rest with
      | some (units, rest) => run bound { scan with last := ⟨units⟩ } rest
      | none => scan
    else run bound (scan.mark unit) rest

end Scan

/-- The keys of the objects in a text as they are written, object by object in the order in which
the objects are closed. -/
def writtenKeys (text : Text) : List (List Text) :=
  (Scan.run text.units.length {} text.units).closed

namespace Scan

variable {u v : List UInt16} {scan middle after : Scan}

/-- A scan passes over units and comes to another state, whatever follows them. A text between quotes
takes one off the bound, so of the bound there may be more left than units. -/
def Passes (units : List UInt16) (scan after : Scan) : Prop :=
  ∀ (bound : ℕ) (rest : List UInt16), units.length ≤ bound →
    ∃ left, bound ≤ left + units.length ∧ run bound scan (units ++ rest) = run left after rest

theorem Passes.nil (scan : Scan) : Passes [] scan scan := by
  intro bound rest _
  exact ⟨bound, Nat.le_add_right _ _, rfl⟩

theorem Passes.append (hfirst : Passes u scan middle) (hsecond : Passes v middle after) :
    Passes (u ++ v) scan after := by
  intro bound rest hbound
  rw [List.length_append] at hbound ⊢
  obtain ⟨between, hbetween, hrun⟩ := hfirst bound (v ++ rest) (by omega)
  obtain ⟨left, hleft, hnext⟩ := hsecond between rest (by omega)
  refine ⟨left, by omega, ?_⟩
  rw [List.append_assoc, hrun, hnext]

theorem passes_mark {unit : UInt16} (hunit : unit ≠ 0x22) (scan : Scan) :
    Passes [unit] scan (scan.mark unit) := by
  intro bound rest hbound
  rw [List.length_singleton] at hbound ⊢
  obtain ⟨bound, rfl⟩ : ∃ k, bound = k + 1 := ⟨bound - 1, by omega⟩
  refine ⟨bound, le_rfl, ?_⟩
  rw [List.singleton_append, run, if_neg hunit]

theorem passes_quote (text : Text) (scan : Scan) :
    Passes (quote text).units scan { scan with last := text } := by
  intro bound rest hbound
  have hlength := length_le_escape text.units
  simp only [quote, List.length_cons, List.length_append, List.length_nil] at hbound ⊢
  obtain ⟨bound, rfl⟩ : ∃ k, bound = k + 1 := ⟨bound - 1, by omega⟩
  refine ⟨bound, by omega, ?_⟩
  rw [List.cons_append, run, if_pos rfl, List.append_assoc, List.singleton_append,
    readUnits?_escape (by omega)]

theorem extend_nil (opened : List (List Text)) : extend [] opened = opened := by
  cases opened with
  | nil => rfl
  | cons row opened => rw [extend, List.append_nil]

theorem extend_extend (keys others : List Text) (opened : List (List Text)) :
    extend others (extend keys opened) = extend (keys ++ others) opened := by
  cases opened with
  | nil => rfl
  | cons row opened => rw [extend, extend, extend, List.append_assoc]

/-! ### What is found in a piece of text -/

/-- In the units there are keys of the object around them, and objects with rows of keys. -/
def Finds (keys : List Text) (rows : List (List Text)) (units : List UInt16) : Prop :=
  ∀ scan : Scan, ∃ last, Passes units scan ⟨last, extend keys scan.opened, scan.closed ++ rows⟩

variable {keys others : List Text} {rows more : List (List Text)}

/-- Nothing is found where at most the last text changes. -/
theorem finds_of_passes (hpass : ∀ scan : Scan, ∃ last, Passes u scan { scan with last := last }) :
    Finds [] [] u := by
  intro scan
  obtain ⟨last, hlast⟩ := hpass scan
  refine ⟨last, ?_⟩
  rwa [extend_nil, List.append_nil]

theorem Finds.nil : Finds [] [] [] :=
  finds_of_passes fun scan => ⟨scan.last, Passes.nil scan⟩

theorem Finds.append (hfirst : Finds keys rows u) (hsecond : Finds others more v) :
    Finds (keys ++ others) (rows ++ more) (u ++ v) := by
  intro scan
  obtain ⟨last, hu⟩ := hfirst scan
  obtain ⟨final, hv⟩ := hsecond ⟨last, extend keys scan.opened, scan.closed ++ rows⟩
  refine ⟨final, ?_⟩
  rw [← extend_extend, ← List.append_assoc]
  exact hu.append hv

theorem finds_quote (text : Text) : Finds [] [] (quote text).units :=
  finds_of_passes fun scan => ⟨text, passes_quote text scan⟩

theorem finds_key (key : Text) : Finds [key] [] ((quote key).units ++ [0x3A]) := by
  intro scan
  refine ⟨key, ?_⟩
  rw [List.append_nil]
  exact (passes_quote key scan).append (passes_mark (by decide) _)

theorem Finds.object (hunits : Finds keys rows u) :
    Finds [] (rows ++ [keys]) (0x7B :: (u ++ [0x7D])) := by
  intro scan
  -- The row that the opening brace begins is the innermost one until the closing brace.
  obtain ⟨last, hinner⟩ := hunits { scan with opened := [] :: scan.opened }
  refine ⟨last, ?_⟩
  rw [extend_nil, ← List.append_assoc]
  have hopening : Passes [0x7B] scan { scan with opened := [] :: scan.opened } :=
    passes_mark (by decide) scan
  exact hopening.append (hinner.append (passes_mark (by decide) _))

/-- A unit that means nothing to a scan. -/
def isIdle (unit : UInt16) : Bool :=
  glyph unit ∉ ['"', ':', '\x7b', '\x7d']

theorem mark_of_isIdle {unit : UInt16} (hidle : isIdle unit = true) (scan : Scan) :
    scan.mark unit = scan := by
  simp only [isIdle, List.mem_cons, List.not_mem_nil, not_or, decide_eq_true_eq] at hidle
  obtain ⟨-, hcolon, hopening, hclosing, -⟩ := hidle
  rw [mark]
  split <;> trivial

theorem finds_idle (hidle : u.all isIdle = true) : Finds [] [] u := by
  induction u with
  | nil => exact Finds.nil
  | cons unit u ih =>
      rw [List.all_cons, Bool.and_eq_true] at hidle
      have hquote : unit ≠ 0x22 := by
        rintro rfl
        exact absurd hidle.1 (by decide)
      have hunit : Finds [] [] [unit] := by
        refine finds_of_passes fun scan => ⟨scan.last, ?_⟩
        have hpass := passes_mark hquote scan
        rwa [mark_of_isIdle hidle.1] at hpass
      exact hunit.append (ih hidle.2)

theorem isIdle_of_isBlank {unit : UInt16} (hunit : isBlank unit = true) : isIdle unit = true := by
  simp only [isBlank, Bool.or_eq_true, beq_iff_eq] at hunit
  rcases hunit with ((rfl | rfl) | rfl) | rfl <;> decide

theorem isIdle_of_isNumberUnit {unit : UInt16} (hunit : isNumberUnit unit = true) :
    isIdle unit = true := by
  rw [isNumberUnit] at hunit
  refine decide_eq_true fun hmem => ?_
  simp only [List.mem_cons, List.not_mem_nil, or_false] at hmem
  rcases hmem with h | h | h | h <;> rw [h] at hunit <;> cases hunit

theorem finds_blanks (hblank : u.all isBlank = true) : Finds [] [] u := by
  refine finds_idle (List.all_eq_true.mpr fun unit hunit => ?_)
  exact isIdle_of_isBlank (List.all_eq_true.mp hblank unit hunit)

theorem finds_parted {α : Type} {gap : List UInt16} (hgap : gap.all isBlank = true)
    {part : α → List UInt16} {keys : α → List Text} {rows : α → List (List Text)}
    {entries : List α} (hparts : ∀ entry ∈ entries, Finds (keys entry) (rows entry) (part entry)) :
    Finds (entries.flatMap keys) (entries.flatMap rows) (parted gap (entries.map part)) := by
  have hfront : ∀ entry ∈ entries, Finds (keys entry) (rows entry) (gap ++ part entry) := by
    intro entry hentry
    exact (finds_blanks hgap).append (hparts entry hentry)
  clear hparts
  -- A comma stands behind every part but the last.
  induction entries with
  | nil => exact Finds.nil
  | cons entry entries ih =>
      have hentry := hfront entry List.mem_cons_self
      have hothers := ih fun other hother => hfront other (List.mem_cons_of_mem _ hother)
      rw [List.flatMap_cons, List.flatMap_cons]
      cases entries with
      | nil => simpa [parted] using hentry
      | cons next entries =>
          rw [parted_cons_cons]
          have hcomma : Finds [] [] [0x2C] := finds_idle (by decide)
          exact hentry.append (hcomma.append hothers)

end Scan

/-! ### Documents -/

mutual

/-- The keys of the objects in a document, those of an object after those of its parts. -/
def keyRows : Json → List (List Text)
  | .array items => itemRows items
  | .object members => memberRows members ++ [Members.keys members]
  | _ => []

def itemRows : List Json → List (List Text)
  | [] => []
  | item :: items => keyRows item ++ itemRows items

def memberRows : List (Text × Json) → List (List Text)
  | [] => []
  | (_, value) :: members => keyRows value ++ memberRows members

end

theorem itemRows_eq_flatMap (items : List Json) : itemRows items = items.flatMap keyRows := by
  induction items with
  | nil => rfl
  | cons item items ih => rw [itemRows, ih, List.flatMap_cons]

theorem memberRows_eq_flatMap (members : List (Text × Json)) :
    memberRows members = members.flatMap fun member => keyRows member.2 := by
  induction members with
  | nil => rfl
  | cons member members ih => rw [memberRows, ih, List.flatMap_cons]

section Rows

variable {N : Double → Prop} {R : Text → Text → Prop} {document : Json}

theorem Throughout.keyRows_pairwise (hdocument : Throughout N R document) :
    ∀ row ∈ document.keyRows, row.Pairwise R := by
  induction hdocument with
  | null | bool | number | string => simp [keyRows]
  | array _ ih =>
      intro row hrow
      rw [keyRows, itemRows_eq_flatMap, List.mem_flatMap] at hrow
      obtain ⟨item, hitem, hrow⟩ := hrow
      exact ih item hitem row hrow
  | object hkeys _ ih =>
      intro row hrow
      rw [keyRows, memberRows_eq_flatMap, List.mem_append, List.mem_flatMap,
        List.mem_singleton] at hrow
      rcases hrow with ⟨member, hmember, hrow⟩ | rfl
      · exact ih member hmember row hrow
      · exact hkeys

end Rows

open Scan

section Compound

variable {style : Style} (depth : ℕ)

theorem finds_member {member : Text × Json}
    (hvalue : Finds [] member.2.keyRows (write style depth member.2).units) :
    Finds [member.1] member.2.keyRows (memberText style depth member).units := by
  have hkey := finds_key member.1
  rw [memberText, units_append, units_append]
  split_ifs
  · have hblank : Finds [] [] [0x20] := finds_idle (by decide)
    have hwhole := hkey.append (hblank.append hvalue)
    rw [List.append_assoc] at hwhole ⊢
    exact hwhole
  · exact hkey.append hvalue

variable (hindent : IsBlankIndent style.indent)

include hindent

theorem finds_array {items : List Json}
    (hitems : ∀ item ∈ items, Finds [] item.keyRows (write style (depth + 1) item).units) :
    Finds [] (keyRows (.array items)) (write style depth (.array items)).units := by
  rw [write, writeItems_eq_map, keyRows, itemRows_eq_flatMap]
  have hopening : Finds [] [] [0x5B] := finds_idle (by decide)
  have hclosing : Finds [] [] [0x5D] := finds_idle (by decide)
  cases items with
  | nil => exact hopening.append hclosing
  | cons item items =>
      obtain ⟨gap, tail, hgap, htail, hunits⟩ := exists_units_bracket hindent "[" "]" depth
        (write style (depth + 1)) item items
      change _ = [0x5B] ++ (_ ++ (tail ++ [0x5D])) at hunits
      have hwhole := hopening.append
        ((finds_parted hgap hitems).append ((finds_blanks htail).append hclosing))
      rw [← hunits, List.flatMap_eq_nil_iff.mpr fun _ _ => rfl] at hwhole
      simpa using hwhole

theorem finds_object {members : Members Json}
    (hmembers : ∀ member ∈ members, Finds [] member.2.keyRows
      (write style (depth + 1) member.2).units) :
    Finds [] (keyRows (.object members)) (write style depth (.object members)).units := by
  rw [write, writeMembers_eq_map, keyRows, memberRows_eq_flatMap]
  cases members with
  | nil => exact Finds.nil.object
  | cons member members =>
      obtain ⟨gap, tail, hgap, htail, hunits⟩ := exists_units_bracket hindent "\x7b" "\x7d" depth
        (memberText style (depth + 1)) member members
      change _ = 0x7B :: (_ ++ (tail ++ [0x7D])) at hunits
      have hparts := finds_parted hgap fun entry hentry =>
        finds_member (depth + 1) (hmembers entry hentry)
      have hwhole := (hparts.append (finds_blanks htail)).object
      rw [List.append_assoc, List.nil_append, List.append_nil, List.append_assoc, ← hunits,
        ← List.map_eq_flatMap] at hwhole
      exact hwhole

end Compound

variable {R : Text → Text → Prop} {layout : Layout} {indent : Option Text}

theorem finds_write (hindent : IsBlankIndent indent) {document : Json}
    (hdocument : Throughout IsPlain R document) (depth : ℕ) :
    Finds [] document.keyRows (write ⟨fun x => x.textWith layout, indent⟩ depth document).units := by
  induction hdocument generalizing depth with
  | null => exact finds_idle rfl
  | bool value => cases value <;> exact finds_idle rfl
  | number hx =>
      have hall := all_units_textWith layout hx.1
      refine finds_idle (List.all_eq_true.mpr fun unit hunit => ?_)
      exact isIdle_of_isNumberUnit (List.all_eq_true.mp hall unit hunit)
  | string text => exact finds_quote text
  | array _ ih => exact finds_array depth hindent fun item hitem => ih item hitem (depth + 1)
  | object _ _ ih =>
      exact finds_object depth hindent fun member hmember => ih member hmember (depth + 1)

/-- **The keys in a text** are those of the document that it was written for. -/
theorem writtenKeys_write (hindent : IsBlankIndent indent) {document : Json}
    (hdocument : Throughout IsPlain R document) :
    writtenKeys (write ⟨fun x => x.textWith layout, indent⟩ 0 document) = document.keyRows := by
  have hfinds : Finds [] document.keyRows
      (write ⟨fun x => x.textWith layout, indent⟩ 0 document).units :=
    finds_write hindent hdocument 0
  obtain ⟨last, hpass⟩ := hfinds {}
  obtain ⟨left, -, hrun⟩ := hpass _ [] le_rfl
  have hnothing : ∀ scan, run left scan [] = scan := by
    intro scan
    cases left <;> rfl
  rw [List.append_nil] at hrun
  rw [writtenKeys, hrun, hnothing, List.nil_append]

end Json

/-! ### Canonical texts -/

namespace Members

open Text

/-- Strictly ascending by code units. -/
def Ascending (row : List Text) : Prop :=
  row.Pairwise fun a b => a ≠ b ∧ keyLE a b = true

instance (row : List Text) : Decidable (Ascending row) :=
  inferInstanceAs (Decidable (row.Pairwise _))

/-- Keys in their arrangement ascend unless an index stands in front of a smaller key. -/
theorem ascending_iff {row : List Text} (hrow : row.Pairwise Precedes) :
    Ascending row ↔ ∀ a ∈ row, ∀ b ∈ row, goesBefore a b = true → keyLE a b = true := by
  constructor
  · intro hascending
    refine List.Pairwise.forall_of_forall_of_flip ?_ ?_ ?_
    · intro key _ _
      exact (keyLE_total key key).elim id id
    · exact hascending.imp fun hab _ => hab.2
    -- Read backwards: no key goes in front of one that stands before it.
    · refine hrow.imp fun hab hgoes => ?_
      rw [hab.inFront.2] at hgoes
      cases hgoes
  · intro hindices
    refine hrow.imp_of_mem fun ha hb hab => ⟨hab.1, ?_⟩
    rcases hab.2 with hgoes | ⟨-, hle⟩
    · exact hindices _ ha _ hb hgoes
    · exact hle

end Members

namespace Canonical

open Members Value

/-- **The keys of every object** in a canonical text stand indices first, by value, then the others
by their code units. They ascend by code units exactly if no index is written in front of a key
that is smaller. -/
theorem write_ascending_iff {value indent : Value} {text : Text}
    (hwrite : write value indent = .ok text) :
    (∃ document : Json, Json.parse? text = some document ∧ Json.writtenKeys text = document.keyRows)
      ∧ ∀ row ∈ Json.writtenKeys text, row.Pairwise Precedes
        ∧ (Ascending row ↔
          ∀ a ∈ row, ∀ b ∈ row, goesBefore a b = true → Text.keyLE a b = true) := by
  obtain ⟨document, hsettled, hall, -⟩ := exists_document_of_write hwrite
  rw [hall] at hwrite
  have hindent : Json.IsBlankIndent (indentUnit indent) := isBlankIndent_indentUnit indent
  have hkeys : Json.writtenKeys text = document.keyRows := by
    rw [← Except.ok.inj hwrite]
    exact Json.writtenKeys_write hindent hsettled
  have hparse : Json.parse? text = some document := by
    rw [← Except.ok.inj hwrite]
    exact parse?_writeDocument hindent hsettled
  refine ⟨⟨document, hparse, hkeys⟩, fun row hrow => ?_⟩
  rw [hkeys] at hrow
  have hprecedes := hsettled.keyRows_pairwise row hrow
  exact ⟨hprecedes, ascending_iff hprecedes⟩

/-- An object with two keys that are array indices, in the order of their code units. -/
def numbered : Value :=
  .object .plain [("10", .bool true), ("9", .bool false)]

def numberedText : Text :=
  "\x7b\"9\":false,\"10\":true\x7d"

theorem write_numbered : write numbered .absent = .ok numberedText := by
  have hfront : goesBefore ("9" : Text) ("10" : Text) = true := by decide +kernel
  have hgather : gather [("10", some (.ofDocument (.bool true))),
      ("9", some (.ofDocument (.bool false)))]
        = { members := [("9", .bool false), ("10", .bool true)] } := by
    change Filling.mk (if goesBefore "9" "10" = true then _ else _) _ = _
    rw [hfront]
    rfl
  rw [write, numbered, Value.normalize, assemble]
  simp only [normalizeMembers]
  rw [sortEntries_of_pairwise (by decide)]
  change Except.ok (writeDocument _ (gather _).form.document) = _
  rw [hgather]
  rfl

theorem numbered_ascending_iff :
    write numbered .absent = .ok numberedText
      ∧ (∃ document : Json, Json.parse? numberedText = some document
        ∧ Json.writtenKeys numberedText = document.keyRows)
      ∧ ∀ row ∈ Json.writtenKeys numberedText, row.Pairwise Precedes
        ∧ (Ascending row ↔
          ∀ a ∈ row, ∀ b ∈ row, goesBefore a b = true → Text.keyLE a b = true) :=
  ⟨write_numbered, write_ascending_iff write_numbered⟩

/-- The index 9 is written in front of the index 10, which is the smaller text. -/
theorem not_write_ascending : ¬ ∀ (value indent : Value) (text : Text),
    write value indent = .ok text → ∀ row ∈ Json.writtenKeys text, Ascending row := by
  intro hascending
  have hkeys : Json.writtenKeys numberedText = [[("9" : Text), ("10" : Text)]] := by
    decide +kernel
  have hrow := hascending numbered .absent numberedText write_numbered ["9", "10"]
  rw [hkeys] at hrow
  exact absurd (hrow (List.mem_singleton_self _)) (by decide)

end Canonical

end AngleSeries
