import AngleSeries.Proofs.Arrangement
import AngleSeries.Proofs.Documents
import AngleSeries.Proofs.QuotedTexts

/-!
# Documents read back

The text of a document is read back as that document, on one line or indented, if every number is
finite and no zero has a sign, and if the members of every object stand where putting them again
would leave them. The reader's bound shrinks by two at each item, and an item that is followed by a
comma takes at least two characters off twice the length of the text, so the bound never runs out.
Items and members are read by two loops that go the same way between their brackets; what the two
share is `Bracketed`, and one induction over the entries serves both.
-/

namespace AngleSeries.Json

open Numeral Text

/-- A number that its text does not change. -/
def IsPlain (x : Double) : Prop :=
  x.isFinite = true ∧ x.plainZero = x

/-! ### Blanks -/

theorem skipBlanks_append {front : List UInt16} (hfront : front.all isBlank = true)
    (text : List UInt16) : skipBlanks (front ++ text) = skipBlanks text :=
  List.dropWhile_append_of_pos (List.all_eq_true.mp hfront)

theorem skipBlanks_cons {unit : UInt16} (hunit : isBlank unit = false) (text : List UInt16) :
    skipBlanks (unit :: text) = unit :: text :=
  List.dropWhile_cons_of_neg (Bool.eq_false_iff.mp hunit)

/-- Blanks in front of a value count for nothing. -/
theorem readValue?_append {front : List UInt16} (hfront : front.all isBlank = true) (bound : ℕ)
    (text : List UInt16) : readValue? bound (front ++ text) = readValue? bound text := by
  cases bound with
  | zero => rfl
  | succ bound => rw [readValue?, readValue?, skipBlanks_append hfront]

/-- No blank belongs to a number. -/
theorem isNumberUnit_of_isBlank {unit : UInt16} (hunit : isBlank unit = true) :
    isNumberUnit unit = false := by
  simp only [isBlank, Bool.or_eq_true, beq_iff_eq] at hunit
  rcases hunit with ((rfl | rfl) | rfl) | rfl <;> decide

theorem stops_of_blank {front : List UInt16} (hfront : front.all isBlank = true) {unit : UInt16}
    (hunit : isNumberUnit unit = false) (text : List UInt16) :
    Stops isNumberUnit (front ++ unit :: text) := by
  cases front with
  | nil => exact stops_cons hunit
  | cons blank front =>
      rw [List.all_cons, Bool.and_eq_true] at hfront
      exact stops_cons (isNumberUnit_of_isBlank hfront.1)

/-! ### Parts between brackets -/

/-- Parts with commas between them, each behind a gap. -/
def parted (gap : List UInt16) : List (List UInt16) → List UInt16
  | [] => []
  | [part] => gap ++ part
  | part :: next :: parts => gap ++ part ++ 0x2C :: parted gap (next :: parts)

theorem parted_cons_cons {α : Type} (gap : List UInt16) (part : α → List UInt16) (a b : α)
    (rest : List α) :
    parted gap ((a :: b :: rest).map part)
      = gap ++ part a ++ 0x2C :: parted gap ((b :: rest).map part) := rfl

theorem append_intercalate (line inner part : List UInt16) (parts : List (List UInt16)) :
    line ++ List.intercalate (0x2C :: line) ((part :: parts).map (inner ++ ·))
      = parted (line ++ inner) (part :: parts) := by
  induction parts generalizing part with
  | nil => simp [List.intercalate, parted]
  | cons next parts ih =>
      rw [parted, ← ih next]
      simp [List.intercalate]

/-- Every unit of an indentation is a blank. -/
def IsBlankIndent (indent : Option Text) : Prop :=
  ∀ unit ∈ indent, unit.units.all isBlank = true

theorem all_indentation {unit : Text} (hunit : unit.units.all isBlank = true) (depth : ℕ) :
    (indentation unit depth).units.all isBlank = true := by
  have hflat : (indentation unit depth).units = (List.replicate depth unit).flatMap Text.units :=
    rfl
  rw [hflat, List.all_eq_true]
  intro blank hblank
  obtain ⟨text, htext, hmem⟩ := List.mem_flatMap.mp hblank
  rw [List.eq_of_mem_replicate htext] at hmem
  exact List.all_eq_true.mp hunit blank hmem

theorem units_append (a b : Text) : (a ++ b).units = a.units ++ b.units := rfl

theorem units_join (separator : Text) (texts : List Text) :
    (Text.join separator texts).units
      = List.intercalate separator.units (texts.map Text.units) := rfl

/-- Between brackets there are the parts, with blanks before each of them and after the last. -/
theorem exists_units_bracket {α : Type} {style : Style} (hindent : IsBlankIndent style.indent)
    (opening closing : Text) (depth : ℕ) (part : α → Text) (entry : α) (entries : List α) :
    ∃ gap tail : List UInt16, gap.all isBlank = true ∧ tail.all isBlank = true
      ∧ (bracket style opening closing depth ((entry :: entries).map part)).units
        = opening.units
          ++ (parted gap ((entry :: entries).map fun entry => (part entry).units)
            ++ (tail ++ closing.units)) := by
  rw [bracket, List.map_cons, List.isEmpty_cons, if_neg Bool.false_ne_true]
  cases hstyle : style.indent with
  | none =>
      refine ⟨[], [], rfl, rfl, ?_⟩
      have hparts := append_intercalate [] [] (part entry).units
        (entries.map fun entry => (part entry).units)
      simp only [List.nil_append, List.map_id'] at hparts
      dsimp only
      rw [List.map_cons, ← hparts, units_append, units_append, units_join, List.append_assoc,
        List.nil_append, List.map_cons, List.map_map]
      rfl
  | some unit =>
      have hblank := hindent unit hstyle
      have hparts := append_intercalate [10] (indentation unit (depth + 1)).units (part entry).units
        (entries.map fun entry => (part entry).units)
      refine ⟨[10] ++ (indentation unit (depth + 1)).units, [10] ++ (indentation unit depth).units,
        ?_, ?_, ?_⟩
      · rw [List.all_append, all_indentation hblank]
        rfl
      · rw [List.all_append, all_indentation hblank]
        rfl
      · dsimp only
        rw [List.map_cons (f := fun entry => (part entry).units), ← hparts]
        simp only [units_append, units_join, List.map_map, List.map_cons, List.append_assoc]
        rfl

/-! ### Entries between brackets -/

/-- Units from which a value is read back, whatever comes after them. -/
def ReadsBack (document : Json) (units : List UInt16) : Prop :=
  ∀ (bound : ℕ) (rest : List UInt16), 2 * units.length ≤ bound → Stops isNumberUnit rest →
    readValue? bound (units ++ rest) = some (document, rest)

section Entries

variable {α : Type}

/-- How the loops over items and over members go on behind an entry: past a comma with the entries
after it, and past the closing bracket without. -/
def readBehind? (closing : Char) (others : List UInt16 → Option (List α × List UInt16)) (entry : α)
    (text : List UInt16) : Option (List α × List UInt16) :=
  match after? ',' (skipBlanks text) with
  | some rest => do
    let (entries, rest) ← others rest
    some (entry :: entries, rest)
  | none => (after? closing (skipBlanks text)).map fun rest => ([entry], rest)

theorem readBehind?_comma (closing : Char) (others : List UInt16 → Option (List α × List UInt16))
    (entry : α) (text : List UInt16) :
    readBehind? closing others entry (0x2C :: text)
      = (others text).bind fun (entries, rest) => some (entry :: entries, rest) := by
  rw [readBehind?, skipBlanks_cons (by decide)]
  rfl

/-- Behind the entry come those that the loop goes on to read, if there are any. -/
theorem others_of_readBehind? {closing : Char}
    {others : List UInt16 → Option (List α × List UInt16)} {entry : α} {text rest : List UInt16}
    {entries : List α} (hread : readBehind? closing others entry text = some (entries, rest)) :
    ∃ behind, entries = entry :: behind
      ∧ (behind = [] ∨ ∃ text rest, others text = some (behind, rest)) := by
  rw [readBehind?] at hread
  split at hread
  case h_1 =>
    obtain ⟨⟨behind, last⟩, hothers, hresult⟩ := Option.bind_eq_some_iff.mp hread
    cases hresult
    exact ⟨behind, rfl, .inr ⟨_, _, hothers⟩⟩
  case h_2 =>
    obtain ⟨_, -, hresult⟩ := Option.map_eq_some_iff.mp hread
    cases hresult
    exact ⟨[], rfl, .inl rfl⟩

/-- A pair of brackets, the loop that reads the entries between them, and the document that entries
make up. -/
structure Bracketed (opening closing : UInt16) (IsEntry : α → List UInt16 → Prop)
    (read : ℕ → List UInt16 → Option (List α × List UInt16)) (make : List α → Json) : Prop where
  blank : isBlank closing = false
  number : isNumberUnit closing = false
  comma : glyph closing ≠ ','
  opens : ∀ bound text, readValue? (bound + 1) (opening :: text) =
    match after? (glyph closing) (skipBlanks text) with
    | some rest => some (make [], rest)
    | none => (read bound text).map fun (entries, rest) => (make entries, rest)
  first : ∀ {gap units rest : List UInt16} {entry : α} {bound : ℕ}, gap.all isBlank = true →
    IsEntry entry units → 2 * units.length ≤ bound → Stops isNumberUnit rest →
      read (bound + 1) (gap ++ (units ++ rest))
        = readBehind? (glyph closing) (read bound) entry rest
  unclosed : ∀ {bound : ℕ} {text rest : List UInt16} {entries : List α},
    read bound text = some (entries, rest) → after? (glyph closing) (skipBlanks text) = none

namespace Bracketed

variable {opening closing : UInt16} {IsEntry : α → List UInt16 → Prop}
  {read : ℕ → List UInt16 → Option (List α × List UInt16)} {make : List α → Json}
  (hbrackets : Bracketed opening closing IsEntry read make)

include hbrackets

theorem readBehind?_closing {tail : List UInt16} (htail : tail.all isBlank = true)
    (others : List UInt16 → Option (List α × List UInt16)) (entry : α) (rest : List UInt16) :
    readBehind? (glyph closing) others entry (tail ++ closing :: rest) = some ([entry], rest) := by
  rw [readBehind?, skipBlanks_append htail, skipBlanks_cons hbrackets.blank, after?,
    if_neg hbrackets.comma, after?, if_pos rfl, Option.map_some]

/-- The loop reads all entries, up to the closing bracket. -/
theorem read_parted {gap tail : List UInt16} (hgap : gap.all isBlank = true)
    (htail : tail.all isBlank = true) {part : α → List UInt16} {entry : α} {entries : List α}
    (hentries : ∀ other ∈ entry :: entries, IsEntry other (part other)) {bound : ℕ}
    (hbound : 2 * (parted gap ((entry :: entries).map part)).length < bound)
    (rest : List UInt16) :
    read bound (parted gap ((entry :: entries).map part) ++ (tail ++ closing :: rest))
      = some (entry :: entries, rest) := by
  obtain ⟨bound, rfl⟩ : ∃ k, bound = k + 1 := ⟨bound - 1, by omega⟩
  have hentry := hentries entry List.mem_cons_self
  induction entries generalizing entry bound with
  | nil =>
      simp only [List.map_singleton, parted, List.length_append] at hbound
      have hstop : Stops isNumberUnit (tail ++ closing :: rest) :=
        stops_of_blank htail hbrackets.number rest
      rw [List.map_singleton, parted, List.append_assoc,
        hbrackets.first hgap hentry (by omega) hstop, hbrackets.readBehind?_closing htail]
  | cons next entries ih =>
      rw [parted_cons_cons] at hbound ⊢
      simp only [List.length_append, List.length_cons] at hbound
      obtain ⟨bound, rfl⟩ : ∃ k, bound = k + 1 := ⟨bound - 1, by omega⟩
      have hothers := ih (fun other hother => hentries other (List.mem_cons_of_mem _ hother)) bound
        (by omega) (hentries next (List.mem_cons_of_mem _ List.mem_cons_self))
      rw [List.append_assoc, List.append_assoc, List.cons_append,
        hbrackets.first hgap hentry (by omega) (stops_cons (by decide)), readBehind?_comma, hothers,
        Option.bind_some]

/-- The document is read back if its entries are. -/
theorem readsBack {style : Style} (hindent : IsBlankIndent style.indent) (depth : ℕ)
    {part : α → Text} {entries : List α}
    (hentries : ∀ entry ∈ entries, IsEntry entry (part entry).units) :
    ReadsBack (make entries)
      (bracket style ⟨[opening]⟩ ⟨[closing]⟩ depth (entries.map part)).units := by
  intro bound rest hbound hrest
  cases entries with
  | nil =>
      change 2 * 2 ≤ bound at hbound
      obtain ⟨bound, rfl⟩ : ∃ k, bound = k + 1 := ⟨bound - 1, by omega⟩
      change readValue? (bound + 1) (opening :: closing :: rest) = _
      rw [hbrackets.opens, skipBlanks_cons hbrackets.blank, after?, if_pos rfl]
  | cons entry entries =>
      obtain ⟨gap, tail, hgap, htail, hunits⟩ := exists_units_bracket hindent ⟨[opening]⟩
        ⟨[closing]⟩ depth part entry entries
      change _ = opening :: (_ ++ (tail ++ [closing])) at hunits
      rw [hunits] at hbound ⊢
      simp only [List.length_cons, List.length_append, List.length_nil] at hbound
      obtain ⟨bound, rfl⟩ : ∃ k, bound = k + 1 := ⟨bound - 1, by omega⟩
      have hread : read bound _ = some (entry :: entries, rest) :=
        hbrackets.read_parted hgap htail hentries (by omega) rest
      rw [List.cons_append, List.append_assoc, List.append_assoc, List.singleton_append,
        hbrackets.opens, hbrackets.unclosed hread, hread, Option.map_some]

end Bracketed

end Entries

/-! ### Items -/

theorem readValue?_array (bound : ℕ) (text : List UInt16) : readValue? (bound + 1) (0x5B :: text) =
    match after? ']' (skipBlanks text) with
    | some rest => some (.array [], rest)
    | none => (readItems? bound text).map fun (items, rest) => (.array items, rest) := by
  rw [readValue?, skipBlanks_cons (by decide)]
  rfl

theorem readItems?_succ (bound : ℕ) (text : List UInt16) : readItems? (bound + 1) text =
    (readValue? bound text).bind fun (item, rest) =>
      readBehind? ']' (readItems? bound) item rest := by
  rw [readItems?]
  rfl

/-- No value begins with a closing bracket. -/
theorem readValue?_closing {bound : ℕ} {text : List UInt16} {document : Json} {rest : List UInt16}
    (hread : readValue? bound text = some (document, rest)) :
    after? ']' (skipBlanks text) = none := by
  cases bound with
  | zero => cases hread
  | succ bound =>
      cases htext : skipBlanks text with
      | nil => rfl
      | cons unit units =>
          rw [after?, if_neg]
          intro hglyph
          rw [readValue?, htext] at hread
          simp only [hglyph] at hread
          have hnumber : isNumberUnit unit = false := by
            rw [isNumberUnit, hglyph]
            rfl
          have hstop : Stops isNumberUnit (unit :: units) := stops_cons hnumber
          have hspan : ([] ++ unit :: units).span isNumberUnit = ([], unit :: units) :=
            span_append rfl hstop
          rw [readNumber?, ← show isNumberUnit = fun unit => isNumberChar (glyph unit) from rfl,
            ← List.nil_append (unit :: units), hspan] at hread
          cases hread

theorem bracketed_items : Bracketed 0x5B 0x5D ReadsBack readItems? .array where
  blank := by decide
  number := by decide
  comma := by decide
  opens := readValue?_array
  first hgap hitem hbound hrest := by
    rw [readItems?_succ, readValue?_append hgap, hitem _ _ hbound hrest, Option.bind_some]
    rfl
  unclosed := by
    intro bound text rest items hread
    cases bound with
    | zero => cases hread
    | succ bound =>
        rw [readItems?_succ, Option.bind_eq_some_iff] at hread
        obtain ⟨⟨item, after⟩, hitem, -⟩ := hread
        exact readValue?_closing hitem

/-! ### Members -/

theorem readValue?_object (bound : ℕ) (text : List UInt16) :
    readValue? (bound + 1) (0x7B :: text) =
    match after? '\x7d' (skipBlanks text) with
    | some rest => some (.object [], rest)
    | none => (readMembers? bound text).map fun (entries, rest) =>
        (.object (Members.ofList entries), rest) := by
  rw [readValue?, skipBlanks_cons (by decide)]
  rfl

theorem readMembers?_succ (bound : ℕ) (text : List UInt16) : readMembers? (bound + 1) text =
    (after? '"' (skipBlanks text)).bind fun rest =>
    (readUnits? bound rest).bind fun (units, rest) =>
    (after? ':' (skipBlanks rest)).bind fun rest =>
    (readValue? bound rest).bind fun (value, rest) =>
      readBehind? '\x7d' (readMembers? bound) (⟨units⟩, value) rest := by
  rw [readMembers?]
  rfl

/-- Units from which a member is read back: a quoted key, a colon and, perhaps behind blanks, the
value. -/
def IsMember (member : Text × Json) (units : List UInt16) : Prop :=
  ∃ blanks value : List UInt16,
    units = 0x22 :: (escape member.1.units ++ 0x22 :: 0x3A :: (blanks ++ value))
      ∧ blanks.all isBlank = true ∧ ReadsBack member.2 value

theorem length_le_escape (units : List UInt16) : units.length ≤ (escape units).length := by
  have hunit : ∀ unit, 1 ≤ (escapeUnit unit).length := by
    intro unit
    unfold escapeUnit
    split_ifs <;> simp [asciiUnits]
  fun_induction escape units with
  | case1 high low units hpair ih => simpa using ih
  | case2 unit next units hsingle ih =>
      have hfirst := hunit unit
      rw [List.length_append, List.length_cons]
      omega
  | case3 unit => exact hunit unit
  | case4 => exact le_rfl

/-- What follows a member decides how the reader goes on. -/
theorem readMembers?_first {gap : List UInt16} (hgap : gap.all isBlank = true)
    {member : Text × Json} {units : List UInt16} (hmember : IsMember member units) {bound : ℕ}
    (hbound : 2 * units.length ≤ bound) {rest : List UInt16} (hrest : Stops isNumberUnit rest) :
    readMembers? (bound + 1) (gap ++ (units ++ rest))
      = readBehind? '\x7d' (readMembers? bound) member rest := by
  obtain ⟨blanks, value, rfl, hblank, hvalue⟩ := hmember
  have hkey := length_le_escape member.1.units
  simp only [List.length_cons, List.length_append] at hbound
  have hquote : ∀ text, after? '"' (0x22 :: text) = some text := fun _ => rfl
  have hcolon : ∀ text, after? ':' (0x3A :: text) = some text := fun _ => rfl
  rw [readMembers?_succ, skipBlanks_append hgap, List.cons_append, skipBlanks_cons (by decide),
    hquote, Option.bind_some, List.append_assoc, List.cons_append, List.cons_append,
    readUnits?_escape (by omega), Option.bind_some]
  dsimp only
  rw [skipBlanks_cons (by decide), hcolon, Option.bind_some, List.append_assoc,
    readValue?_append hblank, hvalue bound rest (by omega) hrest, Option.bind_some]

/-- No member begins with a closing brace. -/
theorem readMembers?_closing {bound : ℕ} {text : List UInt16} {members : List (Text × Json)}
    {rest : List UInt16} (hread : readMembers? bound text = some (members, rest)) :
    after? '\x7d' (skipBlanks text) = none := by
  cases bound with
  | zero => cases hread
  | succ bound =>
      rw [readMembers?_succ, Option.bind_eq_some_iff] at hread
      obtain ⟨after, hquote, -⟩ := hread
      cases htext : skipBlanks text with
      | nil => rfl
      | cons unit units =>
          rw [htext, after?] at hquote
          rw [after?, if_neg]
          intro hglyph
          rw [hglyph] at hquote
          cases hquote

theorem bracketed_members : Bracketed 0x7B 0x7D IsMember readMembers?
    fun members => .object (Members.ofList members) where
  blank := by decide
  number := by decide
  comma := by decide
  opens := readValue?_object
  first hgap hmember hbound hrest := readMembers?_first hgap hmember hbound hrest
  unclosed := readMembers?_closing

/-! ### Documents -/

theorem writeItems_eq_map (style : Style) (depth : ℕ) (items : List Json) :
    writeItems style depth items = items.map (write style depth) := by
  induction items with
  | nil => rfl
  | cons item items ih => rw [writeItems, ih, List.map_cons]

/-- The text of a member. -/
def memberText (style : Style) (depth : ℕ) (member : Text × Json) : Text :=
  Text.quote member.1 ++ (if style.indent.isSome then ": " else ":") ++ write style depth member.2

theorem writeMembers_eq_map (style : Style) (depth : ℕ) (members : List (Text × Json)) :
    writeMembers style depth members = members.map (memberText style depth) := by
  induction members with
  | nil => rfl
  | cons member members ih => rw [writeMembers, ih, List.map_cons, memberText]

theorem isMember_memberText {style : Style} {depth : ℕ} {member : Text × Json}
    (hvalue : ReadsBack member.2 (write style depth member.2).units) :
    IsMember member (memberText style depth member).units := by
  rw [memberText, units_append, units_append]
  split_ifs
  · refine ⟨[0x20], _, ?_, rfl, hvalue⟩
    simp only [Text.quote, List.cons_append, List.append_assoc, List.nil_append]
    rfl
  · refine ⟨[], _, ?_, rfl, hvalue⟩
    simp only [Text.quote, List.cons_append, List.append_assoc, List.nil_append]
    rfl

/-! The reader looks at the first unit and decides by it. -/

section Openings

variable (bound : ℕ) (rest : List UInt16)

theorem readValue?_string : readValue? (bound + 1) (0x22 :: rest) =
    (readUnits? bound rest).map fun (units, rest) => (.string ⟨units⟩, rest) := by
  rw [readValue?, skipBlanks_cons (by decide)]
  rfl

theorem readValue?_number {unit : UInt16} (hunit : isNumberUnit unit = true) :
    readValue? (bound + 1) (unit :: rest) =
      (readNumber? (unit :: rest)).map fun (x, rest) => (.number x, rest) := by
  have hblank : isBlank unit = false := by
    by_contra hblank
    rw [isNumberUnit_of_isBlank (Bool.eq_true_of_not_eq_false hblank)] at hunit
    cases hunit
  rw [readValue?, skipBlanks_cons hblank]
  dsimp only
  rw [isNumberUnit] at hunit
  split
  all_goals first
    | rfl
    | rename_i hglyph; rw [hglyph] at hunit; cases hunit

end Openings

variable {layout : Layout} {indent : Option Text}

theorem readsBack_number {x : Double} (hx : IsPlain x) :
    ReadsBack (.number x) (ofString (x.textWith layout)).units := by
  intro bound rest hbound hrest
  have hread := readNumber?_textWith layout hx.1 hrest
  obtain ⟨unit, units, hunits, hunit⟩ := exists_units_textWith layout hx.1
  rw [hunits] at hbound hread ⊢
  rw [List.length_cons] at hbound
  obtain ⟨bound, rfl⟩ : ∃ k, bound = k + 1 := ⟨bound - 1, by omega⟩
  rw [List.cons_append] at hread ⊢
  rw [readValue?_number bound _ hunit, hread, hx.2, Option.map_some]

theorem readsBack_string (text : Text) : ReadsBack (.string text) (Text.quote text).units := by
  intro bound rest hbound hrest
  have hlength := length_le_escape text.units
  simp only [Text.quote, List.length_cons, List.length_append] at hbound
  obtain ⟨bound, rfl⟩ : ∃ k, bound = k + 1 := ⟨bound - 1, by omega⟩
  rw [Text.quote, List.cons_append, readValue?_string, List.append_assoc, List.singleton_append,
    readUnits?_escape (by omega), Option.map_some]

section Compound

variable {style : Style} (hindent : IsBlankIndent style.indent) (depth : ℕ)

include hindent

theorem readsBack_array {items : List Json}
    (hitems : ∀ item ∈ items, ReadsBack item (write style (depth + 1) item).units) :
    ReadsBack (.array items) (write style depth (.array items)).units := by
  rw [write, writeItems_eq_map]
  exact bracketed_items.readsBack hindent depth hitems

theorem readsBack_object {members : Members Json}
    (hkeys : (Members.keys members).Pairwise Members.InFront)
    (hmembers : ∀ member ∈ members, ReadsBack member.2 (write style (depth + 1) member.2).units) :
    ReadsBack (.object members) (write style depth (.object members)).units := by
  have hback := bracketed_members.readsBack hindent depth
    fun member hmember => isMember_memberText (hmembers member hmember)
  rw [Members.ofList_eq_self hkeys] at hback
  rw [write, writeMembers_eq_map]
  exact hback

end Compound

/-- **Documents are read back.** -/
theorem readsBack_write (hindent : IsBlankIndent indent) {document : Json}
    (hdocument : Throughout IsPlain Members.InFront document) (depth : ℕ) :
    ReadsBack document (write ⟨fun x => x.textWith layout, indent⟩ depth document).units := by
  induction hdocument generalizing depth with
  | null =>
      intro bound rest hbound hrest
      change 2 * 4 ≤ bound at hbound
      obtain ⟨bound, rfl⟩ : ∃ k, bound = k + 1 := ⟨bound - 1, by omega⟩
      rfl
  | bool value =>
      intro bound rest hbound hrest
      cases value with
      | false =>
          change 2 * 5 ≤ bound at hbound
          obtain ⟨bound, rfl⟩ : ∃ k, bound = k + 1 := ⟨bound - 1, by omega⟩
          rfl
      | true =>
          change 2 * 4 ≤ bound at hbound
          obtain ⟨bound, rfl⟩ : ∃ k, bound = k + 1 := ⟨bound - 1, by omega⟩
          rfl
  | number hx => exact readsBack_number hx
  | string text => exact readsBack_string text
  | array _ ih => exact readsBack_array hindent depth fun item hitem => ih item hitem (depth + 1)
  | object hkeys _ ih =>
      exact readsBack_object hindent depth hkeys fun member hmember => ih member hmember (depth + 1)

/-- **A document is read back from its text.** -/
theorem parse?_write (hindent : IsBlankIndent indent) {document : Json}
    (hdocument : Throughout IsPlain Members.InFront document) :
    parse? (write ⟨fun x => x.textWith layout, indent⟩ 0 document) = some document := by
  have hback : ReadsBack document (write ⟨fun x => x.textWith layout, indent⟩ 0 document).units :=
    readsBack_write hindent hdocument 0
  have hread := hback (2 * (write ⟨fun x => x.textWith layout, indent⟩ 0 document).units.length + 2)
    [] (by omega) stops_nil
  rw [List.append_nil] at hread
  rw [parse?, hread]
  rfl

end AngleSeries.Json
