import AngleSeries.Proofs.AcceptedConfigs
import AngleSeries.Proofs.Documents

/-!
# Collected issues

A reader that has nothing to give reports why, so what is skipped while the rules are read is never
skipped in silence: a rule is left out just if it is reported. The verdict on a document is a matter
of the issues alone, they are handed over whichever way it goes, and in an accepted document every
rule has become the one that it describes.
-/

namespace AngleSeries

namespace Value

/-! ### Parts of a document -/

/-- A part of a document, or one that is missing from it. -/
inductive IsJson : Value → Prop where
  | absent : IsJson .absent
  | found (document : Json) : IsJson (ofJson document)

theorem ofItems_eq_map (items : List Json) : ofItems items = items.map ofJson := by
  induction items with
  | nil => rfl
  | cons item items ih => rw [ofItems, ih, List.map_cons]

theorem isJson_of_mem_ofItems {items : List Json} {value : Value} (hmem : value ∈ ofItems items) :
    value.IsJson := by
  rw [ofItems_eq_map] at hmem
  obtain ⟨document, -, rfl⟩ := List.mem_map.mp hmem
  exact .found document

theorem IsJson.member {value : Value} (hvalue : value.IsJson) (key : Text) :
    (value.member key).IsJson := by
  cases hvalue with
  | absent => exact .absent
  | found document =>
      cases document with
      | object members =>
          rw [ofJson, Value.member]
          induction members with
          | nil => exact .absent
          | cons member members ih =>
              rw [ofMembers, Members.get?_cons]
              split
              · exact .found member.2
              · exact ih
      | _ => exact .absent

theorem exists_toJsonItems {items : List Json}
    (hitems : ∀ item ∈ items, ∃ written, (ofJson item).toJson = .ok written) :
    ∃ written, toJsonItems (ofItems items) = .ok written := by
  induction items with
  | nil => exact ⟨[], rfl⟩
  | cons item items ih =>
      obtain ⟨first, hfirst⟩ := hitems item List.mem_cons_self
      obtain ⟨rest, hrest⟩ := ih fun other hother => hitems other (List.mem_cons_of_mem item hother)
      exact ⟨_, by rw [ofItems, toJsonItems, hfirst, Outcome.ok_bind, hrest, Outcome.ok_bind]⟩

theorem exists_toJsonMembers {members : List (Text × Json)}
    (hmembers : ∀ member ∈ members, ∃ written, (ofJson member.2).toJson = .ok written) :
    ∃ written, toJsonMembers (ofMembers members) = .ok written := by
  induction members with
  | nil => exact ⟨[], rfl⟩
  | cons member members ih =>
      obtain ⟨first, hfirst⟩ := hmembers member List.mem_cons_self
      obtain ⟨rest, hrest⟩ := ih fun other hother =>
        hmembers other (List.mem_cons_of_mem member hother)
      exact ⟨_, by rw [ofMembers, toJsonMembers, hfirst, Outcome.ok_bind, hrest, Outcome.ok_bind]⟩

/-- Only an integer of unbounded size cannot be written, and a document has none. -/
theorem exists_toJson (document : Json) : ∃ written, (ofJson document).toJson = .ok written := by
  induction document using Json.nested_induction with
  | array items ih =>
      obtain ⟨written, hwritten⟩ := exists_toJsonItems ih
      exact ⟨_, by rw [ofJson, toJson, hwritten]; rfl⟩
  | object members ih =>
      obtain ⟨written, hwritten⟩ := exists_toJsonMembers ih
      rw [ofJson, toJson, hwritten]
      split
      · exact ⟨_, rfl⟩
      · exact ⟨_, rfl⟩
  | single document hsingle =>
      cases document with
      | array _ | object _ => cases hsingle
      | _ => exact ⟨_, rfl⟩

theorem IsJson.exists_documentText {value : Value} (hvalue : value.IsJson) :
    ∃ text, value.documentText = .ok text := by
  cases hvalue with
  | absent => exact ⟨_, rfl⟩
  | found document =>
      obtain ⟨written, hwritten⟩ := exists_toJson document
      exact ⟨_, by rw [documentText, hwritten]; rfl⟩

theorem isRecord_of_member_ne {value : Value} {key : Text} (hmember : value.member key ≠ .absent) :
    value.isRecord = true := by
  cases value <;> first | rfl | exact absurd rfl hmember

theorem isText_iff {value : Value} {text : Text} : value.isText text = true ↔ value = .string text := by
  rw [isText, beq_iff_eq]
  cases value <;> simp [string?]

/-! ### What a rule says -/

/-- A parameter stands for an integer, or for one if it is left out. -/
inductive Asks : Value → ℤ → Prop where
  | missing {value : Value} (hmissing : value.isPresent = false) : Asks value 1
  | number {x : Double} {n : ℤ} (hn : x.toSafeInt? = some n) : Asks (.number x) n
  | text {text : Text} {n : ℤ} (hn : Numeral.readInt? (Text.trim text.chars) = some n) :
      Asks (.string text) n

/-- A parameter stands for a width, or for sixteen if it is left out. -/
inductive AsksWidth : Value → Double → Prop where
  | missing {value : Value} (hmissing : value.isPresent = false) : AsksWidth value 16
  | number {x : Double} (hvalid : (RuleSpec.hashRollover x).Valid) : AsksWidth (.number x) x

section Asked

variable {value : Value} {x : Double} {text : Text} {n : ℤ}

theorem orElse_of_missing (hmissing : value.isPresent = false) (fallback : Value) :
    value.orElse fallback = fallback := by
  rw [orElse, hmissing, if_neg Bool.false_ne_true]

theorem orElse_of_present (hpresent : value.isPresent = true) (fallback : Value) :
    value.orElse fallback = value := by
  rw [orElse, hpresent, if_pos rfl]

theorem asks_number_iff : (Value.number x).Asks n ↔ x.toSafeInt? = some n := by
  refine ⟨fun hasks => ?_, .number⟩
  cases hasks with
  | missing hmissing => cases hmissing
  | number hn => exact hn

theorem asks_text_iff :
    (Value.string text).Asks n ↔ Numeral.readInt? (Text.trim text.chars) = some n := by
  refine ⟨fun hasks => ?_, .text⟩
  cases hasks with
  | missing hmissing => cases hmissing
  | text hn => exact hn

theorem asks_missing_iff (hmissing : value.isPresent = false) : value.Asks n ↔ n = 1 := by
  constructor
  · intro hasks
    cases hasks with
    | missing => rfl
    | number | text => cases hmissing
  · rintro rfl
    exact .missing hmissing

theorem toInteger_eq_ok_iff (hplain : value.IsPlain) {field : Text} :
    value.toInteger field = .ok n ↔ value.Asks n := by
  cases hplain with
  | text text =>
      rw [asks_text_iff, toInteger]
      cases Numeral.readInt? (Text.trim text.chars) with
      | some i => simp
      | none => simp [reject_ne_ok]
  | number x =>
      rw [asks_number_iff, toInteger]
      cases x.toSafeInt? with
      | some i => simp
      | none => simp [reject_ne_ok]

theorem asksWidth_number_iff {bits : Double} :
    (Value.number x).AsksWidth bits ↔ bits = x ∧ (RuleSpec.hashRollover x).Valid := by
  constructor
  · intro hasks
    cases hasks with
    | missing hmissing => cases hmissing
    | number hvalid => exact ⟨rfl, hvalid⟩
  · rintro ⟨rfl, hvalid⟩
    exact .number hvalid

theorem asksWidth_missing_iff (hmissing : value.isPresent = false) {bits : Double} :
    value.AsksWidth bits ↔ bits = 16 := by
  constructor
  · intro hasks
    cases hasks with
    | missing => rfl
    | number => cases hmissing
  · intro hbits
    rw [hbits]
    exact .missing hmissing

end Asked

end Value

/-- A rule of a payload describes a rule: the same kind with the same parameter. -/
def RuleSpec.ReadFrom (spec : RuleSpec) (rule : Value) : Prop :=
  rule.member "kind" = .string spec.kind ∧
    match spec with
    | .incrementX delta => (rule.member "delta").Asks delta
    | .incrementCrc delta => (rule.member "delta").Asks delta
    | .hashRollover bits => (rule.member "bits").AsksWidth bits

/-- A reading has found what is said, and an issue rejects the payload just if nothing is. -/
structure Reading.Tells {α : Type} (reading : Reading (Option α)) (meant : α → Prop) : Prop where
  value_iff : ∀ a, reading.value = some a ↔ meant a
  clean_iff : Clean reading.issues ↔ ∃ a, reading.value = some a

namespace Reading

variable {α β : Type} {meant : α → Prop}

theorem tells_some {a : α} (hmeant : ∀ b, meant b ↔ b = a) :
    (⟨some a, []⟩ : Reading (Option α)).Tells meant :=
  ⟨fun b => by rw [hmeant, Option.some_inj, eq_comm], iff_of_true clean_nil ⟨a, rfl⟩⟩

theorem tells_none (code message : Text) (path : List PathStep) (hmeant : ∀ a, ¬ meant a) :
    (⟨none, [.fatal code message path]⟩ : Reading (Option α)).Tells meant := by
  refine ⟨fun a => iff_of_false ?_ (hmeant a), iff_of_false (not_clean_fatal _ _ _ _) ?_⟩
  · intro ha
    cases ha
  · rintro ⟨a, ha⟩
    cases ha

theorem Tells.congr {reading : Reading (Option α)} (htells : reading.Tells meant)
    {meant' : α → Prop} (hsame : ∀ a, meant' a ↔ meant a) : reading.Tells meant' :=
  ⟨fun a => (htells.value_iff a).trans (hsame a).symm, htells.clean_iff⟩

theorem Tells.map {reading : Reading (Option α)} (htells : reading.Tells meant) (f : α → β)
    {meantMapped : β → Prop} (hmeant : ∀ b, meantMapped b ↔ ∃ a, meant a ∧ f a = b) :
    (⟨reading.value.map f, reading.issues⟩ : Reading (Option β)).Tells meantMapped := by
  refine ⟨fun b => ?_, htells.clean_iff.trans ?_⟩
  · rw [Option.map_eq_some_iff, hmeant]
    exact exists_congr fun a => and_congr_left' (htells.value_iff a)
  · simp only [Option.map_eq_some_iff]
    exact ⟨fun ⟨a, ha⟩ => ⟨f a, a, ha, rfl⟩, fun ⟨_, a, ha, _⟩ => ⟨a, ha⟩⟩

end Reading

namespace Config

section Parameters

variable {rule : Value} {path : List PathStep}

/-- An amount that is given is read as an integer, and reported if it is none. -/
theorem toInteger_tells {value : Value} (hplain : value.IsPlain) (field : Text)
    (path : List PathStep) :
    Reading.Tells (match value.toInteger field with
      | .ok delta => ⟨some delta, []⟩
      | .error fault => ⟨none, [.fatal "rules/delta/invalid" fault.wording path]⟩)
      value.Asks := by
  cases houtcome : value.toInteger field with
  | ok n =>
      refine Reading.tells_some fun m => ?_
      rw [← Value.toInteger_eq_ok_iff hplain, houtcome, Except.ok.injEq, eq_comm]
  | error fault =>
      refine Reading.tells_none _ _ _ fun m hm => ?_
      rw [← Value.toInteger_eq_ok_iff hplain, houtcome] at hm
      cases hm

theorem readDelta_tells (field : Field) :
    (readDelta rule field path).Tells (rule.member "delta").Asks := by
  have hone (n : ℤ) : n = 1 ↔ (Value.number 1).Asks n := by
    have hsafe : (1 : Double).toSafeInt? = some 1 := by decide +kernel
    rw [Value.asks_number_iff, hsafe, Option.some_inj, eq_comm]
  unfold readDelta
  generalize rule.member "delta" = value
  cases hpresent : value.isPresent with
  | false =>
      rw [Value.orElse_of_missing hpresent]
      -- The default is only used through what it asks for; its digits are not to be looked at.
      generalize (1 : Double) = one at hone ⊢
      exact (toInteger_tells (.number one) _ _).congr fun n => (Value.asks_missing_iff hpresent).trans (hone n)
  | true =>
      rw [Value.orElse_of_present hpresent]
      cases value with
      | number x => exact toInteger_tells (.number x) _ _
      | string text => exact toInteger_tells (.text text) _ _
      | _ =>
          refine Reading.tells_none _ _ _ fun n hn => ?_
          cases hn with
          | missing hmissing => cases hpresent.symm.trans hmissing

theorem readBits_tells : (readBits rule path).Tells (rule.member "bits").AsksWidth := by
  unfold readBits
  generalize rule.member "bits" = value
  cases hpresent : value.isPresent with
  | false =>
      have hsixteen : (16 : Double).toInt? = some 16 := Double.toInt?_ofNat (by decide)
      rw [Value.orElse_of_missing hpresent]
      dsimp only
      rw [hsixteen]
      dsimp only
      rw [if_pos (by decide)]
      exact Reading.tells_some fun bits => Value.asksWidth_missing_iff hpresent
  | true =>
      rw [Value.orElse_of_present hpresent]
      cases value with
      | number x =>
          dsimp only
          cases hx : x.toInt? with
          | none =>
              refine Reading.tells_none _ _ _ fun bits hbits => ?_
              obtain ⟨-, n, hn, -⟩ := Value.asksWidth_number_iff.mp hbits
              cases hx.symm.trans hn
          | some n =>
              dsimp only
              split
              case isTrue hrange =>
                refine Reading.tells_some fun bits => ?_
                rw [Value.asksWidth_number_iff]
                exact and_iff_left ⟨n, hx, hrange⟩
              case isFalse hrange =>
                refine Reading.tells_none _ _ _ fun bits hbits => ?_
                obtain ⟨-, m, hm, hrange'⟩ := Value.asksWidth_number_iff.mp hbits
                rw [hx] at hm
                exact hrange (Option.some.inj hm ▸ hrange')
      | _ =>
          refine Reading.tells_none _ _ _ fun n hn => ?_
          cases hn with
          | missing hmissing => cases hpresent.symm.trans hmissing

end Parameters

/-! ### Rules -/

section Rules

variable {rule : Value} {path : List PathStep}

/-- With one of the kinds, what is left to read is its parameter. -/
theorem readRule_tells {reading : Reading (Option RuleSpec)}
    (hread : readRule rule path = .ok reading) :
    reading.Tells fun spec => spec.ReadFrom rule := by
  have hxCrc : ("increment-x" : Text) ≠ "increment-crc" := by decide
  have hxHash : ("increment-x" : Text) ≠ "hash-rollover" := by decide
  have hcrcHash : ("increment-crc" : Text) ≠ "hash-rollover" := by decide
  simp only [readRule] at hread
  split at hread
  case isTrue hrecord =>
    cases hread
    refine Reading.tells_none _ _ _ fun spec hspec => ?_
    have hmember : rule.member "kind" ≠ .absent := by
      rw [hspec.1]
      exact Value.noConfusion
    rw [Value.isRecord_of_member_ne hmember] at hrecord
    cases hrecord
  case isFalse =>
    split at hread
    case isTrue hkind =>
      cases hread
      have hkind := Value.isText_iff.mp hkind
      refine (readDelta_tells .x).map RuleSpec.incrementX fun spec => ?_
      cases spec <;> simp [RuleSpec.ReadFrom, RuleSpec.kind, hkind, hxCrc, hxHash]
    case isFalse hnotX =>
      split at hread
      case isTrue hkind =>
        cases hread
        have hkind := Value.isText_iff.mp hkind
        refine (readDelta_tells .crcValue).map RuleSpec.incrementCrc fun spec => ?_
        cases spec <;> simp [RuleSpec.ReadFrom, RuleSpec.kind, hkind, hxCrc.symm, hcrcHash]
      case isFalse hnotCrc =>
        split at hread
        case isTrue hkind =>
          cases hread
          have hkind := Value.isText_iff.mp hkind
          refine readBits_tells.map RuleSpec.hashRollover fun spec => ?_
          cases spec <;>
            simp [RuleSpec.ReadFrom, RuleSpec.kind, hkind, hxHash.symm, hcrcHash.symm]
        case isFalse hnotHash =>
          obtain ⟨shown, -, heq⟩ := Outcome.bind_eq_ok_iff.mp hread
          cases heq
          refine Reading.tells_none _ _ _ fun spec hspec => ?_
          cases spec with
          | incrementX => exact hnotX (Value.isText_iff.mpr hspec.1)
          | incrementCrc => exact hnotCrc (Value.isText_iff.mpr hspec.1)
          | hashRollover => exact hnotHash (Value.isText_iff.mpr hspec.1)

/-- A rule is left out just if it is reported, so without a report every rule is there. -/
theorem forall₂_of_readRulesFrom {rules : List Value} {index : ℕ}
    {reading : Reading (List RuleSpec)} (hread : readRulesFrom index rules = .ok reading)
    (hclean : Clean reading.issues) :
    List.Forall₂ (fun rule spec => spec.ReadFrom rule) rules reading.value := by
  induction rules generalizing index reading with
  | nil =>
      cases hread
      exact .nil
  | cons rule rules ih =>
      simp only [readRulesFrom, Outcome.bind_eq_ok_iff] at hread
      obtain ⟨first, hfirst, rest, hrest, heq⟩ := hread
      cases heq
      obtain ⟨hfirstClean, hrestClean⟩ := (clean_append _ _).mp hclean
      have htells := readRule_tells hfirst
      obtain ⟨spec, hspec⟩ := htells.clean_iff.mp hfirstClean
      dsimp only
      rw [hspec]
      exact .cons ((htells.value_iff spec).mp hspec) (ih hrest hrestClean)

theorem forall₂_of_readRules {payload : Value} {entries : List Value}
    (hmember : payload.member "rules" = .array entries) {reading : Reading (List RuleSpec)}
    (hread : readRules payload = .ok reading) (hclean : Clean reading.issues) :
    List.Forall₂ (fun rule spec => spec.ReadFrom rule) entries reading.value := by
  rw [readRules, hmember] at hread
  cases entries with
  | nil =>
      cases hread
      exact .nil
  | cons entry entries => exact forall₂_of_readRulesFrom hread hclean

/-! ### Nothing else goes wrong -/

theorem exists_readRule (hrule : rule.IsJson) (path : List PathStep) :
    ∃ reading, readRule rule path = .ok reading := by
  obtain ⟨shown, hshown⟩ := (hrule.member "kind").exists_documentText
  simp only [readRule, hshown, Outcome.ok_bind]
  split_ifs <;> exact ⟨_, rfl⟩

theorem exists_readRulesFrom {rules : List Value} (hrules : ∀ rule ∈ rules, rule.IsJson)
    (index : ℕ) : ∃ reading, readRulesFrom index rules = .ok reading := by
  induction rules generalizing index with
  | nil => exact ⟨_, rfl⟩
  | cons rule rules ih =>
      obtain ⟨first, hfirst⟩ := exists_readRule (hrules rule List.mem_cons_self) (rulePath index)
      obtain ⟨rest, hrest⟩ := ih (fun other hother =>
        hrules other (List.mem_cons_of_mem rule hother)) (index + 1)
      exact ⟨_, by rw [readRulesFrom, hfirst, Outcome.ok_bind, hrest, Outcome.ok_bind]⟩

theorem exists_readRules {payload : Value} (hpayload : payload.IsJson) :
    ∃ reading, readRules payload = .ok reading := by
  have hmember := hpayload.member "rules"
  rw [readRules]
  generalize payload.member "rules" = part at hmember ⊢
  cases hmember with
  | absent => exact ⟨_, rfl⟩
  | found document =>
      cases document with
      | array items =>
          cases items with
          | nil => exact ⟨_, rfl⟩
          | cons item items =>
              exact exists_readRulesFrom (fun rule hrule => Value.isJson_of_mem_ofItems hrule) 0
      | _ => exact ⟨_, rfl⟩

end Rules

/-! ### The verdict on a document -/

/-- The issues that come together while a payload is checked: one if it is no object, and else those
of all its sections. -/
inductive Collects (payload : Value) : List Issue → Prop where
  | root (hrecord : payload.isRecord = false) :
      Collects payload [.fatal "config/type" "Run config root must be an object" []]
  | sections {rules : Reading (List RuleSpec)} (hrecord : payload.isRecord = true)
      (hrules : readRules payload = .ok rules) : Collects payload (allIssues payload rules)

theorem not_clean_iff {issues : List Issue} :
    ¬ Clean issues ↔ ∃ issue ∈ issues, issue.severity = .error := by
  simp [Clean]

theorem Clean.warnings {issues : List Issue} (hclean : Clean issues) :
    ∀ issue ∈ issues, issue.severity = .warning := by
  intro issue hissue
  have hne := hclean issue hissue
  cases hseverity : issue.severity with
  | error => exact absurd hseverity hne
  | warning => rfl

/-- **Nothing is lost.** Checking a document collects issues, and it fails just if one of them is an
error. It fails only with the report of all of them, and otherwise all of them are warnings and each
rule of the document has become the rule it describes. -/
theorem validate_reports (document : Json) :
    ∃ issues, Collects (Value.ofJson document) issues
      ∧ ((∃ fault, validate (Value.ofJson document) = .error fault)
        ↔ ∃ issue ∈ issues, issue.severity = .error)
      ∧ (∀ fault, validate (Value.ofJson document) = .error fault →
        ∃ message, fault = .badConfig message issues)
      ∧ ∀ reading, validate (Value.ofJson document) = .ok reading →
        reading.issues = issues ∧ (∀ issue ∈ issues, issue.severity = .warning)
          ∧ ∀ entries, (Value.ofJson document).member "rules" = .array entries →
            List.Forall₂ (fun rule spec => spec.ReadFrom rule) entries reading.value.rules := by
  generalize hpayload : Value.ofJson document = payload
  cases hrecord : payload.isRecord with
  | false =>
      have herror : validate payload = .error (.badConfig "Run config root must be an object"
          [.fatal "config/type" "Run config root must be an object" []]) := by
        rw [validate, hrecord]
        rfl
      refine ⟨_, .root hrecord, ?_⟩
      rw [herror, ← not_clean_iff]
      refine ⟨iff_of_true ⟨_, rfl⟩ (not_clean_fatal _ _ _ _), ?_, ?_⟩
      · rintro fault ⟨⟩
        exact ⟨_, rfl⟩
      · intro reading hok
        cases hok
  | true =>
      have hjson : payload.IsJson := hpayload ▸ Value.IsJson.found document
      obtain ⟨rules, hrules⟩ := exists_readRules hjson
      refine ⟨_, .sections hrecord hrules, ?_⟩
      rw [← not_clean_iff]
      rcases validate_cases hrecord hrules with ⟨hclean, reading, hok, hissues, -⟩
        | ⟨hfatal, message, herror⟩
      · rw [hok]
        refine ⟨iff_of_false ?_ (not_not.mpr hclean), ?_, ?_⟩
        · rintro ⟨fault, hfault⟩
          cases hfault
        · intro fault hfault
          cases hfault
        · rintro found ⟨⟩
          refine ⟨hissues, Clean.warnings hclean, fun entries hentries => ?_⟩
          obtain ⟨issues, hread, hcleanRules⟩ := (readFrom_of_validate hok).rules
          exact forall₂_of_readRules hentries hread hcleanRules
      · rw [herror]
        refine ⟨iff_of_true ⟨_, rfl⟩ hfatal, ?_, ?_⟩
        · rintro fault ⟨⟩
          exact ⟨message, rfl⟩
        · intro reading hok
          cases hok

/-- Three rules, two of which leave out their parameter. -/
def ruled : Json :=
  .object [("inputs", Plan.smallTexts.toJson),
    ("rules", .array [
      .object [("kind", .string "increment-x"), ("delta", .string " -2 ")],
      .object [("kind", .string "increment-crc"), ("delta", .null)],
      .object [("kind", .string "hash-rollover")]])]

theorem ruled_reports : ∃ reading, validate (Value.ofJson ruled) = .ok reading
    ∧ reading.value.rules.length = 3
    ∧ ∀ issue ∈ reading.issues, issue.severity = .warning := by
  have hany : (validate (Value.ofJson ruled)).toOption.any (fun _ => true) = true := by
    decide +kernel
  obtain ⟨reading, hok, -⟩ := Outcome.exists_of_any hany
  obtain ⟨issues, -, -, -, haccepted⟩ := validate_reports ruled
  obtain ⟨rfl, hwarnings, hrules⟩ := haccepted reading hok
  exact ⟨reading, hok, (hrules _ rfl).length_eq.symm, hwarnings⟩

end Config

end AngleSeries
