import AngleSeries.CommandLine.Documents
import AngleSeries.Proofs.Acceptance
import AngleSeries.Proofs.LosslessTexts

/-!
# The document of a run

What a digest is taken of is written like a document of four parts, with the amounts of its rules as
texts. A checked configuration has nothing in it that a document could not hold, so the text exists
exactly if the numbers of the records are finite, and is refused for one that is not.
-/

namespace AngleSeries

open Value Canonical

/-! ### Documents of the parts -/

def RuleSpec.document (spec : RuleSpec) : Json :=
  .object [("kind", .string spec.kind),
    match spec with
    | .incrementX delta => ("delta", integerText delta)
    | .incrementCrc delta => ("delta", integerText delta)
    | .hashRollover bits => ("bits", .number bits)]

def RunSettings.document (run : RunSettings) : Json :=
  .object [("steps", .number run.steps), ("scale", .number run.scale), ("shots", .number run.shots),
    ("oracle", .string run.oracle.name), ("seed", .number run.seed),
    ("commitPolicy", .string run.commitPolicy.name)]

namespace Record

/-- The answer of an oracle that answers with numbers. -/
def share (record : Record) : Double :=
  record.p1.number?.getD .nan

/-- The oracle answered with a number. -/
def IsMeasured (record : Record) : Prop :=
  record.p1 = .number record.share

theorem isMeasured_of_number {record : Record} {p : Double} (hp : record.p1 = .number p) :
    record.IsMeasured ∧ record.share = p := by
  have hshare : record.share = p := by
    rw [share, hp]
    rfl
  exact ⟨by rw [IsMeasured, hshare, hp], hshare⟩

def document (record : Record) : Json :=
  .object [("t", .number record.t), ("S", .string record.s), ("theta", .number record.theta),
    ("p1", .number record.share), ("expZ", .number record.expZ)]

/-- Numbers that a document can hold. -/
structure IsFinite (record : Record) : Prop where
  t : record.t.isFinite = true
  theta : record.theta.isFinite = true
  share : record.share.isFinite = true
  expZ : record.expZ.isFinite = true

end Record

namespace Config

def document (config : Config) (records : List Record) : Json :=
  .object [("inputs", config.inputs.texts.toJson),
    ("rules", .array (config.rules.map RuleSpec.document)),
    ("run", config.run.document),
    ("records", .array (records.map Record.document))]

end Config

/-! ### The same form -/

namespace Value

theorem normalize_object_eq {members : List (Text × Value)} {documents : List (Text × Json)}
    (hwithdrawn : isWithdrawn members = false)
    (hmembers : normalizeMembers members = normalizeMembers (ofMembers documents)) :
    (Value.object .plain members).normalize = (ofJson (.object documents)).normalize := by
  rw [ofJson, normalize, normalize, hwithdrawn, isWithdrawn_ofMembers, hmembers]

theorem normalize_array_eq {α : Type} (parts : List α) {value : α → Value} {document : α → Json}
    (hparts : ∀ part ∈ parts, (value part).normalize = (ofJson (document part)).normalize) :
    (Value.array (parts.map value)).normalize
      = (ofJson (.array (parts.map document))).normalize := by
  have hitems :
      normalizeItems (parts.map value) = normalizeItems (ofItems (parts.map document)) := by
    induction parts with
    | nil => rfl
    | cons part parts ih =>
        rw [List.map_cons, List.map_cons, ofItems, normalizeItems, normalizeItems,
          hparts part (List.mem_cons_self ..),
          ih fun other hother => hparts other (List.mem_cons_of_mem part hother)]
  rw [ofJson, normalize, normalize, hitems]

end Value

theorem InputTexts.normalize_toValue (texts : InputTexts) :
    texts.toValue.normalize = (ofJson texts.toJson).normalize :=
  normalize_object_eq rfl rfl

theorem RuleSpec.normalize_toValue (spec : RuleSpec) :
    spec.toValue.normalize = (ofJson spec.document).normalize := by
  cases spec <;> exact normalize_object_eq rfl rfl

theorem Record.normalize_toValue {record : Record} (hmeasured : record.IsMeasured) :
    record.toValue.normalize = (ofJson record.document).normalize := by
  refine normalize_object_eq rfl ?_
  rw [hmeasured]
  rfl

/-- The value that a digest is taken of is written like the document. -/
theorem Plan.normalize_identity (config : Config) {records : List Record}
    (hmeasured : ∀ record ∈ records, record.IsMeasured) :
    ((Plan.ofConfig config {}).identity records).normalize
      = (ofJson (config.document records)).normalize := by
  have hrules := normalize_array_eq config.rules
    fun spec _ => RuleSpec.normalize_toValue spec
  have hrecords := normalize_array_eq records
    fun record hrecord => Record.normalize_toValue (hmeasured record hrecord)
  have hrun : (Plan.ofConfig config {}).settings.toValue.normalize
      = (ofJson config.run.document).normalize := normalize_object_eq rfl rfl
  refine normalize_object_eq rfl ?_
  simp only [normalizeMembers, ofMembers]
  rw [hrun, ← hrecords, ← hrules, ← InputTexts.normalize_toValue]
  rfl

theorem Plan.write_identity (config : Config) {records : List Record}
    (hmeasured : ∀ record ∈ records, record.IsMeasured) :
    Canonical.write ((Plan.ofConfig config {}).identity records) .absent
      = Canonical.write (ofJson (config.document records)) .absent := by
  rw [Canonical.write, Canonical.write, normalize_identity config hmeasured]

/-! ### What the document holds -/

namespace Json

section Parts

variable {members : Members Json} {items : List Json} {x : Double} {text : Text}

theorem ordered_object (names : List Text) (hkeys : Members.keys members = names)
    (hnames : names.Pairwise Members.InFront) (hvalues : ∀ member ∈ members, Ordered member.2) :
    Ordered (.object members) :=
  .object (hkeys ▸ hnames) hvalues

@[simp]
theorem ordered_string : Ordered (.string text) :=
  .string text

@[simp]
theorem ordered_number : Ordered (.number x) :=
  .number trivial

@[simp]
theorem isFinite_string : IsFinite (.string text) :=
  .string text

@[simp]
theorem isFinite_number_iff : IsFinite (.number x) ↔ x.isFinite = true := by
  refine ⟨fun hfinite => ?_, fun hx => .number hx⟩
  cases hfinite with
  | number hx => exact hx

@[simp]
theorem isFinite_array_iff : IsFinite (.array items) ↔ ∀ item ∈ items, IsFinite item := by
  refine ⟨fun hfinite => ?_, .array⟩
  cases hfinite with
  | array hitems => exact hitems

@[simp]
theorem isFinite_object_iff :
    IsFinite (.object members) ↔ ∀ member ∈ members, IsFinite member.2 := by
  refine ⟨fun hfinite => ?_, .object (List.pairwise_of_forall fun _ _ => trivial)⟩
  cases hfinite with
  | object _ hvalues => exact hvalues

end Parts

end Json

theorem InputTexts.ordered_toJson (texts : InputTexts) : texts.toJson.Ordered := by
  refine Json.ordered_object ["pi", "lambda", "mu", "x", "hashHex", "blockSize", "crcValue"]
    rfl (by decide +kernel) fun member hmember => ?_
  obtain ⟨entry, -, rfl⟩ := List.mem_map.mp hmember
  exact .string _

theorem RuleSpec.ordered_document (spec : RuleSpec) : spec.document.Ordered := by
  cases spec with
  | incrementX delta | incrementCrc delta =>
      refine Json.ordered_object ["kind", "delta"] rfl (by decide +kernel) ?_
      simp [integerText]
  | hashRollover bits =>
      refine Json.ordered_object ["kind", "bits"] rfl (by decide +kernel) ?_
      simp

theorem RunSettings.ordered_document (run : RunSettings) : run.document.Ordered := by
  refine Json.ordered_object ["steps", "scale", "shots", "oracle", "seed", "commitPolicy"] rfl
    (by decide +kernel) ?_
  simp

theorem Record.ordered_document (record : Record) : record.document.Ordered := by
  refine Json.ordered_object ["t", "S", "theta", "p1", "expZ"] rfl (by decide +kernel) ?_
  simp

theorem Config.ordered_document (config : Config) (records : List Record) :
    (config.document records).Ordered := by
  refine Json.ordered_object ["inputs", "rules", "run", "records"] rfl (by decide +kernel) ?_
  simp only [List.forall_mem_cons]
  refine ⟨config.inputs.texts.ordered_toJson, .array ?_, config.run.ordered_document, .array ?_, ?_⟩
  · intro item hitem
    obtain ⟨spec, -, rfl⟩ := List.mem_map.mp hitem
    exact spec.ordered_document
  · intro item hitem
    obtain ⟨record, -, rfl⟩ := List.mem_map.mp hitem
    exact record.ordered_document
  · intro member hmember
    cases hmember

theorem Record.isFinite_document_iff (record : Record) :
    record.document.IsFinite ↔ record.IsFinite := by
  simp only [document, Json.isFinite_object_iff, List.forall_mem_cons, Json.isFinite_number_iff,
    Json.isFinite_string]
  constructor
  · rintro ⟨ht, -, htheta, hshare, hexpZ, -⟩
    exact ⟨ht, htheta, hshare, hexpZ⟩
  · rintro ⟨ht, htheta, hshare, hexpZ⟩
    exact ⟨ht, trivial, htheta, hshare, hexpZ, fun _ hmember => nomatch hmember⟩

theorem IsCount.isFinite {lowest : ℕ} {count : Double} (hcount : IsCount lowest count) :
    count.isFinite = true := by
  obtain ⟨n, hn, -⟩ := hcount
  exact Double.isFinite_of_toInt? (Option.filter_eq_some_iff.mp hn).1

theorem RunSettings.Valid.isFinite_document {run : RunSettings} (hvalid : run.Valid) :
    run.document.IsFinite := by
  simp [document, hvalid.steps.isFinite, hvalid.shots.isFinite, hvalid.seed.isFinite, hvalid.scale]

theorem RuleSpec.Valid.isFinite_document {spec : RuleSpec} (hvalid : spec.Valid) :
    spec.document.IsFinite := by
  cases spec with
  | incrementX delta | incrementCrc delta => simp [document, integerText]
  | hashRollover bits =>
      obtain ⟨n, hn, -⟩ := hvalid
      simp [document, Double.isFinite_of_toInt? hn]

theorem InputTexts.isFinite_toJson (texts : InputTexts) : texts.toJson.IsFinite := by
  rw [toJson, Json.isFinite_object_iff]
  intro member hmember
  obtain ⟨entry, -, rfl⟩ := List.mem_map.mp hmember
  exact Json.isFinite_string

section Checked

variable {config : Config} (hvalid : config.Valid)

include hvalid

/-- Settings and rules that passed their checks are finite, so only the records count. -/
theorem Config.isFinite_document_iff (records : List Record) :
    (config.document records).IsFinite ↔ ∀ record ∈ records, record.IsFinite := by
  simp only [Config.document, Json.isFinite_object_iff, List.forall_mem_cons,
    Json.isFinite_array_iff, List.forall_mem_map, Record.isFinite_document_iff]
  constructor
  · rintro ⟨-, -, -, hrecords, -⟩
    exact hrecords
  · intro hrecords
    exact ⟨config.inputs.texts.isFinite_toJson,
      fun spec hspec => (hvalid.rules spec hspec).isFinite_document,
      hvalid.run.isFinite_document, hrecords, fun _ hmember => nomatch hmember⟩

/-- **When a run has a digest.** Exactly if the numbers of all its records are finite. -/
theorem Plan.digest_cases {records : List Record}
    (hmeasured : ∀ record ∈ records, record.IsMeasured) :
    (∀ record ∈ records, record.IsFinite)
        ∧ (∃ digest, (ofConfig config {}).digest records = .ok digest)
      ∨ (∃ record ∈ records, ¬ record.IsFinite) ∧ ∃ x : Double, x.isFinite = false
        ∧ (ofConfig config {}).digest records = .error (.nonFiniteNumber x.text) := by
  have hordered := config.ordered_document records
  have hwrite := write_identity config hmeasured
  by_cases hfinite : (config.document records).IsFinite
  · left
    refine ⟨(Config.isFinite_document_iff hvalid records).mp hfinite, ?_⟩
    have haccepted := (rewrite_same hordered hfinite).1
    exact ⟨_, by rw [digest, hwrite, write_of_accepted haccepted, Outcome.ok_bind]⟩
  · right
    refine ⟨?_, ?_⟩
    · by_contra hnone
      push Not at hnone
      exact hfinite ((Config.isFinite_document_iff hvalid records).mpr hnone)
    · obtain ⟨x, hx, hfault⟩ := write_of_refused (refused_of_not_finite hordered hfinite) .absent
      exact ⟨x, hx, by rw [digest, hwrite, hfault, Outcome.error_bind]⟩

end Checked

end AngleSeries
