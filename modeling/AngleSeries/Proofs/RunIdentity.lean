import AngleSeries.Proofs.Agreement
import AngleSeries.Proofs.RunDocuments

/-!
# What a digest tells apart

The text that a digest is taken of determines what it was written for. Nothing in it is tagged, so
this is a matter of looking things up: the members of an object are found by their names, the items
of an array by their places, and at the leaves there are texts and numbers. A text is written as it
is and a number up to the sign of zero; and of the amounts that become texts, integers all, no two
have the same one.
-/

namespace AngleSeries

open Value Canonical

/-! ### Written documents -/

/-- Entries with the same keys in the same places are compared place by place. -/
theorem Members.perm_iff_of_keys {α : Type} {members others : List (Text × α)}
    (hkeys : members.map Prod.fst = others.map Prod.fst)
    (hnodup : (members.map Prod.fst).Nodup) :
    members.Perm others ↔ members.map Prod.snd = others.map Prod.snd := by
  constructor
  · intro hperm
    refine congrArg (List.map Prod.snd) (List.ext_getElem hperm.length_eq fun i hi hother => ?_)
    have hkey : (members.map Prod.fst)[i]? = (others.map Prod.fst)[i]? := by rw [hkeys]
    rw [List.getElem?_map, List.getElem?_map, List.getElem?_eq_getElem hi,
      List.getElem?_eq_getElem hother, Option.map_some, Option.map_some, Option.some_inj] at hkey
    exact eq_of_mem_of_nodup (hkeys ▸ hnodup) (hperm.mem_iff.mp (List.getElem_mem hi))
      (List.getElem_mem hother) hkey
  · intro hvalues
    have hsame : members = others := by
      rw [← List.zip_unzip members, ← List.zip_unzip others, List.unzip_fst, List.unzip_snd,
        List.unzip_fst, List.unzip_snd, hkeys, hvalues]
    rw [hsame]

namespace Json

/-- A document that is written without a fault and keeps each of its members. -/
structure Writable (document : Json) : Prop where
  ordered : document.Ordered
  finite : document.IsFinite

theorem Writable.accepted {document : Json} (hdocument : document.Writable) : Accepted document :=
  (rewrite_same hdocument.ordered hdocument.finite).1

/-- A document as it is written. -/
def written (document : Json) : Json :=
  (rewrite document).document

theorem written_string (text : Text) : written (.string text) = .string text := by
  have hnormal : (ofJson (.string text)).normalize = .ok (some (.ofDocument (.string text))) := rfl
  rw [written, (accepted_of_normalize hnormal).2]
  rfl

theorem written_number {x : Double} (hx : x.isFinite = true) :
    written (.number x) = .number x.plainZero := by
  have hnormal : (ofJson (.number x)).normalize
      = .ok (some (.ofDocument (.number x.plainZero))) := by
    rw [ofJson, Value.normalize, hx]
    rfl
  rw [written, (accepted_of_normalize hnormal).2]
  rfl

theorem written_array {items : List Json} (hitems : ∀ item ∈ items, Writable item) :
    written (.array items) = .array (items.map written) :=
  (rewrite_array fun item hitem => (hitems item hitem).accepted).2

section Objects

variable {members others : Members Json}

theorem Writable.member {member : Text × Json} (hwritable : Writable (.object members))
    (hmember : member ∈ members) : Writable member.2 := by
  obtain ⟨hordered, hfinite⟩ := hwritable
  cases hordered with
  | object _ hordered =>
      exact ⟨hordered member hmember, isFinite_object_iff.mp hfinite member hmember⟩

theorem Writable.nodup (hwritable : Writable (.object members)) :
    (members.map Prod.fst).Nodup := by
  cases hwritable.ordered with
  | object hkeys _ => exact Members.nodup_of_inFront hkeys

/-- Objects are written alike if they keep the same members. -/
theorem written_object_iff (hmembers : Writable (.object members))
    (hothers : Writable (.object others)) :
    written (.object members) = written (.object others)
      ↔ (keptMembers members).Perm (keptMembers others) := by
  obtain ⟨-, kept, hkept, hperm, hprecedes⟩ :=
    rewrite_object hmembers.nodup fun member hmember => (hmembers.member hmember).accepted
  obtain ⟨-, keptOthers, hkeptOthers, hpermOthers, hprecedesOthers⟩ :=
    rewrite_object hothers.nodup fun member hmember => (hothers.member hmember).accepted
  rw [written, written, hkept, hkeptOthers]
  constructor
  · intro hsame
    cases hsame
    exact hperm.symm.trans hpermOthers
  · intro hsame
    rw [Members.eq_of_perm_of_precedes ((hperm.trans hsame).trans hpermOthers.symm) hprecedes
      hprecedesOthers]

/-- The members of objects with the same names are compared one by one. -/
theorem written_object_eq_iff (names : List Text) (hmemberNames : Members.keys members = names)
    (hotherNames : Members.keys others = names) (hlink : linkName ∉ names)
    (hmembers : Writable (.object members)) (hothers : Writable (.object others)) :
    written (.object members) = written (.object others)
      ↔ (members.map fun member => written member.2)
        = others.map fun member => written member.2 := by
  have hkept {members : Members Json} (hnames : Members.keys members = names) :
      keptMembers members = members.map fun member => (member.1, written member.2) := by
    rw [keptMembers, List.filter_eq_self.mpr]
    · rfl
    · intro member hmember
      refine decide_eq_true fun hkey => hlink ?_
      rw [← hnames, ← hkey]
      exact List.mem_map_of_mem hmember
  have hkeys (members : Members Json) :
      (members.map fun member => (member.1, written member.2)).map Prod.fst
        = Members.keys members := by
    rw [List.map_map]
    rfl
  rw [written_object_iff hmembers hothers, hkept hmemberNames, hkept hotherNames,
    Members.perm_iff_of_keys, List.map_map, List.map_map]
  · rfl
  · rw [hkeys, hkeys, hmemberNames, hotherNames]
  · rw [hkeys]
    exact hmembers.nodup

theorem get?_keptMembers {key : Text} (hkey : key ≠ linkName) (members : Members Json) :
    Members.get? (keptMembers members) key = (Members.get? members key).map written := by
  induction members with
  | nil => rfl
  | cons member members ih =>
      obtain ⟨name, value⟩ := member
      have hcons : keptMembers ((name, value) :: members)
          = if name = linkName then keptMembers members
            else (name, written value) :: keptMembers members := by
        by_cases hname : name = linkName
        · rw [keptMembers, List.filter_cons_of_neg (by simpa using hname), if_pos hname,
            keptMembers]
        · rw [keptMembers, List.filter_cons_of_pos (by simpa using hname), if_neg hname,
            keptMembers]
          rfl
      rw [hcons, Members.get?_cons]
      by_cases hname : name = key
      · rw [if_pos hname, if_neg (hname ▸ hkey), Members.get?_cons, if_pos hname]
        rfl
      · rw [if_neg hname, ← ih]
        split
        · rfl
        · rw [Members.get?_cons, if_neg hname]

/-- Whatever the names are, a member is found in objects that are written alike. -/
theorem get?_of_written_eq {key : Text} (hkey : key ≠ linkName)
    (hmembers : Writable (.object members)) (hothers : Writable (.object others))
    (hsame : written (.object members) = written (.object others)) :
    (Members.get? members key).map written = (Members.get? others key).map written := by
  have hperm := (written_object_iff hmembers hothers).mp hsame
  have hnodup : (Members.keys (keptMembers members)).Nodup := by
    rw [Members.keys, keptMembers, List.map_map]
    exact hmembers.nodup.sublist (List.filter_sublist.map Prod.fst)
  rw [← get?_keptMembers hkey, ← get?_keptMembers hkey, Members.get?_eq_of_perm hperm hnodup]

end Objects

end Json

/-! ### Up to the sign of zero -/

/-- The settings with a zero of either sign as zero. -/
def RunSettings.plain (run : RunSettings) : RunSettings :=
  { run with
    steps := run.steps.plainZero
    scale := run.scale.plainZero
    shots := run.shots.plainZero
    seed := run.seed.plainZero }

/-- A measured record with a zero of either sign as zero. -/
def Record.plain (record : Record) : Record where
  t := record.t.plainZero
  s := record.s
  theta := record.theta.plainZero
  p1 := .number record.share.plainZero
  expZ := record.expZ.plainZero

theorem Double.isFinite_plainZero_iff {x : Double} :
    x.plainZero.isFinite = true ↔ x.isFinite = true := by
  refine ⟨fun hfinite => ?_, isFinite_plainZero⟩
  by_cases hzero : x.isZero = true
  · cases x with
    | finite => rfl
    | infinite => cases hzero
    | nan => cases hzero
  · rwa [plainZero, if_neg hzero] at hfinite

theorem Record.isFinite_plain_iff {record : Record} : record.plain.IsFinite ↔ record.IsFinite := by
  constructor
  · rintro ⟨ht, htheta, hshare, hexpZ⟩
    exact ⟨Double.isFinite_plainZero_iff.mp ht, Double.isFinite_plainZero_iff.mp htheta,
      Double.isFinite_plainZero_iff.mp hshare, Double.isFinite_plainZero_iff.mp hexpZ⟩
  · rintro ⟨ht, htheta, hshare, hexpZ⟩
    exact ⟨Double.isFinite_plainZero ht, Double.isFinite_plainZero htheta,
      Double.isFinite_plainZero hshare, Double.isFinite_plainZero hexpZ⟩

/-! ### Parts of a run -/

theorem map_eq_map_iff_of_iff {α β γ : Type} {f : α → β} {g : α → γ} {first second : List α}
    (hparts : ∀ a ∈ first, ∀ b ∈ second, f a = f b ↔ g a = g b) :
    first.map f = second.map f ↔ first.map g = second.map g := by
  induction first generalizing second with
  | nil => cases second <;> simp
  | cons a first ih =>
      cases second with
      | nil => simp
      | cons b second =>
          simp only [List.map_cons, List.cons.injEq]
          refine and_congr (hparts a (List.mem_cons_self ..) b (List.mem_cons_self ..)) (ih ?_)
          intro c hc d hd
          exact hparts c (List.mem_cons_of_mem a hc) d (List.mem_cons_of_mem b hd)

section Parts

open Json

theorem InputTexts.writable_toJson (texts : InputTexts) : Writable texts.toJson :=
  ⟨texts.ordered_toJson, texts.isFinite_toJson⟩

theorem Record.IsFinite.writable {record : Record} (hfinite : record.IsFinite) :
    Writable record.document :=
  ⟨record.ordered_document, record.isFinite_document_iff.mpr hfinite⟩

theorem RunSettings.Valid.writable {run : RunSettings} (hvalid : run.Valid) :
    Writable run.document :=
  ⟨run.ordered_document, hvalid.isFinite_document⟩

theorem RuleSpec.Valid.writable {spec : RuleSpec} (hvalid : spec.Valid) : Writable spec.document :=
  ⟨spec.ordered_document, hvalid.isFinite_document⟩

theorem Config.Valid.writable {config : Config} (hvalid : config.Valid) {records : List Record}
    (hfinite : ∀ record ∈ records, record.IsFinite) : Writable (config.document records) :=
  ⟨config.ordered_document records, (isFinite_document_iff hvalid records).mpr hfinite⟩

theorem InputTexts.written_toJson_iff (texts others : InputTexts) :
    written texts.toJson = written others.toJson ↔ texts = others := by
  rw [toJson, toJson, written_object_eq_iff
    ["pi", "lambda", "mu", "x", "hashHex", "blockSize", "crcValue"] rfl rfl (by decide +kernel)
    texts.writable_toJson others.writable_toJson]
  cases texts
  cases others
  simp [entries, written_string]

theorem Record.written_document_iff {record other : Record} (hrecord : record.IsFinite)
    (hother : other.IsFinite) :
    written record.document = written other.document ↔ record.plain = other.plain := by
  rw [document, document, written_object_eq_iff ["t", "S", "theta", "p1", "expZ"] rfl rfl
    (by decide +kernel) hrecord.writable hother.writable]
  simp [written_string, written_number, plain, Text.ofString_inj, hrecord.t, hrecord.theta,
    hrecord.share, hrecord.expZ, hother.t, hother.theta, hother.share, hother.expZ]

theorem RunSettings.written_document_iff {run other : RunSettings} (hrun : run.Valid)
    (hother : other.Valid) :
    written run.document = written other.document ↔ run.plain = other.plain := by
  have horacle : run.oracle.name = other.oracle.name ↔ run.oracle = other.oracle := by
    cases run.oracle <;> cases other.oracle <;> decide
  have hpolicy : run.commitPolicy.name = other.commitPolicy.name
      ↔ run.commitPolicy = other.commitPolicy := by
    cases run.commitPolicy <;> cases other.commitPolicy <;> decide
  rw [document, document, written_object_eq_iff
    ["steps", "scale", "shots", "oracle", "seed", "commitPolicy"] rfl rfl (by decide +kernel)
    hrun.writable hother.writable]
  simp [written_string, written_number, plain, Text.ofString_inj, horacle, hpolicy,
    hrun.steps.isFinite, hrun.scale, hrun.shots.isFinite, hrun.seed.isFinite,
    hother.steps.isFinite, hother.scale, hother.shots.isFinite, hother.seed.isFinite]

/-- A width that passed its check is no zero. -/
theorem RuleSpec.Valid.bits_plain {bits : Double} (hvalid : (hashRollover bits).Valid) :
    bits.isFinite = true ∧ bits.plainZero = bits := by
  obtain ⟨n, hn, hpos, -⟩ := hvalid
  have hzero : ¬ bits.isZero = true := by
    rw [Double.isZero_iff hn]
    omega
  exact ⟨Double.isFinite_of_toInt? hn, by rw [Double.plainZero, if_neg hzero]⟩

/-- Rules have not all the same members, but whatever the kind is, it is one of them. -/
theorem RuleSpec.written_document_iff {spec other : RuleSpec} (hspec : spec.Valid)
    (hother : other.Valid) :
    written spec.document = written other.document ↔ spec = other := by
  refine ⟨fun hsame => ?_, fun hsame => by rw [hsame]⟩
  have hfind {key : Text} (hkey : key ≠ linkName) :=
    get?_of_written_eq hkey hspec.writable hother.writable hsame
  have hkind : spec.kind = other.kind := by
    have hfound : some (written (.string spec.kind)) = some (written (.string other.kind)) :=
      @hfind "kind" (by decide +kernel)
    simpa [written_string, Text.ofString_inj] using hfound
  have hamount {a b : ℤ}
      (hfound : some (written (integerText a)) = some (written (integerText b))) : a = b := by
    simpa [integerText, written_string, Text.ofString_inj, Numeral.intText_inj] using hfound
  cases spec <;> cases other
  case incrementX.incrementX a b => rw [hamount (@hfind "delta" (by decide +kernel))]
  case incrementCrc.incrementCrc a b => rw [hamount (@hfind "delta" (by decide +kernel))]
  case hashRollover.hashRollover a b =>
    have hfound : some (written (.number a)) = some (written (.number b)) :=
      @hfind "bits" (by decide +kernel)
    rw [written_number hspec.bits_plain.1, written_number hother.bits_plain.1, hspec.bits_plain.2,
      hother.bits_plain.2] at hfound
    cases hfound
    rfl
  all_goals exact absurd hkind (by simp [kind])

theorem written_map_iff {α β : Type} {parts others : List α} {document : α → Json} {view : α → β}
    (hparts : ∀ part ∈ parts, Writable (document part))
    (hothers : ∀ other ∈ others, Writable (document other))
    (hviews : ∀ part ∈ parts, ∀ other ∈ others,
      written (document part) = written (document other) ↔ view part = view other) :
    written (.array (parts.map document)) = written (.array (others.map document))
      ↔ parts.map view = others.map view := by
  rw [written_array (List.forall_mem_map.mpr hparts), written_array (List.forall_mem_map.mpr hothers),
    Json.array.injEq, List.map_map, List.map_map]
  exact map_eq_map_iff_of_iff hviews

theorem Config.written_document_iff {config other : Config} (hconfig : config.Valid)
    (hother : other.Valid) {records others : List Record}
    (hrecords : ∀ record ∈ records, record.IsFinite)
    (hothers : ∀ record ∈ others, record.IsFinite) :
    written (config.document records) = written (other.document others)
      ↔ config.inputs.texts = other.inputs.texts ∧ config.rules = other.rules
        ∧ config.run.plain = other.run.plain
        ∧ records.map Record.plain = others.map Record.plain := by
  have hrules := @written_map_iff _ _ config.rules other.rules RuleSpec.document id
    (fun spec hspec => (hconfig.rules spec hspec).writable)
    (fun spec hspec => (hother.rules spec hspec).writable)
    fun spec hspec other hmem =>
      RuleSpec.written_document_iff (hconfig.rules spec hspec) (hother.rules other hmem)
  have hlists := @written_map_iff _ _ records others Record.document Record.plain
    (fun record hrecord => (hrecords record hrecord).writable)
    (fun record hrecord => (hothers record hrecord).writable)
    fun record hrecord other hmem =>
      Record.written_document_iff (hrecords record hrecord) (hothers other hmem)
  rw [List.map_id, List.map_id] at hrules
  rw [document, document, written_object_eq_iff ["inputs", "rules", "run", "records"] rfl rfl
    (by decide +kernel) (hconfig.writable hrecords) (hother.writable hothers)]
  simp only [List.map_cons, List.map_nil, List.cons.injEq, and_true, hrules, hlists,
    InputTexts.written_toJson_iff, RunSettings.written_document_iff hconfig.run hother.run]

end Parts

/-! ### The text of a run -/

namespace Plan

section Checked

variable {config : Config} (hvalid : config.Valid) {records : List Record}
  (hmeasured : ∀ record ∈ records, record.IsMeasured) {text : Text}

include hvalid hmeasured

theorem write_identity_iff :
    Canonical.write ((ofConfig config {}).identity records) .absent = .ok text
      ↔ (∀ record ∈ records, record.IsFinite)
        ∧ text = writeDocument (indentUnit .absent) (Json.written (config.document records)) := by
  have hordered := config.ordered_document records
  rw [write_identity config hmeasured, ← Config.isFinite_document_iff hvalid records]
  by_cases hfinite : (config.document records).IsFinite
  · rw [write_of_accepted (rewrite_same hordered hfinite).1, Except.ok.injEq, eq_comm]
    exact (and_iff_right hfinite).symm
  · obtain ⟨x, -, hfault⟩ := write_of_refused (refused_of_not_finite hordered hfinite) .absent
    rw [hfault]
    exact iff_of_false (fun hok => nomatch hok) fun htext => hfinite htext.1

/-- The text is read as what was written. -/
theorem parse?_of_write_identity
    (htext : Canonical.write ((ofConfig config {}).identity records) .absent = .ok text) :
    Json.parse? text = some (Json.written (config.document records)) := by
  have hfinite := ((write_identity_iff hvalid hmeasured).mp htext).1
  rw [write_identity config hmeasured] at htext
  exact read_of_accepted (rewrite_same (config.ordered_document records)
    ((Config.isFinite_document_iff hvalid records).mpr hfinite)).1 htext

end Checked

/-- **A run is what its digest is taken of.** An accepted configuration and records have a text
exactly if the numbers of the records are finite. And then this is the text of another accepted
configuration and its records exactly if inputs, rules, settings and records are the same but for
the signs of zeros. -/
theorem identity_text_iff {payload otherPayload : Value} {reading other : Reading Config}
    (hok : Config.validate payload = .ok reading)
    (hother : Config.validate otherPayload = .ok other) {records others : List Record}
    (hrecords : ∀ record ∈ records, record.IsMeasured)
    (hothers : ∀ record ∈ others, record.IsMeasured) :
    ((∃ text, Canonical.write ((ofConfig reading.value {}).identity records) .absent = .ok text)
        ↔ ∀ record ∈ records, record.IsFinite)
      ∧ ∀ text, Canonical.write ((ofConfig reading.value {}).identity records) .absent = .ok text →
        (Canonical.write ((ofConfig other.value {}).identity others) .absent = .ok text
          ↔ reading.value.inputs.texts = other.value.inputs.texts
            ∧ reading.value.rules = other.value.rules
            ∧ reading.value.run.plain = other.value.run.plain
            ∧ records.map Record.plain = others.map Record.plain) := by
  have hvalid := Config.validate_valid hok
  have hvalidOther := Config.validate_valid hother
  have hwrite (text : Text) := @write_identity_iff reading.value hvalid records hrecords text
  refine ⟨⟨fun ⟨text, htext⟩ => ((hwrite text).mp htext).1,
    fun hfinite => ⟨_, (hwrite _).mpr ⟨hfinite, rfl⟩⟩⟩, fun text htext => ?_⟩
  obtain ⟨hfinite, hwritten⟩ := (hwrite text).mp htext
  constructor
  · intro hagain
    have hread := parse?_of_write_identity hvalid hrecords htext
    rw [parse?_of_write_identity hvalidOther hothers hagain, Option.some_inj] at hread
    have hfiniteOthers := ((write_identity_iff hvalidOther hothers).mp hagain).1
    exact (Config.written_document_iff hvalid hvalidOther hfinite hfiniteOthers).mp hread.symm
  · intro hsame
    have hfiniteOthers : ∀ record ∈ others, record.IsFinite := by
      intro record hrecord
      have hplain : record.plain ∈ records.map Record.plain :=
        hsame.2.2.2 ▸ List.mem_map_of_mem hrecord
      obtain ⟨source, hsource, hequal⟩ := List.mem_map.mp hplain
      exact Record.isFinite_plain_iff.mp
        (hequal ▸ Record.isFinite_plain_iff.mpr (hfinite source hsource))
    rw [write_identity_iff hvalidOther hothers, hwritten,
      (Config.written_document_iff hvalid hvalidOther hfinite hfiniteOthers).mpr hsame]
    exact ⟨hfiniteOthers, rfl⟩

/-- A configuration with a scale of zero, of either sign. -/
def still (negative : Bool) : Value :=
  Config.withInputs [("run", .object .plain [("scale", .number (Double.signedZero negative))])]
    Config.mixedSection

/-- A record of an angle of zero, of either sign. -/
def stillRecord (negative : Bool) : Record :=
  ⟨0, "1", Double.signedZero negative, .number 0, 1⟩

theorem identity_text_of_still : ∃ reading other text,
    Config.validate (still false) = .ok reading ∧ Config.validate (still true) = .ok other
      ∧ reading.value.run ≠ other.value.run
      ∧ Canonical.write ((ofConfig reading.value {}).identity [stillRecord false]) .absent
        = .ok text
      ∧ Canonical.write ((ofConfig other.value {}).identity [stillRecord true]) .absent
        = .ok text := by
  have htest : ((Config.validate (still false)).toOption.any fun reading =>
      (Config.validate (still true)).toOption.any fun other =>
        decide (reading.value.run ≠ other.value.run
          ∧ reading.value.inputs.texts = other.value.inputs.texts
          ∧ reading.value.rules = other.value.rules
          ∧ reading.value.run.plain = other.value.run.plain)) = true := by
    decide +kernel
  obtain ⟨reading, hok, htest⟩ := Outcome.exists_of_any htest
  obtain ⟨other, hother, htest⟩ := Outcome.exists_of_any htest
  obtain ⟨hne, htexts, hrules, hrun⟩ := of_decide_eq_true htest
  have hmeasured (negative : Bool) : ∀ record ∈ [stillRecord negative], record.IsMeasured :=
    List.forall_mem_singleton.mpr rfl
  have hfinite : ∀ record ∈ [stillRecord false], record.IsFinite :=
    List.forall_mem_singleton.mpr
      ⟨by decide +kernel, by decide +kernel, by decide +kernel, by decide +kernel⟩
  have hplain : (stillRecord false).plain = (stillRecord true).plain := rfl
  obtain ⟨hexists, hsame⟩ := identity_text_iff hok hother (hmeasured false) (hmeasured true)
  obtain ⟨text, htext⟩ := hexists.mpr hfinite
  refine ⟨reading, other, text, hok, hother, hne, htext, (hsame text htext).mpr ?_⟩
  exact ⟨htexts, hrules, hrun, by rw [List.map_singleton, List.map_singleton, hplain]⟩

end Plan

end AngleSeries
