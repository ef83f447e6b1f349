import AngleSeries.Proofs.CanonicalForm
import AngleSeries.Proofs.SameDocuments

/-!
# Nothing lost in writing

A document that was read has each key once in an object, so writing it loses nothing by overwriting.
It is refused if it has a number beyond the range of binary64, which is read as infinite. Otherwise
its canonical text is read as the same document, up to the order of members and the sign of zero,
without the members that have the name of the link.
-/

namespace AngleSeries

namespace Json

/-! ### Documents that were read -/

/-- Each key once, array indices in front: how a document is read. -/
abbrev Ordered : Json → Prop :=
  Throughout (fun _ => True) Members.InFront

theorem ordered_of_single {document : Json} (hsingle : document.isCompound = false) :
    document.Ordered := by
  cases document with
  | array | object => cases hsingle
  | null => exact .null
  | bool value => exact .bool value
  | number x => exact .number trivial
  | string text => exact .string text

/-- What the first unit of a value leads to. -/
theorem cases_of_readValue? {bound : ℕ} {text rest : List UInt16} {document : Json}
    (hread : readValue? (bound + 1) text = some (document, rest)) :
    document.isCompound = false
      ∨ (∃ items, document = .array items
          ∧ (items = [] ∨ ∃ text rest, readItems? bound text = some (items, rest)))
      ∨ ∃ entries, document = .object (Members.ofList entries)
          ∧ (entries = [] ∨ ∃ text rest, readMembers? bound text = some (entries, rest)) := by
  rw [readValue?] at hread
  split at hread
  · cases hread
  split at hread
  · split at hread
    · cases hread
      exact .inr (.inl ⟨[], rfl, .inl rfl⟩)
    · obtain ⟨⟨items, after⟩, hitems, hresult⟩ := Option.map_eq_some_iff.mp hread
      cases hresult
      exact .inr (.inl ⟨items, rfl, .inr ⟨_, _, hitems⟩⟩)
  · split at hread
    · cases hread
      exact .inr (.inr ⟨[], rfl, .inl rfl⟩)
    · obtain ⟨⟨entries, after⟩, hentries, hresult⟩ := Option.map_eq_some_iff.mp hread
      cases hresult
      exact .inr (.inr ⟨entries, rfl, .inr ⟨_, _, hentries⟩⟩)
  all_goals
    obtain ⟨_, -, hresult⟩ := Option.map_eq_some_iff.mp hread
    cases hresult
    exact .inl rfl

theorem cases_of_readItems? {bound : ℕ} {text rest : List UInt16} {items : List Json}
    (hread : readItems? (bound + 1) text = some (items, rest)) :
    ∃ item others after, items = item :: others ∧ readValue? bound text = some (item, after)
      ∧ (others = [] ∨ ∃ text rest, readItems? bound text = some (others, rest)) := by
  rw [readItems?_succ, Option.bind_eq_some_iff] at hread
  obtain ⟨⟨item, after⟩, hitem, hread⟩ := hread
  obtain ⟨others, rfl, hothers⟩ := others_of_readBehind? hread
  exact ⟨item, others, after, rfl, hitem, hothers⟩

theorem cases_of_readMembers? {bound : ℕ} {text rest : List UInt16} {members : List (Text × Json)}
    (hread : readMembers? (bound + 1) text = some (members, rest)) :
    ∃ key value others, members = (key, value) :: others
      ∧ (∃ text rest, readValue? bound text = some (value, rest))
      ∧ (others = [] ∨ ∃ text rest, readMembers? bound text = some (others, rest)) := by
  simp only [readMembers?_succ, Option.bind_eq_some_iff] at hread
  obtain ⟨quoted, -, ⟨units, after⟩, -, colon, -, ⟨value, behind⟩, hvalue, hread⟩ := hread
  obtain ⟨others, rfl, hothers⟩ := others_of_readBehind? hread
  exact ⟨_, value, others, rfl, ⟨_, _, hvalue⟩, hothers⟩

theorem ordered_of_read (bound : ℕ) :
    (∀ text document rest, readValue? bound text = some (document, rest) → document.Ordered)
      ∧ (∀ text items rest, readItems? bound text = some (items, rest) →
          ∀ item ∈ items, Ordered item)
      ∧ ∀ text members rest, readMembers? bound text = some (members, rest) →
          ∀ member ∈ members, Ordered member.2 := by
  induction bound with
  | zero =>
      refine ⟨?_, ?_, ?_⟩
      all_goals
        intro text result rest hread
        cases hread
  | succ bound ih =>
      obtain ⟨hvalue, hitems, hmembers⟩ := ih
      refine ⟨?_, ?_, ?_⟩
      · intro text document rest hread
        rcases cases_of_readValue? hread with
          hsingle | ⟨items, rfl, rfl | ⟨_, _, hread⟩⟩ | ⟨entries, rfl, rfl | ⟨_, _, hread⟩⟩
        · exact ordered_of_single hsingle
        · exact .array fun item hitem => nomatch hitem
        · exact .array (hitems _ _ _ hread)
        · exact .object List.Pairwise.nil fun member hmember => nomatch hmember
        · refine .object (Members.ofList_inFront entries) fun member hmember => ?_
          exact hmembers _ _ _ hread member (Members.mem_of_mem_ofList hmember)
      · intro text items rest hread
        obtain ⟨item, others, _, rfl, hitem, hothers⟩ := cases_of_readItems? hread
        refine List.forall_mem_cons.mpr ⟨hvalue _ _ _ hitem, ?_⟩
        rcases hothers with rfl | ⟨_, _, hothers⟩
        · exact fun other hother => nomatch hother
        · exact hitems _ _ _ hothers
      · intro text members rest hread
        obtain ⟨key, value, others, rfl, ⟨_, _, hmember⟩, hothers⟩ := cases_of_readMembers? hread
        refine List.forall_mem_cons.mpr ⟨hvalue _ _ _ hmember, ?_⟩
        rcases hothers with rfl | ⟨_, _, hothers⟩
        · exact fun other hother => nomatch hother
        · exact hmembers _ _ _ hothers

/-- **However a text puts the members**, they are read each once and the indices first. -/
theorem ordered_of_parse? {source : Text} {document : Json}
    (hparse : parse? source = some document) : document.Ordered := by
  rw [parse?] at hparse
  split at hparse
  case h_1 read rest hread =>
    split at hparse
    · cases hparse
      exact (ordered_of_read _).1 _ _ _ hread
    · cases hparse
  case h_2 => cases hparse

/-- No number of the document is beyond the range of binary64. -/
abbrev IsFinite : Json → Prop :=
  Throughout (fun x => x.isFinite = true) fun _ _ => True

end Json

namespace Canonical

open Value

/-! ### What is kept -/

theorem same_of_settled {document : Json} (hsettled : document.Settled) :
    Accepted document ∧ (rewrite document).document.Same (document.without linkName) := by
  obtain ⟨haccepted, hrewrite⟩ := rewrite_of_settled hsettled
  refine ⟨haccepted, ?_⟩
  rw [hrewrite]
  exact .refl _

/-- **What is written is the same document** without the members that have the name of the link. -/
theorem rewrite_same {document : Json} (hordered : document.Ordered) (hfinite : document.IsFinite) :
    Accepted document ∧ (rewrite document).document.Same (document.without linkName) := by
  induction hordered with
  | null => exact same_of_settled .null
  | bool value => exact same_of_settled (.bool value)
  | @number x hx =>
      cases hfinite with
      | number hx =>
          have hnormal : (ofJson (.number x)).normalize
              = .ok (some (.ofDocument (.number x.plainZero))) := by
            rw [ofJson, Value.normalize, hx]
            rfl
          obtain ⟨haccepted, hrewrite⟩ := accepted_of_normalize hnormal
          refine ⟨haccepted, ?_⟩
          rw [hrewrite]
          exact Json.same_plainZero x
  | string text => exact same_of_settled (.string text)
  | @array items _ ih =>
      cases hfinite with
      | array hfinite =>
          obtain ⟨haccepted, hrewrite⟩ :=
            rewrite_array fun item hitem => (ih item hitem (hfinite item hitem)).1
          refine ⟨haccepted, ?_⟩
          rw [hrewrite, Json.without, Json.withoutItems_eq_map]
          refine Json.same_map .array _ _ fun item hitem before after => ?_
          exact .item before after (ih item hitem (hfinite item hitem)).2
  | @object members hkeys _ ih =>
      cases hfinite with
      | object _ hfinite =>
          obtain ⟨haccepted, kept, hrewrite, hperm, hprecedes⟩ :=
            rewrite_object (Members.nodup_of_inFront hkeys)
              fun member hmember => (ih member hmember (hfinite member hmember)).1
          have hnodup : (Members.keys kept).Nodup := hprecedes.imp And.left
          refine ⟨haccepted, ?_⟩
          rw [hrewrite, Json.without, Json.withoutMembers_eq_map]
          refine (Json.Same.members hperm hnodup).trans ?_
          refine Json.same_map .object _ _ fun member hmember before after => ?_
          have hmember := (List.mem_filter.mp hmember).1
          exact .member before after member.1 (ih member hmember (hfinite member hmember)).2

/-! ### What is refused -/

/-- The document is refused for a number that is not finite. -/
def Refused (document : Json) : Prop :=
  ∃ x : Double, x.isFinite = false ∧ (ofJson document).normalize = .error (.nonFiniteNumber x.text)

theorem refused_array {items : List Json} (hitems : ∀ item ∈ items, Accepted item ∨ Refused item)
    (hrefused : ∃ item ∈ items, Refused item) : Refused (.array items) := by
  have hparts : ∃ x : Double, x.isFinite = false
      ∧ normalizeItems (ofItems items) = .error (.nonFiniteNumber x.text) := by
    induction items with
    | nil =>
        obtain ⟨item, hitem, -⟩ := hrefused
        cases hitem
    | cons item items ih =>
        rw [ofItems, normalizeItems]
        rcases hitems item List.mem_cons_self with haccepted | ⟨x, hx, hfault⟩
        · have hrest : ∃ item ∈ items, Refused item := by
            obtain ⟨other, hother, x, hx, hfault⟩ := hrefused
            rcases List.mem_cons.mp hother with rfl | hmem
            · rw [Accepted, hfault] at haccepted
              cases haccepted
            · exact ⟨other, hmem, x, hx, hfault⟩
          obtain ⟨x, hx, hfault⟩ := ih (fun other hother =>
            hitems other (List.mem_cons_of_mem _ hother)) hrest
          refine ⟨x, hx, ?_⟩
          have hitem : (ofJson item).normalize = .ok (some (rewrite item)) := haccepted
          rw [hitem, Outcome.ok_bind, hfault, Outcome.error_bind]
        · exact ⟨x, hx, by rw [hfault, Outcome.error_bind]⟩
  obtain ⟨x, hx, hfault⟩ := hparts
  refine ⟨x, hx, ?_⟩
  rw [ofJson, Value.normalize, hfault]
  rfl

theorem refused_object {members : List (Text × Json)}
    (hmembers : ∀ member ∈ members, Accepted member.2 ∨ Refused member.2)
    (hrefused : ∃ member ∈ members, Refused member.2) : Refused (.object members) := by
  have hnormal : (ofJson (.object members)).normalize
      = assemble (members.map fun member => (member.1, (ofJson member.2).normalize)) := by
    rw [ofJson, Value.normalize, isWithdrawn_ofMembers, normalizeMembers_eq_map, ofMembers_eq_map,
      List.map_map]
    rfl
  cases hassemble : assemble (members.map fun member => (member.1, (ofJson member.2).normalize)) with
  | error fault =>
      obtain ⟨key, hmem⟩ := assemble_error hassemble
      obtain ⟨member, hmember, heq⟩ := List.mem_map.mp hmem
      have hfault : (ofJson member.2).normalize = .error fault := congrArg Prod.snd heq
      rcases hmembers member hmember with haccepted | ⟨x, hx, hnumber⟩
      · rw [Accepted, hfault] at haccepted
        cases haccepted
      · rw [hfault] at hnumber
        exact ⟨x, hx, by rw [hnormal, hassemble, hnumber]⟩
  | ok form =>
      obtain ⟨entries, hentries, -⟩ := exists_entries_of_assemble hassemble
      obtain ⟨member, hmember, x, -, hfault⟩ := hrefused
      have hmem := List.mem_map_of_mem
        (f := fun member : Text × Json => (member.1, (ofJson member.2).normalize)) hmember
      rw [hentries] at hmem
      obtain ⟨entry, -, heq⟩ := List.mem_map.mp hmem
      have hok : .ok entry.2 = (ofJson member.2).normalize := congrArg Prod.snd heq
      rw [hfault] at hok
      cases hok

/-- **A document is refused only for a number**, and for every number that is not finite. -/
theorem refused_of_not_finite {document : Json} (hordered : document.Ordered)
    (hinfinite : ¬ document.IsFinite) : Refused document := by
  induction hordered with
  | null => exact absurd .null hinfinite
  | bool value => exact absurd (.bool value) hinfinite
  | @number x =>
      have hx : x.isFinite = false := by
        by_contra hx
        exact hinfinite (.number (Bool.eq_true_of_not_eq_false hx))
      refine ⟨x, hx, ?_⟩
      rw [ofJson, Value.normalize, hx]
      rfl
  | string text => exact absurd (.string text) hinfinite
  | @array items hitems ih =>
      have hsome : ∃ item ∈ items, ¬ Json.IsFinite item := by
        by_contra hnone
        push Not at hnone
        exact hinfinite (.array hnone)
      obtain ⟨item, hitem, hinfinite⟩ := hsome
      refine refused_array (fun other hother => ?_) ⟨item, hitem, ih item hitem hinfinite⟩
      by_cases hfinite : Json.IsFinite other
      · exact .inl (rewrite_same (hitems other hother) hfinite).1
      · exact .inr (ih other hother hfinite)
  | @object members hkeys hvalues ih =>
      have hsome : ∃ member ∈ members, ¬ Json.IsFinite member.2 := by
        by_contra hnone
        push Not at hnone
        exact hinfinite (.object (hkeys.imp fun _ => trivial) hnone)
      obtain ⟨member, hmember, hinfinite⟩ := hsome
      refine refused_object (fun other hother => ?_) ⟨member, hmember, ih member hmember hinfinite⟩
      by_cases hfinite : Json.IsFinite other.2
      · exact .inl (rewrite_same (hvalues other hother) hfinite).1
      · exact .inr (ih other hother hfinite)

/-! ### Texts -/

/-- What can be told from a text of the document that it was written for. -/
structure Tells (text : Text) (document : Json) : Prop where
  /-- It is read as a document that misses at most the members with the name of the link. -/
  read : ∃ read : Json, Json.parse? text = some read
    ∧ read.Same (document.without linkName) ∧ (read.Same document ↔ ¬ document.Names linkName)
  /-- Another document has this text only if it is the same but for such members. -/
  only : ∀ (source : Text) (other : Json) (indent : Value), Json.parse? source = some other →
    write (ofJson other) indent = .ok text →
      (other.without linkName).Same (document.without linkName)

theorem write_of_refused {document : Json} (hrefused : Refused document) (indent : Value) :
    ∃ x : Double, x.isFinite = false
      ∧ write (ofJson document) indent = .error (.nonFiniteNumber x.text) := by
  obtain ⟨x, hx, hfault⟩ := hrefused
  exact ⟨x, hx, by rw [write, hfault, Outcome.error_bind]⟩

theorem read_of_accepted {document : Json} (haccepted : Accepted document) {indent : Value}
    {text : Text} (hwrite : write (ofJson document) indent = .ok text) :
    Json.parse? text = some (rewrite document).document := by
  rw [write_of_accepted haccepted] at hwrite
  rw [← Except.ok.inj hwrite]
  exact parse?_writeDocument (isBlankIndent_indentUnit indent) (settled_of_normalize haccepted)

theorem same_iff_not_names {read document : Json} (hread : read.Same (document.without linkName)) :
    read.Same document ↔ ¬ document.Names linkName := by
  constructor
  · intro hsame
    rw [← hsame.names_iff, hread.names_iff]
    exact Json.not_names_without linkName document
  · intro hnames
    rwa [(Json.without_eq_self_iff linkName).mpr hnames] at hread

/-- **Nothing but the link is lost.** A document that was read is refused if it has a number that is
not finite. Otherwise it has a text, and this tells all of it apart from members that have the name
of the link. -/
theorem write_tells {source : Text} {document : Json}
    (hparse : Json.parse? source = some document) (indent : Value) :
    (document.IsFinite → ∃ text, write (ofJson document) indent = .ok text ∧ Tells text document)
      ∧ (¬ document.IsFinite → ∃ x : Double, x.isFinite = false
        ∧ write (ofJson document) indent = .error (.nonFiniteNumber x.text)) := by
  have hordered := Json.ordered_of_parse? hparse
  refine ⟨fun hfinite => ?_, fun hinfinite => ?_⟩
  · obtain ⟨haccepted, hsame⟩ := rewrite_same hordered hfinite
    have hwrite := write_of_accepted haccepted indent
    have hread := read_of_accepted haccepted hwrite
    refine ⟨_, hwrite, ⟨_, hread, hsame, same_iff_not_names hsame⟩, ?_⟩
    intro otherSource other otherIndent hother hwritten
    have hordered := Json.ordered_of_parse? hother
    by_cases hfinite : other.IsFinite
    · obtain ⟨haccepted, hothers⟩ := rewrite_same hordered hfinite
      have hagain := read_of_accepted haccepted hwritten
      rw [hread] at hagain
      rw [← Option.some.inj hagain] at hothers
      exact hothers.symm.trans hsame
    · obtain ⟨x, -, hfault⟩ :=
        write_of_refused (refused_of_not_finite hordered hfinite) otherIndent
      rw [hfault] at hwritten
      cases hwritten
  · exact write_of_refused (refused_of_not_finite hordered hinfinite) indent

/-- A document with an array index, an empty key and a key that is not in its place. -/
def assorted : Json :=
  .object [("7", .null), ("b", .array [.string "x"]), ("", .bool true)]

theorem assorted_plain : Json.Throughout Json.IsPlain Members.InFront assorted := by
  refine .object (by decide +kernel) ?_
  simp only [List.forall_mem_cons]
  refine ⟨.null, .array ?_, .bool true, fun _ hmember => nomatch hmember⟩
  exact List.forall_mem_singleton.mpr (.string _)

theorem assorted_tells :
    Json.parse? (writeDocument none assorted) = some assorted ∧ assorted.IsFinite
      ∧ ∃ text, write (ofJson assorted) (.number 2) = .ok text ∧ Tells text assorted := by
  have hparse : Json.parse? (writeDocument none assorted) = some assorted :=
    Json.parse?_write (isBlankIndent_indentUnit .absent) assorted_plain
  have hfinite : assorted.IsFinite := assorted_plain.mono And.left fun _ => trivial
  exact ⟨hparse, hfinite, (write_tells hparse (.number 2)).1 hfinite⟩

/-- The member of `{"__proto__":true}` is lost. -/
theorem not_write_lossless : ¬ ∀ (source : Text) (document : Json),
    Json.parse? source = some document → document.IsFinite → ∃ (text : Text) (read : Json),
      write (ofJson document) .absent = .ok text ∧ Json.parse? text = some read
        ∧ read.Same document := by
  intro hlossless
  have hindent : Json.IsBlankIndent none := isBlankIndent_indentUnit .absent
  have hfinite : Json.IsFinite (.object [(linkName, .bool true)]) :=
    settled_relinked.mono And.left fun _ => trivial
  obtain ⟨text, read, hwrite, hread, hsame⟩ := hlossless
    (writeDocument none (.object [(linkName, .bool true)])) _
    (parse?_writeDocument hindent settled_relinked) hfinite
  obtain ⟨haccepted, hrewrite⟩ := rewrite_of_settled settled_relinked
  have hagain := read_of_accepted haccepted hwrite
  rw [hread, hrewrite] at hagain
  rw [Option.some.inj hagain] at hsame
  have hnames : Json.Names linkName (.object [(linkName, .bool true)]) :=
    .here (List.mem_singleton_self _)
  exact Json.not_names_without linkName _ (hsame.names_iff.mpr hnames)

end Canonical

end AngleSeries
