import AngleSeries.Proofs.ReorderedOptions

/-!
# A single source of inputs

A configuration file and inputs on the command line exclude each other, wherever they stand and
whatever stands between them. Only one file name slips through: the empty one counts as no file at
all, so it is left out of account beside inputs.
-/

namespace AngleSeries

def Fault.IsUsage (fault : Fault) : Prop :=
  ∃ message flag, fault = .usage message flag

namespace CommandLine

/-! ### Faults of a command line -/

section Faults

variable {fault : Fault} {α : Type}

theorem isUsage_of_usage {flag message : Text}
    (husage : (usage flag message : Except Fault α) = .error fault) : fault.IsUsage := by
  cases husage
  exact ⟨message, some flag, rfl⟩

theorem isUsage_of_misuse {message : Text}
    (hmisuse : (misuse message : Except Fault α) = .error fault) : fault.IsUsage := by
  cases hmisuse
  exact ⟨message, none, rfl⟩

theorem isUsage_of_readCount {flag text : Text} {lowest : Int}
    (hread : readCount flag text lowest = .error fault) : fault.IsUsage := by
  simp only [readCount] at hread
  split at hread
  · split at hread
    · exact isUsage_of_usage hread
    · cases hread
  · exact isUsage_of_usage hread

theorem isUsage_of_readFinite {flag text : Text}
    (hread : readFinite flag text = .error fault) : fault.IsUsage := by
  simp only [readFinite] at hread
  split at hread
  · exact isUsage_of_usage hread
  · cases hread

theorem isUsage_of_readPort {flag text : Text}
    (hread : readPort flag text = .error fault) : fault.IsUsage := by
  rcases Outcome.bind_eq_error_iff.mp hread with hcount | ⟨value, -, hport⟩
  · exact isUsage_of_readCount hcount
  · split at hport
    · exact isUsage_of_usage hport
    · cases hport

theorem isUsage_of_readOracle {text : Text}
    (hread : readOracle text = .error fault) : fault.IsUsage := by
  simp only [readOracle] at hread
  split at hread
  · cases hread
  · split at hread
    · cases hread
    · exact isUsage_of_usage hread

theorem isUsage_of_readFormat {text : Text}
    (hread : readFormat text = .error fault) : fault.IsUsage := by
  simp only [readFormat] at hread
  split at hread
  · cases hread
  · split at hread
    · cases hread
    · exact isUsage_of_usage hread

theorem Group.isUsage_of_read {group : Group} (hread : group.read = .error fault) :
    fault.IsUsage := by
  cases group with
  | switch flag => cases hread
  | setting flag value =>
      rw [Group.read] at hread
      split_ifs at hread <;> rw [Outcome.map_eq_error_iff] at hread
      · exact isUsage_of_readCount hread
      · exact isUsage_of_readCount hread
      · exact isUsage_of_readFinite hread
      · exact isUsage_of_readPort hread
      · exact isUsage_of_readOracle hread
      · exact isUsage_of_readFormat hread

theorem isUsage_of_split {shape : Text → Shape} {args : List Text} {groups : List Group}
    (hsplit : split shape args = (groups, some fault)) : fault.IsUsage := by
  fun_induction split shape args generalizing groups with
  | case1 => cases hsplit
  | case2 | case4 | case5 =>
      exact ⟨_, _, (Option.some.inj (Prod.mk.inj hsplit).2).symm⟩
  | case3 flag rest hshape inner other hinner ih =>
      cases hsplit
      exact ih hinner
  | case6 flag hshape value rest hvalue inner other hinner ih =>
      cases hsplit
      exact ih hinner

end Faults

/-! ### Commands with two sources -/

/-- A command line that names the empty file last and gives all inputs, and whose groups can all be
read. -/
def NamesNoFile (shape : Text → Shape) (args : List Text) : Prop :=
  ∃ groups, args = spell groups ∧ (∀ group ∈ groups, group.fits shape = true) ∧
    (∀ group ∈ groups, ∃ setting, group.read = .ok setting) ∧
    (∀ field, ∃ group ∈ groups, group.option = inputFlag field) ∧
    latest "--config" groups = some (.setting "--config" "")

/-- A command that takes its inputs from one source. -/
structure Sourced {σ α : Type} (command : Command σ α) (config : α → Option Text) : Prop where
  config_shape : command.shape "--config" = .setting
  input_shape : ∀ field, command.shape (inputFlag field) = .setting
  isUsage_of_finish : ∀ state fault, command.finish state = .error fault → fault.IsUsage
  setTo_config : ∀ options, command.setTo options "--config" = (config options).map .text
  exclusive : ∀ state options, command.finish state = .ok options →
    hasConfig (config options) = true → command.inputs options = none
  finish_of_empty : ∀ state,
    (∀ field, ∃ text, command.held state (inputFlag field) = some (.text text)) →
      command.held state "--config" = some (.text "") →
        ∃ options, command.finish state = .ok options ∧ (command.inputs options).isSome = true

theorem isFlag_inputFlag (field : Field) : isFlag (inputFlag field) = true := by
  cases field <;> decide +kernel

namespace Command

variable {σ α : Type} {command : Command σ α} {args : List Text} {groups : List Group} {options : α}

/-- Arguments that are accepted are groups that fit. -/
theorem exists_groups_of_parse (hparse : command.parse args = .ok options) :
    ∃ groups, args = spell groups ∧ ∀ group ∈ groups, group.fits command.shape = true := by
  obtain ⟨state, hscan, -⟩ := Outcome.bind_eq_ok_iff.mp hparse
  rcases hsplit : split command.shape args with ⟨groups, fault⟩
  rw [scan, hsplit] at hscan
  obtain ⟨last, -, hend⟩ := Outcome.bind_eq_ok_iff.mp hscan
  cases fault with
  | some fault => cases hend
  | none => exact ⟨groups, eq_spell_of_split hsplit, fits_of_split hsplit⟩

theorem isUsage_of_parse (hfinish : ∀ state fault, command.finish state = .error fault →
    fault.IsUsage) {fault : Fault} (hparse : command.parse args = .error fault) :
    fault.IsUsage := by
  rcases Outcome.bind_eq_error_iff.mp hparse with hscan | ⟨state, -, hend⟩
  · rcases hsplit : split command.shape args with ⟨groups, unread⟩
    rw [scan, hsplit] at hscan
    rcases Outcome.bind_eq_error_iff.mp hscan with hfold | ⟨state, -, hend⟩
    · obtain ⟨group, -, hread⟩ := Reader.read_of_foldlM_error (fits_of_split hsplit) hfold
      exact Group.isUsage_of_read hread
    · cases unread with
      | none => cases hend
      | some unread =>
          cases hend
          exact isUsage_of_split hsplit
  · exact hfinish state fault hend

end Command

namespace Sourced

variable {σ α : Type} {command : Command σ α} {config : α → Option Text} {args : List Text}
  {field : Field} {options : α}

theorem parse_of_namesNoFile (hsourced : Sourced command config)
    (hargs : NamesNoFile command.shape args) :
    ∃ options, command.parse args = .ok options ∧ config options = some "" ∧
      (command.inputs options).isSome = true := by
  obtain ⟨groups, rfl, hfits, hread, hinputs, hlatest⟩ := hargs
  obtain ⟨state, hfold⟩ := (Reader.exists_foldlM_iff hfits).mpr hread
  have hheld := (Reader.held_of_foldlM hfits hfold).2
  have hconfig : command.held state "--config" = some (.text "") := by
    rw [hheld, Reader.settled, hlatest]
    simp only [read_config, Except.toOption]
  have hgiven : ∀ field, ∃ text, command.held state (inputFlag field) = some (.text text) := by
    intro field
    obtain ⟨group, hmem, hoption⟩ := hinputs field
    obtain ⟨last, hlast⟩ := exists_latest hmem
    rw [hoption] at hlast
    obtain ⟨text, rfl⟩ := eq_setting_of_option (inputFlag_ne_format field) (of_latest hlast).2
    refine ⟨text, ?_⟩
    rw [hheld, Reader.settled, hlast]
    simp only [read_input (inputOf?_inputFlag field), Except.toOption]
  obtain ⟨options, hfinish, hsome⟩ := hsourced.finish_of_empty state hgiven hconfig
  have hparse : command.parse (spell groups) = .ok options := by
    rw [Command.parse_spell hfits, hfold, Outcome.ok_bind, hfinish]
  refine ⟨options, hparse, ?_, hsome⟩
  have hsetTo := hsourced.setTo_config options
  rw [command.setTo_of_finish state options hfinish, hconfig, eq_comm,
    Option.map_eq_some_iff] at hsetTo
  obtain ⟨text, htext, heq⟩ := hsetTo
  cases heq
  exact htext

/-- If a file and an input are both named and accepted, the file is the empty one. -/
theorem namesNoFile_of_parse (hsourced : Sourced command config)
    (hconfig : ("--config" : Text) ∈ args) (hinput : inputFlag field ∈ args)
    (hparse : command.parse args = .ok options) : NamesNoFile command.shape args := by
  obtain ⟨groups, rfl, hfits⟩ := Command.exists_groups_of_parse hparse
  have hgiven := Command.latest_inputFlag hfits hparse
  -- The inputs are there, because one of them is.
  obtain ⟨texts, htexts⟩ : ∃ texts, command.inputs options = some texts := by
    obtain ⟨value, hmem⟩ := exists_group_of_mem hfits (hsourced.input_shape field)
      (isFlag_inputFlag field) hinput
    obtain ⟨last, hlast⟩ := exists_latest hmem
    have hsome : (givenBy (command.inputs options) field).isSome = true := by
      have hfield := (hgiven field).symm.trans hlast
      rw [← Option.isSome_map, hfield, Option.isSome_some]
    exact Option.isSome_iff_exists.mp (by simpa [givenBy] using hsome)
  -- So no file is taken, although one is named.
  obtain ⟨value, hmem⟩ := exists_group_of_mem hfits hsourced.config_shape (by decide +kernel)
    hconfig
  obtain ⟨last, hlast⟩ : ∃ last, latest "--config" groups = some last := exists_latest hmem
  obtain ⟨file, rfl⟩ := eq_setting_of_option (by decide +kernel) (of_latest hlast).2
  have hfile : config options = some file := by
    obtain ⟨setting, hread, hsetTo⟩ := Command.setTo_of_latest hfits hparse hlast
    rw [read_config] at hread
    cases hread
    rwa [hsourced.setTo_config, ← Option.map_some, map_text_inj] at hsetTo
  have hnone : hasConfig (some file) = false := by
    rw [Command.parse_spell hfits] at hparse
    obtain ⟨state, -, hfinish⟩ := Outcome.bind_eq_ok_iff.mp hparse
    by_contra htaken
    rw [Bool.not_eq_false, ← hfile] at htaken
    rw [hsourced.exclusive state options hfinish htaken] at htexts
    cases htexts
  have hempty : file = "" := by
    have hunits : file.units = [] := by simpa [hasConfig, filled, Text.isEmpty] using hnone
    exact congrArg Text.mk hunits
  refine ⟨groups, rfl, hfits, (Command.setTo_of_parse hfits hparse).1, fun other => ?_, ?_⟩
  · have hother := hgiven other
    rw [htexts, givenBy, Option.map_some, Option.map_some] at hother
    exact ⟨_, of_latest hother⟩
  · rw [hlast, hempty]

/-- A file and an input named together are refused, unless the file is the empty one. -/
theorem refused_iff (hsourced : Sourced command config) (hconfig : ("--config" : Text) ∈ args)
    (hinput : inputFlag field ∈ args) :
    (∃ message flag, command.parse args = .error (.usage message flag))
      ↔ ¬NamesNoFile command.shape args := by
  constructor
  · rintro ⟨message, flag, hparse⟩ hargs
    obtain ⟨options, haccepted, -⟩ := hsourced.parse_of_namesNoFile hargs
    rw [hparse] at haccepted
    cases haccepted
  · intro hargs
    cases hparse : command.parse args with
    | ok options => exact absurd (hsourced.namesNoFile_of_parse hconfig hinput hparse) hargs
    | error fault =>
        obtain ⟨message, flag, rfl⟩ := Command.isUsage_of_parse hsourced.isUsage_of_finish hparse
        exact ⟨message, flag, rfl⟩

end Sourced

/-! ### The two commands -/

theorem isUsage_of_finishInputs {collected : Collected} {fault : Fault}
    (hfinish : finishInputs collected = .error fault) : fault.IsUsage := by
  rw [finishInputs] at hfinish
  split at hfinish
  · cases hfinish
  · split at hfinish
    · cases hfinish
    · exact isUsage_of_misuse hfinish

theorem isUsage_of_requireSingleSource {config : Option Text} {inputs : Option InlineInputs}
    {fault : Fault} (hrequire : requireSingleSource config inputs = .error fault) :
    fault.IsUsage := by
  rw [requireSingleSource] at hrequire
  split at hrequire
  · exact isUsage_of_misuse hrequire
  · cases hrequire

theorem isUsage_of_finish {α : Type} {collected : Collected} {config : Option Text}
    {last : Option InlineInputs → Except Fault α} {fault : Fault}
    (hfinish : (finishInputs collected >>= fun inputs =>
      requireSingleSource config inputs >>= fun _ => last inputs) = .error fault)
    (hlast : ∀ inputs, last inputs = .error fault → fault.IsUsage) : fault.IsUsage := by
  rcases Outcome.bind_eq_error_iff.mp hfinish with hinputs | ⟨inputs, -, hrest⟩
  · exact isUsage_of_finishInputs hinputs
  · rcases Outcome.bind_eq_error_iff.mp hrest with hrequire | ⟨_, -, hend⟩
    · exact isUsage_of_requireSingleSource hrequire
    · exact hlast inputs hend

theorem exists_givenBy {collected : Collected} {held : Text → Option Setting}
    (hheld : ∀ field, held (inputFlag field) = (collected field).map .text)
    (hgiven : ∀ field, ∃ text, held (inputFlag field) = some (.text text)) :
    ∃ texts, collected = givenBy (some texts) := by
  have hsome : ∀ field, ∃ text, collected field = some text := by
    intro field
    obtain ⟨text, htext⟩ := hgiven field
    rw [hheld, ← Option.map_some, map_text_inj] at htext
    exact ⟨text, htext⟩
  choose text htext using hsome
  refine ⟨⟨text .pi, text .lambda, text .mu, text .x, text .hashHex, text .blockSize,
    text .crcValue⟩, funext fun field => (htext field).trans ?_⟩
  cases field <;> rfl

/-- An empty name counts as no file, so it leaves the inputs as the only source. -/
theorem exists_givenBy_of_empty {collected : Collected} {config : Option Text}
    {held : Text → Option Setting}
    (hheld : ∀ field, held (inputFlag field) = (collected field).map .text)
    (hgiven : ∀ field, ∃ text, held (inputFlag field) = some (.text text))
    (hconfig : config.map .text = some (Setting.text "")) :
    ∃ texts, collected = givenBy (some texts)
      ∧ (hasConfig config = true → some texts = none) := by
  obtain ⟨texts, htexts⟩ := exists_givenBy hheld hgiven
  have hempty : config = some ("" : Text) := map_text_inj.mp hconfig
  have hunnamed : hasConfig (some ("" : Text)) = false := by decide +kernel
  refine ⟨texts, htexts, fun hnamed => ?_⟩
  rw [hempty, hunnamed] at hnamed
  cases hnamed

theorem sourced_valueCommand : Sourced valueCommand ValueOptions.config where
  config_shape := by decide +kernel
  input_shape field := by
    change valueShape (inputFlag field) = .setting
    simp only [valueShape, inputOf?_inputFlag, Option.isSome_some, true_or, if_true]
  isUsage_of_finish scan fault hfinish := by
    refine isUsage_of_finish hfinish fun inputs hlast => ?_
    split at hlast
    · exact isUsage_of_misuse hlast
    · cases hlast
  setTo_config options := ValueScan.held_config _
  exclusive scan options hfinish htaken := by
    obtain ⟨inputs, -, hsource, hlast⟩ := finish_eq_ok_iff.mp hfinish
    split at hlast
    · cases hlast
    · cases hlast
      exact hsource htaken
  finish_of_empty scan hgiven hconfig := by
    obtain ⟨texts, htexts, hsource⟩ :=
      exists_givenBy_of_empty (fun field => scan.held_input (inputOf?_inputFlag field)) hgiven
        ((ValueScan.held_config scan).symm.trans hconfig)
    refine ⟨⟨scan.config, some texts, scan.json⟩, finish_eq_ok_iff.mpr ?_, rfl⟩
    exact ⟨some texts, htexts, hsource, by simp⟩

theorem sourced_runCommand : Sourced runCommand RunOptions.config where
  config_shape := by decide +kernel
  input_shape field := by
    change runShape (inputFlag field) = .setting
    simp only [runShape, inputOf?_inputFlag, Option.isSome_some, true_or, if_true]
  isUsage_of_finish scan fault hfinish := by
    refine isUsage_of_finish hfinish fun inputs hlast => ?_
    cases hlast
  setTo_config options := RunScan.held_config _
  exclusive scan options hfinish htaken := by
    obtain ⟨inputs, -, hsource, hlast⟩ := finish_eq_ok_iff.mp hfinish
    cases hlast
    exact hsource htaken
  finish_of_empty scan hgiven hconfig := by
    obtain ⟨texts, htexts, hsource⟩ :=
      exists_givenBy_of_empty (fun field => scan.held_input (inputOf?_inputFlag field)) hgiven
        ((RunScan.held_config scan).symm.trans hconfig)
    refine ⟨{ scan.options with inputs := some texts }, finish_eq_ok_iff.mpr ?_, rfl⟩
    exact ⟨some texts, htexts, hsource, rfl⟩

/-- **A file and an input that are both named, in any place, are a usage error, unless the file is
the empty one and all inputs are given.** -/
theorem sources_refused_iff {args : List Text} {field : Field}
    (hconfig : ("--config" : Text) ∈ args) (hinput : inputFlag field ∈ args) :
    ((∃ message flag, parseRun args = .error (.usage message flag))
        ↔ ¬NamesNoFile runShape args) ∧
      ((∃ message flag, parseValue args = .error (.usage message flag))
        ↔ ¬NamesNoFile valueShape args) :=
  ⟨sourced_runCommand.refused_iff hconfig hinput, sourced_valueCommand.refused_iff hconfig hinput⟩

def namedFile : List Text :=
  ["--pi", "1", "--config", "a.json", "--mu", "2"]

theorem namedFile_refused :
    ("--config" : Text) ∈ namedFile ∧ inputFlag .mu ∈ namedFile ∧
      (∃ message flag, parseRun namedFile = .error (.usage message flag)) ∧
      ∃ message flag, parseValue namedFile = .error (.usage message flag) := by
  have hconfig : ("--config" : Text) ∈ namedFile := by decide +kernel
  have hinput : inputFlag .mu ∈ namedFile := by decide +kernel
  have hnamed : ∀ shape : Text → Shape, (split shape namedFile).1.all
      (fun group => group ≠ .setting "--config" "") = true → ¬NamesNoFile shape namedFile := by
    rintro shape hall ⟨groups, hargs, hfits, -, -, hlatest⟩
    rw [hargs, split_spell hfits] at hall
    simpa using List.all_eq_true.mp hall _ (of_latest hlatest).1
  have hrefused := sources_refused_iff hconfig hinput
  exact ⟨hconfig, hinput, hrefused.1.mpr (hnamed runShape (by decide +kernel)),
    hrefused.2.mpr (hnamed valueShape (by decide +kernel))⟩

/-- All inputs beside a file without a name. -/
def unnamedFile : List Text :=
  ["--config", "", "--pi", "1", "--lambda", "1", "--mu", "1", "--x", "1", "--hash", "1",
    "--block-size", "1", "--crc", "0"]

/-- An empty file name is taken and then ignored. -/
theorem not_sources_refused :
    ¬∀ (args : List Text) (field : Field) (file : Text), isFlag file = false →
      [("--config" : Text), file] <:+: args → inputFlag field ∈ args →
        (∃ message flag, parseRun args = .error (.usage message flag)) ∧
          ∃ message flag, parseValue args = .error (.usage message flag) := by
  intro hrefused
  have hany : (parseValue unnamedFile).toOption.any (fun options =>
      options.config.isSome && options.inputs.isSome) = true := by decide +kernel
  obtain ⟨options, hparse, -⟩ := Outcome.exists_of_any hany
  have hinfix : [("--config" : Text), ""] <:+: unnamedFile := ⟨[], _, rfl⟩
  obtain ⟨-, message, flag, herror⟩ :=
    hrefused unnamedFile .pi "" (by decide +kernel) hinfix (by decide +kernel)
  rw [hparse] at herror
  cases herror

end CommandLine

end AngleSeries
