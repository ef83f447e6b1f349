import AngleSeries.Proofs.SettledOptions

/-!
# Reordered options

Two rows of the same groups in which every option has its groups in the same order are read alike,
because the last group of an option is the same in both. So a command line can be written in any
order, as long as nothing that is said twice changes its order.
-/

namespace AngleSeries.CommandLine

/-! ### Reordering groups -/

/-- The same groups in another order, where the groups of one option keep their order. -/
structure Reordered (groups others : List Group) : Prop where
  perm : groups.Perm others
  inOrder : ∀ option,
    groups.filter (fun group => group.option = option)
      = others.filter fun group => group.option = option

/-- How a command reads groups: the order of groups counts only where they write the same option,
every option keeps the value of its last group, and the inputs are those given or there are none. -/
structure ReadsLatest {α : Type} (shape : Text → Shape) (parse : List Text → Except Fault α)
    (setTo : α → Text → Option Setting) (inputs : α → Option InlineInputs)
    (initial : Text → Option Setting) : Prop where
  reordered : ∀ groups others, (∀ group ∈ groups, group.fits shape = true) →
    Reordered groups others → (parse (spell groups)).toOption = (parse (spell others)).toOption
  kept : ∀ groups options, (∀ group ∈ groups, group.fits shape = true) →
    parse (spell groups) = .ok options → ∀ option group, latest option groups = some group →
      ∃ setting, group.read = .ok setting ∧ setTo options option = some setting
  untouched : ∀ groups options, (∀ group ∈ groups, group.fits shape = true) →
    parse (spell groups) = .ok options → ∀ option, latest option groups = none →
      setTo options option = initial option
  given : ∀ groups options, (∀ group ∈ groups, group.fits shape = true) →
    parse (spell groups) = .ok options →
      match inputs options with
      | some texts => ∀ field, latest (inputFlag field) groups
          = some (.setting (inputFlag field) (texts.get field))
      | none => ∀ field, latest (inputFlag field) groups = none

namespace Reordered

variable {groups others : List Group}

theorem symm (hreordered : Reordered groups others) : Reordered others groups :=
  ⟨hreordered.perm.symm, fun option => (hreordered.inOrder option).symm⟩

theorem forall_mem {property : Group → Prop} (hreordered : Reordered groups others)
    (hall : ∀ group ∈ groups, property group) : ∀ group ∈ others, property group :=
  fun group hmem => hall group (hreordered.perm.mem_iff.mpr hmem)

theorem latest_eq (hreordered : Reordered groups others) (option : Text) :
    latest option groups = latest option others := by
  rw [latest, latest, hreordered.inOrder]

theorem settled_eq {σ : Type} {reader : Reader σ} (hreordered : Reordered groups others) :
    reader.settled groups = reader.settled others := by
  funext option
  rw [Reader.settled, Reader.settled, hreordered.latest_eq]

end Reordered

theorem eq_setting_of_option {group : Group} {flag : Text} (hne : flag ≠ "--format")
    (hoption : group.option = flag) : ∃ value, group = .setting flag value := by
  cases group with
  | switch other => exact absurd hoption.symm hne
  | setting other value =>
      rw [Group.option] at hoption
      exact ⟨value, by rw [hoption]⟩

theorem inputFlag_ne_format (field : Field) : inputFlag field ≠ "--format" := by
  cases field <;> decide +kernel

namespace Command

variable {σ α : Type} {command : Command σ α} {groups others : List Group} {options : α}

theorem parse_spell (hfits : ∀ group ∈ groups, group.fits command.shape = true) :
    command.parse (spell groups)
      = groups.foldlM command.apply command.start >>= command.finish := by
  rw [parse, scan, split_spell hfits]
  simp [bind_assoc]

/-- A command fails at the first group that cannot be read, whatever stands behind it. -/
theorem parse_of_read_error (hfits : ∀ group ∈ groups, group.fits command.shape = true)
    (hread : ∀ group ∈ groups, ∃ setting, group.read = .ok setting) {group : Group} {fault : Fault}
    (hgroup : group.fits command.shape = true) (herror : group.read = .error fault)
    (rest : List Text) :
    command.parse (spell groups ++ (group.arguments ++ rest)) = .error fault := by
  obtain ⟨state, hfold⟩ := (Reader.exists_foldlM_iff hfits).mpr hread
  have hsingle : ∀ other ∈ [group], other.fits command.shape = true := by
    simpa using hgroup
  have hsplit := split_append hsingle rest
  rw [spell_cons, List.append_assoc] at hsplit
  change split command.shape (group.arguments ++ rest) = _ at hsplit
  rw [parse, scan, split_append hfits, hsplit]
  dsimp only
  rw [List.foldlM_append, hfold, Outcome.ok_bind, List.singleton_append, List.foldlM_cons,
    Reader.apply_of_read_error hgroup herror, Outcome.error_bind, Outcome.error_bind,
    Outcome.error_bind]

theorem setTo_of_parse (hfits : ∀ group ∈ groups, group.fits command.shape = true)
    (hparse : command.parse (spell groups) = .ok options) :
    (∀ group ∈ groups, ∃ setting, group.read = .ok setting)
      ∧ command.setTo options = command.settled groups := by
  rw [parse_spell hfits] at hparse
  obtain ⟨state, hfold, hfinish⟩ := Outcome.bind_eq_ok_iff.mp hparse
  obtain ⟨hread, hheld⟩ := Reader.held_of_foldlM hfits hfold
  exact ⟨hread, (command.setTo_of_finish state options hfinish).trans hheld⟩

/-- Groups that can be read in one order can be read in every other. -/
theorem parse_of_reordered (hfits : ∀ group ∈ groups, group.fits command.shape = true)
    (hreordered : Reordered groups others) (hparse : command.parse (spell groups) = .ok options) :
    command.parse (spell others) = .ok options := by
  have hothers := hreordered.forall_mem hfits
  rw [parse_spell hfits] at hparse
  obtain ⟨state, hfold, hfinish⟩ := Outcome.bind_eq_ok_iff.mp hparse
  obtain ⟨hread, hheld⟩ := Reader.held_of_foldlM hfits hfold
  obtain ⟨other, hother⟩ := (Reader.exists_foldlM_iff hothers).mpr (hreordered.forall_mem hread)
  -- Both rows leave the same behind, so there is nothing else to finish.
  have hsame : command.held state = command.held other := by
    rw [hheld, hreordered.settled_eq, (Reader.held_of_foldlM hothers hother).2]
  rw [parse_spell hothers, hother, Outcome.ok_bind, ← command.finish_congr state other hsame,
    hfinish]

theorem parse_reordered (hfits : ∀ group ∈ groups, group.fits command.shape = true)
    (hreordered : Reordered groups others) :
    (command.parse (spell groups)).toOption = (command.parse (spell others)).toOption := by
  cases hparse : command.parse (spell groups) with
  | ok options => rw [parse_of_reordered hfits hreordered hparse]
  | error fault =>
      cases hother : command.parse (spell others) with
      | error other => rfl
      | ok options =>
          rw [parse_of_reordered (hreordered.forall_mem hfits) hreordered.symm hother] at hparse
          cases hparse

theorem setTo_of_latest (hfits : ∀ group ∈ groups, group.fits command.shape = true)
    (hparse : command.parse (spell groups) = .ok options) {option : Text} {group : Group}
    (hlatest : latest option groups = some group) :
    ∃ setting, group.read = .ok setting ∧ command.setTo options option = some setting := by
  obtain ⟨hread, hsetTo⟩ := setTo_of_parse hfits hparse
  obtain ⟨setting, hsetting⟩ := hread group (of_latest hlatest).1
  refine ⟨setting, hsetting, ?_⟩
  rw [hsetTo, Reader.settled, hlatest]
  simp only [hsetting, Except.toOption]

theorem setTo_of_latest_none (hfits : ∀ group ∈ groups, group.fits command.shape = true)
    (hparse : command.parse (spell groups) = .ok options) {option : Text}
    (hlatest : latest option groups = none) :
    command.setTo options option = command.held command.start option := by
  rw [(setTo_of_parse hfits hparse).2, Reader.settled, hlatest]

theorem latest_inputFlag (hfits : ∀ group ∈ groups, group.fits command.shape = true)
    (hparse : command.parse (spell groups) = .ok options) (field : Field) :
    latest (inputFlag field) groups
      = (givenBy (command.inputs options) field).map (.setting (inputFlag field)) := by
  have hinput := command.setTo_input options field
  cases hlatest : latest (inputFlag field) groups with
  | none =>
      rw [setTo_of_latest_none hfits hparse hlatest, command.start_input, eq_comm,
        Option.map_eq_none_iff] at hinput
      rw [hinput, Option.map_none]
  | some group =>
      obtain ⟨setting, hread, hsetTo⟩ := setTo_of_latest hfits hparse hlatest
      obtain ⟨value, rfl⟩ := eq_setting_of_option (inputFlag_ne_format field) (of_latest hlatest).2
      rw [read_input (inputOf?_inputFlag field)] at hread
      cases hread
      rw [hsetTo, eq_comm, Option.map_eq_some_iff] at hinput
      obtain ⟨text, hgiven, htext⟩ := hinput
      cases htext
      rw [hgiven, Option.map_some]

theorem readsLatest (command : Command σ α) :
    ReadsLatest command.shape command.parse command.setTo command.inputs
      (command.held command.start) where
  reordered _ _ hfits hreordered := parse_reordered hfits hreordered
  kept _ _ hfits hparse _ _ hlatest := setTo_of_latest hfits hparse hlatest
  untouched _ _ hfits hparse _ hlatest := setTo_of_latest_none hfits hparse hlatest
  given groups options hfits hparse := by
    have hlatest := latest_inputFlag hfits hparse
    cases hinputs : command.inputs options with
    | none => simpa [hinputs, givenBy] using hlatest
    | some texts => simpa [hinputs, givenBy] using hlatest

end Command

/-- Without inputs `run` takes whatever can be read. -/
theorem exists_parseRun {groups : List Group} (hfits : ∀ group ∈ groups, group.fits runShape = true)
    (hread : ∀ group ∈ groups, ∃ setting, group.read = .ok setting)
    (hnone : ∀ field, latest (inputFlag field) groups = none) :
    ∃ options, parseRun (spell groups) = .ok options := by
  obtain ⟨scan, hfold⟩ : ∃ scan, groups.foldlM runCommand.apply runCommand.start = .ok scan :=
    (Reader.exists_foldlM_iff hfits).mpr hread
  have hheld : runCommand.held scan = runCommand.settled groups :=
    (Reader.held_of_foldlM hfits hfold).2
  have hcollected : scan.collected = givenBy none := by
    funext field
    have hfield : scan.held (inputFlag field) = none := by
      change runCommand.held scan (inputFlag field) = none
      rw [hheld, Reader.settled, hnone, runCommand.start_input]
    rwa [scan.held_input (inputOf?_inputFlag field), Option.map_eq_none_iff] at hfield
  have hfinish : finishRun scan = .ok { scan.options with inputs := none } :=
    finish_eq_ok_iff.mpr ⟨none, hcollected, fun _ => rfl, rfl⟩
  refine ⟨_, Eq.trans ?_ hfinish⟩
  rw [← parse_runCommand, Command.parse_spell hfits, hfold, Outcome.ok_bind]
  rfl

/-- **For the options of `run` and of `value` only the order of groups of one option matters.** -/
theorem options_readLatest :
    ReadsLatest runShape parseRun RunOptions.setTo RunOptions.inputs (RunScan.held {}) ∧
      ReadsLatest valueShape parseValue ValueOptions.setTo ValueOptions.inputs
        (ValueScan.held {}) :=
  ⟨runCommand.readsLatest, valueCommand.readsLatest⟩

def spreadGroups : List Group :=
  [.setting "--steps" "3", .switch "--json", .setting "--seed" "7", .setting "--steps" "5"]

def gatheredGroups : List Group :=
  [.setting "--seed" "7", .setting "--steps" "3", .setting "--steps" "5", .switch "--json"]

theorem reordered_spreadGroups : Reordered spreadGroups gatheredGroups where
  perm := by decide +kernel
  inOrder option := by
    by_cases hsteps : ("--steps" : Text) = option
    · subst hsteps
      decide +kernel
    · by_cases hseed : ("--seed" : Text) = option
      · subst hseed
        decide +kernel
      · simp [spreadGroups, gatheredGroups, List.filter_cons, Group.option, hsteps, hseed]

theorem gathered_readLatest :
    (∀ group ∈ spreadGroups, group.fits runShape = true) ∧
      Reordered spreadGroups gatheredGroups ∧
      (parseRun (spell spreadGroups)).toOption = (parseRun (spell gatheredGroups)).toOption ∧
      ∃ options, parseRun (spell gatheredGroups) = .ok options ∧
        options.setTo "--steps" = some (.number 5) := by
  have hfits : ∀ group ∈ spreadGroups, group.fits runShape = true := by decide +kernel
  have hgathered : ∀ group ∈ gatheredGroups, group.fits runShape = true := by decide +kernel
  have hany : (parseRun (spell gatheredGroups)).toOption.any (fun _ => true) = true := by
    decide +kernel
  obtain ⟨options, hparse, -⟩ := Outcome.exists_of_any hany
  obtain ⟨setting, hread, hset⟩ := options_readLatest.1.kept gatheredGroups options hgathered hparse
    "--steps" (.setting "--steps" "5") (by decide +kernel)
  have hfive : (Group.setting "--steps" "5").read = .ok (.number 5) := by
    have hcount : readCount "--steps" "5" 0 = .ok 5 := by decide +kernel
    simp [Group.read, hcount, Except.map]
  rw [hfive] at hread
  cases hread
  exact ⟨hfits, reordered_spreadGroups,
    options_readLatest.1.reordered spreadGroups gatheredGroups hfits reordered_spreadGroups,
    options, hparse, hset⟩

end AngleSeries.CommandLine
