import AngleSeries.Proofs.OptionGroups

/-!
# Settled options

What the options of `run` and of `value` are set to, group by group. Every group that fits the
command writes its own option, the inputs among them, and what is made of the options in the end
depends on nothing else.
-/

namespace AngleSeries

def InputTexts.get (texts : InputTexts) : Field → Text
  | .pi => texts.pi
  | .lambda => texts.lambda
  | .mu => texts.mu
  | .x => texts.x
  | .hashHex => texts.hashHex
  | .blockSize => texts.blockSize
  | .crcValue => texts.crcValue

namespace CommandLine

/-! ### The inputs -/

section Inputs

variable {flag : Text} {field : Field} {collected : Collected} {inputs : Option InlineInputs}

theorem inputOf?_inputFlag (field : Field) : inputOf? (inputFlag field) = some field := by
  cases field <;> decide +kernel

theorem inputOf?_eq_some_iff : inputOf? flag = some field ↔ inputFlag field = flag := by
  constructor
  · intro hfound
    have hflag : (inputFlag field == flag) = true := by simpa using List.find?_some hfound
    exact eq_of_beq hflag
  · rintro rfl
    exact inputOf?_inputFlag field

theorem mem_inputFields (field : Field) : field ∈ inputFields := by
  cases field <;> decide

/-- What inputs were collected from: all fields or none. -/
def givenBy (inputs : Option InlineInputs) : Collected :=
  fun field => inputs.map (·.get field)

theorem join?_eq_some_iff {texts : InlineInputs} :
    join? collected = some texts ↔ collected = givenBy (some texts) := by
  constructor
  · intro hjoin
    simp only [join?, Option.bind_eq_bind, Option.bind_eq_some_iff] at hjoin
    obtain ⟨pi, hpi, lambda, hlambda, mu, hmu, x, hx, hash, hhash, size, hsize, crc, hcrc, heq⟩ :=
      hjoin
    cases heq
    funext field
    cases field with
    | pi => exact hpi
    | lambda => exact hlambda
    | mu => exact hmu
    | x => exact hx
    | hashHex => exact hhash
    | blockSize => exact hsize
    | crcValue => exact hcrc
  · rintro rfl
    rfl

/-- Inputs are accepted if all fields were collected or none was. -/
theorem finishInputs_eq_ok_iff :
    finishInputs collected = .ok inputs ↔ collected = givenBy inputs := by
  constructor
  · intro hfinish
    rw [finishInputs] at hfinish
    split at hfinish
    next hmissing =>
      cases hfinish
      funext field
      have hnone := List.length_filter_eq_length_iff.mp hmissing field (mem_inputFields field)
      exact Option.isNone_iff_eq_none.mp hnone
    next =>
      cases hjoin : join? collected with
      | none =>
          rw [hjoin] at hfinish
          cases hfinish
      | some texts =>
          rw [hjoin] at hfinish
          cases hfinish
          exact join?_eq_some_iff.mp hjoin
  · rintro rfl
    cases inputs with
    | none => rfl
    | some texts => rfl

theorem requireSingleSource_eq_ok_iff {config : Option Text} :
    requireSingleSource config inputs = .ok () ↔ (hasConfig config = true → inputs = none) := by
  cases hconfig : hasConfig config <;> cases inputs <;> simp [requireSingleSource, hconfig, misuse]

/-- What a command makes of its options when all its groups are read. -/
theorem finish_eq_ok_iff {α : Type} {config : Option Text}
    {last : Option InlineInputs → Except Fault α} {options : α} :
    (finishInputs collected >>= fun inputs =>
        requireSingleSource config inputs >>= fun _ => last inputs) = .ok options
      ↔ ∃ inputs, collected = givenBy inputs ∧ (hasConfig config = true → inputs = none) ∧
        last inputs = .ok options := by
  rw [Outcome.bind_eq_ok_iff]
  refine exists_congr fun inputs => and_congr finishInputs_eq_ok_iff ?_
  rw [Outcome.bind_eq_ok_iff, ← requireSingleSource_eq_ok_iff]
  exact ⟨fun ⟨_, hrequire, hlast⟩ => ⟨hrequire, hlast⟩, fun ⟨hrequire, hlast⟩ =>
    ⟨(), hrequire, hlast⟩⟩

end Inputs

/-! ### What is held in the options -/

def Collected.held (collected : Collected) (option : Text) : Option Setting :=
  (inputOf? option).bind fun field => (collected field).map .text

def ValueScan.held (scan : ValueScan) (option : Text) : Option Setting :=
  if option = "--config" then scan.config.map .text
  else if option = "--format" then if scan.json then some (.format .json) else none
  else scan.collected.held option

def RunScan.held (scan : RunScan) (option : Text) : Option Setting :=
  if option = "--config" then scan.options.config.map .text
  else if option = "--steps" then scan.options.flags.steps.map .number
  else if option = "--scale" then scan.options.flags.scale.map .number
  else if option = "--shots" then scan.options.flags.shots.map .number
  else if option = "--seed" then scan.options.flags.seed.map .number
  else if option = "--oracle" then scan.options.flags.oracle.map .oracle
  else if option = "--format" then some (.format scan.options.format)
  else if option = "--output" then scan.options.output.map .text
  else if option = "--broadcast" then scan.options.broadcast.map .number
  else if option = "--interval" then scan.options.interval.map .number
  else scan.collected.held option

section Held

variable {flag value : Text} {field : Field}

theorem read_input (hfield : inputOf? flag = some field) :
    (Group.setting flag value).read = .ok (.text value) := by
  rw [inputOf?_eq_some_iff] at hfield
  subst hfield
  cases field <;> simp [Group.read, inputFlag, Text.ofString_inj]

theorem read_config : (Group.setting "--config" value).read = .ok (.text value) := by
  simp [Group.read, Text.ofString_inj]

theorem Collected.held_input (collected : Collected) (hfield : inputOf? flag = some field) :
    collected.held flag = (collected field).map .text := by
  rw [Collected.held, hfield, Option.bind_some]

theorem ValueScan.held_input (scan : ValueScan) (hfield : inputOf? flag = some field) :
    scan.held flag = (scan.collected field).map .text := by
  rw [← scan.collected.held_input hfield]
  rw [inputOf?_eq_some_iff] at hfield
  subst hfield
  cases field <;> simp [ValueScan.held, inputFlag, Text.ofString_inj]

theorem RunScan.held_input (scan : RunScan) (hfield : inputOf? flag = some field) :
    scan.held flag = (scan.collected field).map .text := by
  rw [← scan.collected.held_input hfield]
  rw [inputOf?_eq_some_iff] at hfield
  subst hfield
  cases field <;> simp [RunScan.held, inputFlag, Text.ofString_inj]

theorem ValueScan.held_config (scan : ValueScan) :
    scan.held "--config" = scan.config.map .text :=
  if_pos rfl

theorem RunScan.held_config (scan : RunScan) :
    scan.held "--config" = scan.options.config.map .text :=
  if_pos rfl

theorem Collected.held_set_of_ne (collected : Collected) {option : Text}
    (hfield : inputOf? flag = some field) (hoption : option ≠ flag) :
    (collected.set field value).held option = collected.held option := by
  rw [Collected.held, Collected.held]
  cases hother : inputOf? option with
  | none => rfl
  | some other =>
      have hne : other ≠ field := by
        rintro rfl
        rw [inputOf?_eq_some_iff] at hfield hother
        exact hoption (hother.symm.trans hfield)
      rw [Option.bind_some, Option.bind_some, Collected.set, if_neg hne]

variable {σ : Type} {held : σ → Text → Option Setting} {state : σ}

/-- A group whose value is read and put into the state writes its option if it changes that option
and no other. -/
theorem map_held {α : Type} {put : α → σ} {setting : α → Setting} (reading : Except Fault α)
    (hself : ∀ a, held (put a) flag = some (setting a))
    (hother : ∀ a option, option ≠ flag → held (put a) option = held state option) :
    (reading >>= fun a => Except.ok (put a)).map held
      = (reading.map setting).map fun setting =>
          Function.update (held state) flag (some setting) := by
  cases reading with
  | error fault => rfl
  | ok a => exact congrArg Except.ok (Function.eq_update_iff.mpr ⟨hself a, hother a⟩)

theorem ValueScan.apply_held (scan : ValueScan) (group : Group)
    (hfits : group.fits valueShape = true) :
    (scan.apply group).map ValueScan.held
      = group.read.map fun setting =>
          Function.update scan.held group.option (some setting) := by
  cases group with
  | switch flag =>
      refine congrArg Except.ok (Function.eq_update_iff.mpr ⟨?_, fun option hoption => ?_⟩)
      · simp [ValueScan.held, Group.option, Text.ofString_inj]
      · rw [Group.option] at hoption
        simp only [ValueScan.held, hoption, if_false]
  | setting flag value =>
      rw [Group.option, ValueScan.apply]
      cases hfield : inputOf? flag with
      | some field =>
          rw [read_input hfield]
          refine congrArg Except.ok (Function.eq_update_iff.mpr ⟨?_, fun option hoption => ?_⟩)
          · simp only [held_input _ hfield, Collected.set, if_true, Option.map_some]
          · simp only [ValueScan.held, Collected.held_set_of_ne _ hfield hoption]
      | none =>
          have hconfig : flag = "--config" := by
            by_contra hne
            simp [Group.fits, valueShape, hfield, hne] at hfits
            split at hfits <;> simp at hfits
          subst hconfig
          rw [read_config]
          refine congrArg Except.ok (Function.eq_update_iff.mpr ⟨?_, fun option hoption => ?_⟩)
          · simp only [ValueScan.held, if_true, Option.map_some]
          · simp only [ValueScan.held, hoption, if_false]

theorem mem_runFlags_of_fits (hfits : (Group.setting flag value).fits runShape = true)
    (hnone : inputOf? flag = none) : flag ∈ runFlags := by
  by_contra hmem
  simp [Group.fits, runShape, hnone, hmem] at hfits
  split at hfits <;> simp at hfits

theorem RunScan.apply_held (scan : RunScan) (group : Group) (hfits : group.fits runShape = true) :
    (scan.apply group).map RunScan.held
      = group.read.map fun setting =>
          Function.update scan.held group.option (some setting) := by
  cases group with
  | switch flag =>
      refine congrArg Except.ok (Function.eq_update_iff.mpr ⟨?_, fun option hoption => ?_⟩)
      · simp [RunScan.held, Group.option, Text.ofString_inj]
      · rw [Group.option] at hoption
        simp only [RunScan.held, hoption, if_false]
  | setting flag value =>
      rw [Group.option, RunScan.apply]
      cases hfield : inputOf? flag with
      | some field =>
          rw [read_input hfield]
          refine congrArg Except.ok (Function.eq_update_iff.mpr ⟨?_, fun option hoption => ?_⟩)
          · simp only [held_input _ hfield, Collected.set, if_true, Option.map_some]
          · simp only [RunScan.held, Collected.held_set_of_ne _ hfield hoption]
      | none =>
          have hflag := mem_runFlags_of_fits hfits hfield
          simp only [runFlags, List.mem_cons, List.not_mem_nil, or_false] at hflag
          rcases hflag with rfl | rfl | rfl | rfl | rfl | rfl | rfl | rfl | rfl | rfl
          all_goals
            simp only [RunOptions.set, Group.read, Text.ofString_inj, String.reduceEq, if_true,
              if_false, or_true, or_false, or_self, bind_assoc, Outcome.ok_bind]
          -- The texts of `--config` and `--output` are taken as they are.
          case none.inl =>
            refine congrArg Except.ok (Function.eq_update_iff.mpr ⟨?_, fun option hoption => ?_⟩)
            · simp only [RunScan.held, if_true, Option.map_some]
            · simp only [RunScan.held, hoption, if_false]
          case none.inr.inr.inr.inr.inr.inr.inr.inl =>
            refine congrArg Except.ok (Function.eq_update_iff.mpr ⟨?_, fun option hoption => ?_⟩)
            · simp [RunScan.held, Text.ofString_inj]
            · simp only [RunScan.held, hoption, if_false]
          all_goals
            refine map_held _ (fun a => ?_) (fun a option hoption => ?_)
            · simp [RunScan.held, Text.ofString_inj]
            · simp only [RunScan.held, hoption, if_false]

end Held

/-! ### The two commands -/

/-- A command: its options are read group by group and then finished. What is finished depends only
on what the options are set to, and finishing leaves them as they are. -/
structure Command (σ α : Type) extends Reader σ where
  finish : σ → Except Fault α
  /-- What an option is set to in the end. -/
  setTo : α → Text → Option Setting
  inputs : α → Option InlineInputs
  finish_congr : ∀ state other, held state = held other → finish state = finish other
  setTo_of_finish : ∀ state options, finish state = .ok options → setTo options = held state
  setTo_input : ∀ options field,
    setTo options (inputFlag field) = (givenBy (inputs options) field).map .text
  start_input : ∀ field, held start (inputFlag field) = none

def Command.parse {σ α : Type} (command : Command σ α) (args : List Text) : Except Fault α :=
  scan command.shape command.apply command.start args >>= command.finish

def finishValue (scan : ValueScan) : Except Fault ValueOptions := do
  let inputs ← finishInputs scan.collected
  requireSingleSource scan.config inputs
  if !hasConfig scan.config && inputs.isNone then
    misuse "value requires --config <file> or the inline input flags."
  else .ok { config := scan.config, inputs, json := scan.json }

def ValueOptions.setTo (options : ValueOptions) : Text → Option Setting :=
  ValueScan.held ⟨options.config, options.json, givenBy options.inputs⟩

def finishRun (scan : RunScan) : Except Fault RunOptions := do
  let inputs ← finishInputs scan.collected
  requireSingleSource scan.options.config inputs
  .ok { scan.options with inputs }

def RunOptions.setTo (options : RunOptions) : Text → Option Setting :=
  RunScan.held ⟨options, givenBy options.inputs⟩

section Commands

theorem map_text_inj {first second : Option Text} :
    first.map Setting.text = second.map Setting.text ↔ first = second :=
  (Option.map_injective fun _ _ heq => Setting.text.inj heq).eq_iff

theorem map_number_inj {first second : Option Double} :
    first.map Setting.number = second.map Setting.number ↔ first = second :=
  (Option.map_injective fun _ _ heq => Setting.number.inj heq).eq_iff

theorem map_oracle_inj {first second : Option OracleKind} :
    first.map Setting.oracle = second.map Setting.oracle ↔ first = second :=
  (Option.map_injective fun _ _ heq => Setting.oracle.inj heq).eq_iff

theorem ValueScan.eq_of_held {scan other : ValueScan} (hheld : scan.held = other.held) :
    scan = other := by
  have hcollected : scan.collected = other.collected := by
    funext field
    rw [← map_text_inj, ← scan.held_input (inputOf?_inputFlag field), hheld,
      other.held_input (inputOf?_inputFlag field)]
  have hconfig := congrFun hheld "--config"
  have hformat := congrFun hheld "--format"
  simp only [held, Text.ofString_inj, String.reduceEq, if_true, if_false, map_text_inj]
    at hconfig hformat
  have hjson : scan.json = other.json := by
    cases hscan : scan.json <;> cases hother : other.json <;> simp_all
  obtain ⟨config, json, collected⟩ := scan
  obtain rfl : config = other.config := hconfig
  obtain rfl : json = other.json := hjson
  obtain rfl : collected = other.collected := hcollected
  rfl

/-- Two scans that hold the same differ in nothing but inputs that are not settled yet. -/
theorem RunScan.eq_of_held {scan other : RunScan} (hheld : scan.held = other.held) :
    scan.collected = other.collected ∧
      ∀ inputs, { scan.options with inputs } = { other.options with inputs } := by
  have hcollected : scan.collected = other.collected := by
    funext field
    rw [← map_text_inj, ← scan.held_input (inputOf?_inputFlag field), hheld,
      other.held_input (inputOf?_inputFlag field)]
  have hconfig := congrFun hheld "--config"
  have hsteps := congrFun hheld "--steps"
  have hscale := congrFun hheld "--scale"
  have hshots := congrFun hheld "--shots"
  have hseed := congrFun hheld "--seed"
  have horacle := congrFun hheld "--oracle"
  have hformat := congrFun hheld "--format"
  have houtput := congrFun hheld "--output"
  have hbroadcast := congrFun hheld "--broadcast"
  have hinterval := congrFun hheld "--interval"
  simp only [held, Text.ofString_inj, String.reduceEq, if_true, if_false, map_text_inj,
    map_number_inj, map_oracle_inj, Option.some.injEq, Setting.format.injEq]
    at hconfig hsteps hscale hshots hseed horacle hformat houtput hbroadcast hinterval
  have hflags : scan.options.flags = other.options.flags := by
    rw [RunFlags.mk.injEq]
    exact ⟨hsteps, hscale, hshots, hseed, horacle⟩
  refine ⟨hcollected, fun inputs => ?_⟩
  simp only [hconfig, hflags, hformat, houtput, hbroadcast, hinterval]

theorem finishRun_congr {scan other : RunScan} (hheld : scan.held = other.held) :
    finishRun scan = finishRun other := by
  obtain ⟨hcollected, hoptions⟩ := RunScan.eq_of_held hheld
  have hconfig : scan.options.config = other.options.config := by
    simpa only using congrArg RunOptions.config (hoptions none)
  rw [finishRun, finishRun, hcollected, hconfig]
  refine bind_congr fun inputs => bind_congr fun _ => ?_
  exact congrArg Except.ok (hoptions inputs)

theorem setTo_of_finishRun {scan : RunScan} {options : RunOptions}
    (hfinish : finishRun scan = .ok options) : options.setTo = scan.held := by
  obtain ⟨inputs, hcollected, -, heq⟩ := finish_eq_ok_iff.mp hfinish
  cases heq
  funext option
  simp only [RunOptions.setTo, RunScan.held, hcollected]

theorem setTo_of_finishValue {scan : ValueScan} {options : ValueOptions}
    (hfinish : finishValue scan = .ok options) : options.setTo = scan.held := by
  obtain ⟨inputs, hcollected, -, hlast⟩ := finish_eq_ok_iff.mp hfinish
  split at hlast
  · cases hlast
  · cases hlast
    funext option
    simp only [ValueOptions.setTo, ValueScan.held, hcollected]

def valueCommand : Command ValueScan ValueOptions where
  shape := valueShape
  apply := ValueScan.apply
  start := {}
  held := ValueScan.held
  apply_held := ValueScan.apply_held
  finish := finishValue
  setTo := ValueOptions.setTo
  inputs := ValueOptions.inputs
  finish_congr := fun _ _ hheld => congrArg finishValue (ValueScan.eq_of_held hheld)
  setTo_of_finish := fun _ _ hfinish => setTo_of_finishValue hfinish
  setTo_input := fun _ field => ValueScan.held_input _ (inputOf?_inputFlag field)
  start_input := fun field => ValueScan.held_input {} (inputOf?_inputFlag field)

def runCommand : Command RunScan RunOptions where
  shape := runShape
  apply := RunScan.apply
  start := {}
  held := RunScan.held
  apply_held := RunScan.apply_held
  finish := finishRun
  setTo := RunOptions.setTo
  inputs := RunOptions.inputs
  finish_congr := fun _ _ hheld => finishRun_congr hheld
  setTo_of_finish := fun _ _ hfinish => setTo_of_finishRun hfinish
  setTo_input := fun _ field => RunScan.held_input _ (inputOf?_inputFlag field)
  start_input := fun field => RunScan.held_input {} (inputOf?_inputFlag field)

theorem parse_runCommand (args : List Text) : runCommand.parse args = parseRun args := rfl

end Commands

end CommandLine

end AngleSeries
