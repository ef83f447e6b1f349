import AngleSeries.CommandLine.Options
import AngleSeries.Proofs.Outcomes
import Mathlib.Data.List.Induction
import Mathlib.Logic.Function.Basic

/-!
# Groups of arguments

A command line that is read to its end is a row of groups, each of which writes one option. What an
option is set to in the end is what the last group says that writes it, and a group that can be read
at all can be read at any place. So a row of groups is read like any other row in which every option
has its groups in the same order.
-/

namespace AngleSeries.CommandLine

/-! ### Splitting arguments -/

def Group.arguments : Group → List Text
  | .switch flag => [flag]
  | .setting flag value => [flag, value]

/-- The flag is one of the command, and what it takes as a value does not look like a flag. -/
def Group.fits (shape : Text → Shape) : Group → Bool
  | .switch flag => shape flag = .switch
  | .setting flag value => shape flag = .setting && !isFlag value

def spell (groups : List Group) : List Text :=
  groups.flatMap Group.arguments

section Splitting

variable {shape : Text → Shape} {groups : List Group}

theorem spell_cons (group : Group) (groups : List Group) :
    spell (group :: groups) = group.arguments ++ spell groups :=
  List.flatMap_cons

/-- Groups that fit are split off whatever follows them. -/
theorem split_append (hfits : ∀ group ∈ groups, group.fits shape = true) (args : List Text) :
    split shape (spell groups ++ args)
      = (groups ++ (split shape args).1, (split shape args).2) := by
  induction groups with
  | nil => rfl
  | cons group groups ih =>
      obtain ⟨hgroup, hgroups⟩ := List.forall_mem_cons.mp hfits
      have hrest := ih hgroups
      rw [spell_cons]
      cases group with
      | switch flag =>
          have hshape : shape flag = .switch := of_decide_eq_true hgroup
          rw [Group.arguments, List.singleton_append, List.cons_append, split]
          simp only [hshape, hrest, List.cons_append]
      | setting flag value =>
          obtain ⟨hshape, hvalue⟩ : shape flag = .setting ∧ isFlag value = false := by
            simpa [Group.fits] using hgroup
          rw [Group.arguments, List.cons_append, List.singleton_append, List.cons_append,
            List.cons_append, split]
          simp only [hshape, hvalue, hrest, Bool.false_eq_true, if_false, List.cons_append]

theorem split_spell (hfits : ∀ group ∈ groups, group.fits shape = true) :
    split shape (spell groups) = (groups, none) := by
  have happend := split_append hfits []
  rwa [List.append_nil, split, List.append_nil] at happend

theorem fits_of_split {args : List Text} {fault : Option Fault}
    (hsplit : split shape args = (groups, fault)) : ∀ group ∈ groups, group.fits shape = true := by
  fun_induction split shape args generalizing groups fault with
  | case1 | case2 | case4 | case5 =>
      cases hsplit
      exact fun _ hgroup => (List.not_mem_nil hgroup).elim
  | case3 flag rest hshape inner fault hinner ih =>
      cases hsplit
      exact List.forall_mem_cons.mpr ⟨decide_eq_true hshape, ih hinner⟩
  | case6 flag hshape value rest hvalue inner fault hinner ih =>
      cases hsplit
      exact List.forall_mem_cons.mpr ⟨by simp [Group.fits, hshape, hvalue], ih hinner⟩

theorem eq_spell_of_split {args : List Text} (hsplit : split shape args = (groups, none)) :
    args = spell groups := by
  fun_induction split shape args generalizing groups with
  | case1 =>
      cases hsplit
      rfl
  | case2 | case4 | case5 => cases hsplit
  | case3 flag rest hshape inner fault hinner ih =>
      cases hsplit
      rw [spell_cons, ← ih hinner, Group.arguments, List.singleton_append]
  | case6 flag hshape value rest hvalue inner fault hinner ih =>
      cases hsplit
      rw [spell_cons, ← ih hinner, Group.arguments, List.cons_append, List.singleton_append]

theorem exists_group_of_mem {flag : Text} (hfits : ∀ group ∈ groups, group.fits shape = true)
    (hshape : shape flag = .setting) (hflag : isFlag flag = true) (hmem : flag ∈ spell groups) :
    ∃ value, Group.setting flag value ∈ groups := by
  obtain ⟨group, hgroup, hargument⟩ := List.mem_flatMap.mp hmem
  have hfit := hfits group hgroup
  cases group with
  | switch other =>
      obtain rfl := List.mem_singleton.mp hargument
      simp [Group.fits, hshape] at hfit
  | setting other value =>
      rw [Group.fits, Bool.and_eq_true, Bool.not_eq_true'] at hfit
      rcases List.mem_cons.mp hargument with rfl | hvalue
      · exact ⟨value, hgroup⟩
      -- A value does not look like a flag.
      · obtain rfl := List.mem_singleton.mp hvalue
        rw [hflag] at hfit
        cases hfit.2

end Splitting

/-! ### What a group says -/

/-- What an option can be set to. -/
inductive Setting where
  | text (text : Text)
  | number (value : Double)
  | oracle (kind : OracleKind)
  | format (format : Format)

namespace Group

/-- The option that a group writes; `--json` is short for `--format json`. -/
def option : Group → Text
  | .switch _ => "--format"
  | .setting flag _ => flag

/-- What a group sets its option to, if its value can be read. -/
def read : Group → Except Fault Setting
  | .switch _ => .ok (.format .json)
  | .setting flag value =>
    if flag = "--steps" ∨ flag = "--seed" ∨ flag = "--interval" then
      (readCount flag value 0).map .number
    else if flag = "--shots" then (readCount flag value 1).map .number
    else if flag = "--scale" then (readFinite flag value).map .number
    else if flag = "--broadcast" then (readPort flag value).map .number
    else if flag = "--oracle" then (readOracle value).map .oracle
    else if flag = "--format" then (readFormat value).map .format
    else .ok (.text value)

end Group

def latest (option : Text) (groups : List Group) : Option Group :=
  (groups.filter fun group => group.option = option).getLast?

theorem latest_concat (option : Text) (groups : List Group) (group : Group) :
    latest option (groups ++ [group])
      = if group.option = option then some group else latest option groups := by
  by_cases hoption : group.option = option
  · simp [latest, List.filter_append, hoption]
  · simp [latest, List.filter_append, hoption]

theorem of_latest {option : Text} {groups : List Group} {group : Group}
    (hlatest : latest option groups = some group) : group ∈ groups ∧ group.option = option := by
  have hmem := List.mem_of_getLast? hlatest
  simpa only [List.mem_filter, decide_eq_true_eq] using hmem

theorem exists_latest {groups : List Group} {group : Group} (hmem : group ∈ groups) :
    ∃ last, latest group.option groups = some last := by
  rw [← Option.isSome_iff_exists, latest, List.getLast?_isSome]
  exact List.ne_nil_of_mem (List.mem_filter.mpr ⟨hmem, decide_eq_true rfl⟩)

/-! ### Reading groups one after the other -/

/-- A command whose groups are applied in their order. A group that can be read writes its own
option and leaves the other options alone. -/
structure Reader (σ : Type) where
  shape : Text → Shape
  apply : σ → Group → Except Fault σ
  start : σ
  /-- What an option is set to. -/
  held : σ → Text → Option Setting
  apply_held : ∀ state group, group.fits shape = true →
    (apply state group).map held
      = group.read.map fun setting => Function.update (held state) group.option (some setting)

namespace Reader

variable {σ : Type} (reader : Reader σ) {groups : List Group} {state : σ}

/-- What an option is set to when all groups are read: what its last group says, or what it was at
the start. -/
def settled (groups : List Group) (option : Text) : Option Setting :=
  match latest option groups with
  | some group => group.read.toOption
  | none => reader.held reader.start option

variable {reader}

theorem held_of_apply {next : σ} {group : Group} (hfits : group.fits reader.shape = true)
    (happly : reader.apply state group = .ok next) :
    ∃ setting, group.read = .ok setting ∧
      reader.held next = Function.update (reader.held state) group.option (some setting) := by
  have hmap := reader.apply_held state group hfits
  rw [happly] at hmap
  obtain ⟨setting, hread, hheld⟩ := Outcome.map_eq_ok_iff.mp hmap.symm
  exact ⟨setting, hread, hheld.symm⟩

theorem read_of_apply_error {group : Group} {fault : Fault}
    (hfits : group.fits reader.shape = true) (happly : reader.apply state group = .error fault) :
    group.read = .error fault := by
  have hmap := reader.apply_held state group hfits
  rw [happly, Outcome.map_eq_error_iff.mpr rfl] at hmap
  exact Outcome.map_eq_error_iff.mp hmap.symm

theorem apply_of_read_error {group : Group} {fault : Fault}
    (hfits : group.fits reader.shape = true) (hread : group.read = .error fault) :
    reader.apply state group = .error fault := by
  have hmap := reader.apply_held state group hfits
  rw [hread, Outcome.map_eq_error_iff.mpr rfl] at hmap
  exact Outcome.map_eq_error_iff.mp hmap

theorem settled_concat {group : Group} {setting : Setting} (hread : group.read = .ok setting) :
    reader.settled (groups ++ [group])
      = Function.update (reader.settled groups) group.option (some setting) := by
  funext option
  by_cases hoption : option = group.option
  · subst hoption
    rw [settled, latest_concat, if_pos rfl, Function.update_self]
    simp only [hread, Except.toOption]
  · rw [settled, latest_concat, if_neg (Ne.symm hoption), Function.update_of_ne hoption]
    rfl

theorem read_of_foldlM_error {fault : Fault}
    (hfits : ∀ group ∈ groups, group.fits reader.shape = true)
    (hfold : groups.foldlM reader.apply state = .error fault) :
    ∃ group ∈ groups, group.read = .error fault := by
  induction groups generalizing state with
  | nil => cases hfold
  | cons group groups ih =>
      obtain ⟨hgroup, hgroups⟩ := List.forall_mem_cons.mp hfits
      rw [List.foldlM_cons] at hfold
      rcases Outcome.bind_eq_error_iff.mp hfold with happly | ⟨next, -, hrest⟩
      · exact ⟨group, List.mem_cons_self, read_of_apply_error hgroup happly⟩
      · obtain ⟨other, hmem, hread⟩ := ih hgroups hrest
        exact ⟨other, List.mem_cons_of_mem group hmem, hread⟩

/-- Groups that are read to the end can all be read, and they leave every option at what its last
group says. -/
theorem held_of_foldlM (hfits : ∀ group ∈ groups, group.fits reader.shape = true)
    (hfold : groups.foldlM reader.apply reader.start = .ok state) :
    (∀ group ∈ groups, ∃ setting, group.read = .ok setting)
      ∧ reader.held state = reader.settled groups := by
  -- By induction from the end, because the last group of an option decides.
  induction groups using List.reverseRecOn generalizing state with
  | nil =>
      cases hfold
      exact ⟨fun _ hgroup => (List.not_mem_nil hgroup).elim, rfl⟩
  | append_singleton groups group ih =>
      rw [List.foldlM_append] at hfold
      obtain ⟨middle, hmiddle, hlast⟩ := Outcome.bind_eq_ok_iff.mp hfold
      rw [List.foldlM_cons] at hlast
      obtain ⟨last, hlast, hend⟩ := Outcome.bind_eq_ok_iff.mp hlast
      cases hend
      obtain ⟨hgroups, hgroup⟩ := List.forall_mem_append.mp hfits
      obtain ⟨hread, hheld⟩ := ih hgroups hmiddle
      obtain ⟨setting, hsetting, hnext⟩ :=
        held_of_apply (hgroup group (List.mem_singleton_self group)) hlast
      constructor
      · refine List.forall_mem_append.mpr ⟨hread, fun other hmem => ?_⟩
        rw [List.mem_singleton.mp hmem]
        exact ⟨setting, hsetting⟩
      · rw [hnext, hheld, settled_concat hsetting]

/-- **Groups are read to the end exactly if each of them can be read.** -/
theorem exists_foldlM_iff (hfits : ∀ group ∈ groups, group.fits reader.shape = true) :
    (∃ state, groups.foldlM reader.apply reader.start = .ok state)
      ↔ ∀ group ∈ groups, ∃ setting, group.read = .ok setting := by
  constructor
  · rintro ⟨state, hfold⟩
    exact (held_of_foldlM hfits hfold).1
  · intro hread
    cases hfold : groups.foldlM reader.apply reader.start with
    | ok state => exact ⟨state, rfl⟩
    | error fault =>
        obtain ⟨group, hmem, herror⟩ := read_of_foldlM_error hfits hfold
        obtain ⟨setting, hsetting⟩ := hread group hmem
        rw [herror] at hsetting
        cases hsetting

end Reader

end AngleSeries.CommandLine
