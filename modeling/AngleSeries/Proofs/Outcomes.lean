import AngleSeries.Action

/-!
# Outcomes

How outcomes and actions are taken apart: what follows one part runs only if that part succeeds, and
it starts with what that part left behind.
-/

namespace AngleSeries

namespace Outcome

variable {ε α β : Type}

@[simp]
theorem ok_bind (a : α) (next : α → Except ε β) : (Except.ok a >>= next) = next a := rfl

@[simp]
theorem error_bind (e : ε) (next : α → Except ε β) :
    ((Except.error e : Except ε α) >>= next) = .error e := rfl

theorem bind_eq_ok_iff {first : Except ε α} {next : α → Except ε β} {b : β} :
    (first >>= next) = .ok b ↔ ∃ a, first = .ok a ∧ next a = .ok b := by
  cases first with
  | error e => simp
  | ok a => simp

theorem bind_eq_error_iff {first : Except ε α} {next : α → Except ε β} {e : ε} :
    (first >>= next) = .error e
      ↔ first = .error e ∨ ∃ a, first = .ok a ∧ next a = .error e := by
  cases first with
  | error e' => simp
  | ok a => simp

theorem map_eq_ok_iff {first : Except ε α} {f : α → β} {b : β} :
    first.map f = .ok b ↔ ∃ a, first = .ok a ∧ f a = b := by
  cases first with
  | error e => simp [Except.map]
  | ok a => simp [Except.map]

theorem map_eq_error_iff {first : Except ε α} {f : α → β} {e : ε} :
    first.map f = .error e ↔ first = .error e := by
  cases first with
  | error e' => simp [Except.map]
  | ok a => simp [Except.map]

/-- What every outcome of `f` has, all the elements of a list of them have. -/
theorem forall_mem_of_mapM {f : α → Except ε β} {property : β → Prop} {inputs : List α}
    {outputs : List β} (hmap : inputs.mapM f = .ok outputs)
    (hf : ∀ a b, f a = .ok b → property b) : ∀ b ∈ outputs, property b := by
  induction inputs generalizing outputs with
  | nil =>
      cases hmap
      simp
  | cons a inputs ih =>
      rw [List.mapM_cons] at hmap
      obtain ⟨first, hfirst, hmap⟩ := bind_eq_ok_iff.mp hmap
      obtain ⟨rest, hrest, hmap⟩ := bind_eq_ok_iff.mp hmap
      cases hmap
      intro b hmem
      rcases List.mem_cons.mp hmem with rfl | hmem
      · exact hf a b hfirst
      · exact ih hrest b hmem

/-- An outcome that was tested is there. -/
theorem exists_of_any {outcome : Except ε α} {test : α → Bool}
    (hany : outcome.toOption.any test = true) : ∃ a, outcome = .ok a ∧ test a = true := by
  cases outcome with
  | error e => cases hany
  | ok a => exact ⟨a, rfl, hany⟩

end Outcome

namespace Action

variable {σ τ α β : Type} {env env' : σ}

@[simp]
theorem pure_run (a : α) (env : σ) : (pure a : Action σ α) env = (.ok a, env) := rfl

@[simp]
theorem get_run (env : σ) : (get : Action σ σ) env = (.ok env, env) := rfl

@[simp]
theorem ofExcept_run (outcome : Except Fault α) (env : σ) :
    ofExcept outcome env = (outcome, env) := rfl

theorem bind_of_ok {first : Action σ α} (next : α → Action σ β) {a : α}
    (hfirst : first env = (.ok a, env')) : (first >>= next) env = next a env' := by
  change (ExceptT.bindCont next (first env).1) (first env).2 = _
  rw [hfirst]
  rfl

theorem bind_of_error {first : Action σ α} (next : α → Action σ β) {fault : Fault}
    (hfirst : first env = (.error fault, env')) :
    (first >>= next) env = (.error fault, env') := by
  change (ExceptT.bindCont next (first env).1) (first env).2 = _
  rw [hfirst]
  rfl

theorem exists_of_bind_ok {first : Action σ α} {next : α → Action σ β} {b : β} {last : σ}
    (hrun : (first >>= next) env = (.ok b, last)) :
    ∃ a middle, first env = (.ok a, middle) ∧ next a middle = (.ok b, last) := by
  rcases hfirst : first env with ⟨outcome, middle⟩
  cases outcome with
  | error fault =>
      rw [bind_of_error next hfirst] at hrun
      cases hrun
  | ok a =>
      rw [bind_of_ok next hfirst] at hrun
      exact ⟨a, middle, rfl, hrun⟩

/-- All that matters of a first part is how it runs. -/
theorem bind_congr_run {first second : Action σ α} (next : α → Action σ β)
    (hrun : first env = second env) : (first >>= next) env = (second >>= next) env := by
  change (ExceptT.bindCont next (first env).1) (first env).2
    = (ExceptT.bindCont next (second env).1) (second env).2
  rw [hrun]

theorem inFirst_run {action : Action σ α} {outcome : Except Fault α}
    (haction : action env = (outcome, env')) (second : τ) :
    action.inFirst (env, second) = (outcome, (env', second)) := by
  rw [inFirst, haction]

theorem inSecond_run {action : Action τ α} {inner inner' : τ} {outcome : Except Fault α}
    (haction : action inner = (outcome, inner')) (first : σ) :
    action.inSecond (first, inner) = (outcome, (first, inner')) := by
  rw [inSecond, haction]

theorem withPrivate_run {action : Action (σ × τ) α} {start last : σ} {inner inner' : τ}
    {outcome : Except Fault α} (haction : action (start, inner) = (outcome, (last, inner'))) :
    action.withPrivate start inner = (outcome.map fun value => (value, last), inner') := by
  rw [withPrivate, haction]

end Action

end AngleSeries
