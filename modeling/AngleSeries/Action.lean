import AngleSeries.Fault

/-!
# Actions

An action works on an environment and may fail. What it did to the environment before it failed
stays done. Rules of one component are run inside a larger environment with `inFirst` and
`inSecond`.
-/

namespace AngleSeries

/-- A step on an environment `σ` that may fail and keeps what it has done so far. -/
abbrev Action (σ α : Type) := ExceptT Fault (StateM σ) α

namespace Action

variable {σ τ α : Type}

def ofExcept (outcome : Except Fault α) : Action σ α :=
  fun env => (outcome, env)

def inFirst (action : Action σ α) : Action (σ × τ) α :=
  fun env =>
    let (outcome, first) := action env.1
    (outcome, (first, env.2))

def inSecond (action : Action τ α) : Action (σ × τ) α :=
  fun env =>
    let (outcome, second) := action env.2
    (outcome, (env.1, second))

/-- Runs with a private part of the environment, and returns what became of it. -/
def withPrivate (start : σ) (action : Action (σ × τ) α) : Action τ (α × σ) :=
  fun env =>
    let (outcome, (last, env)) := action (start, env)
    (outcome.map fun value => (value, last), env)

end Action

end AngleSeries
