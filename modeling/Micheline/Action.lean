/-
Micheline/Action.lean

What is done with a state and may fail.  An action has an outcome and leaves a state, also
where it fails.
-/
import Micheline.Error

namespace Micheline

/-- Something that is done with a state. -/
abbrev Action (σ α : Type) : Type := ExceptT Error (StateM σ) α

namespace Action

variable {σ α : Type}

/-- The outcome of an action, and the state after it. -/
def outcome (action : Action σ α) (s : σ) : Except Error α × σ :=
  action.run.run s

/-- Makes a new state of the one at hand, and puts it in its place once it is made. -/
def replace (make : σ → Except Error (α × σ)) : Action σ α := do
  let (a, s) ← MonadExcept.ofExcept (make (← get))
  set s
  return a

end Action

end Micheline
