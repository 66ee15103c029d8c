import RobinHood.Fault

/-!
# Actions

An action changes a state and may stop with a fault; either way the state it reached is kept. A
caller's function runs in a monad `m` of its own, so that what it does, and how often, is visible
to the caller and to proofs.
-/

namespace RobinHood

variable {σ τ α β : Type} {m : Type → Type}

/-- A step on a state `σ` that may call into `m`. -/
abbrev ActionT (σ : Type) (m : Type → Type) : Type → Type :=
  ExceptT Fault (StateT σ m)

/-- A step on a state `σ` that calls nothing outside. -/
abbrev Action (σ : Type) : Type → Type :=
  ActionT σ Id

namespace ActionT

/-- Runs the action from `s`: its outcome, and the state it leaves whether or not it succeeds. -/
def runOn (action : ActionT σ m α) (s : σ) : m (Except Fault α × σ) :=
  StateT.run (ExceptT.run action) s

/-- The action that does to a state what `f` computes: an outcome and the state to leave. -/
def ofStep (f : σ → m (Except Fault α × σ)) : ActionT σ m α :=
  ExceptT.mk f

/-- Lets an action on a part of the state act on the whole. -/
def within [Monad m] (part : σ → τ) (replace : τ → σ → σ) (action : ActionT τ m α) :
    ActionT σ m α :=
  ofStep fun s => do
    let (outcome, t) ← action.runOn (part s)
    return (outcome, replace t s)

@[simp] theorem runOn_pure [Monad m] (x : α) (s : σ) :
    (pure x : ActionT σ m α).runOn s = pure (.ok x, s) := rfl

@[simp] theorem runOn_ofStep (f : σ → m (Except Fault α × σ)) (s : σ) :
    (ofStep f).runOn s = f s := rfl

end ActionT

namespace Action

/-- An action that calls nothing outside is one over any monad. -/
def lift [Monad m] (action : Action σ α) : ActionT σ m α :=
  ActionT.ofStep fun s => pure (action.runOn s)

/-- The second step starts where the first one succeeded, and is skipped where it failed. -/
theorem runOn_bind (action : Action σ α) (next : α → Action σ β) (s : σ) :
    (action >>= next).runOn s =
      match action.runOn s with
      | (.ok x, t) => (next x).runOn t
      | (.error fault, t) => (.error fault, t) := by
  change StateT.run (ExceptT.bindCont next (action.runOn s).1) (action.runOn s).2 = _
  obtain ⟨outcome, t⟩ := action.runOn s
  cases outcome <;> rfl

end Action

end RobinHood
