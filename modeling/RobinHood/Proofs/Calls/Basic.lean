import RobinHood.Proofs.Action

/-!
# Calls

A call is a request to a container of which only two things matter here: the state that it leaves, and that
if it stops, the caller can have brought that about. Functions of the caller may give up, but they cannot
make up a fault of their own.
-/

namespace RobinHood

variable {σ α β ι : Type}

/-- The faults that no caller should be able to bring about. -/
def Fault.isInternal : Fault → Bool
  | vacantSlot | vacantValue | emptyHand | noEntryInHand | outOfRange _ _ | countUnderflow | noFreeBucket => true
  | capacityOverflow | setFull | dictionaryFull | indexOutOfBounds | bufferOverflow | aborted _ => false

/-- What a function of the caller answers, which may give up with a message. -/
def unlessAborted (answer : Except String α) : Except Fault α :=
  answer.mapError .aborted

/-- If there is no answer, then for a reason that a caller can bring about. -/
def WithinContract (outcome : Except Fault α) : Prop :=
  ∀ fault, outcome = .error fault → fault.isInternal = false

/-- The step left a state with the property, and if it stopped, then with a fault of the contract. -/
structure Safe (P : σ → Prop) (step : Except Fault α × σ) : Prop where
  after : P step.2
  contract : WithinContract step.1

namespace Safe

variable {P Q : σ → Prop} {s : σ} {action : Action σ α} {next : α → Action σ β}

theorem ok (x : α) (h : P s) : Safe P (.ok x, s) :=
  ⟨h, nofun⟩

theorem stop {fault : Fault} (h : P s) (hfault : fault.isInternal = false) :
    Safe P ((.error fault, s) : Except Fault α × σ) :=
  ⟨h, by rintro _ ⟨⟩; exact hfault⟩

theorem mono {step : Except Fault α × σ} (h : Safe P step) (himp : ∀ t, P t → Q t) : Safe Q step :=
  ⟨himp _ h.after, h.contract⟩

/-- A sequence of steps is safe if the first is, and the second wherever the first succeeds. -/
theorem bind (h : Safe P (action.runOn s)) (hstop : ∀ t, P t → Q t)
    (hnext : ∀ x t, action.runOn s = (.ok x, t) → P t → Safe Q ((next x).runOn t)) :
    Safe Q ((action >>= next).runOn s) := by
  obtain ⟨hafter, hcontract⟩ := h
  cases hrun : action.runOn s with
  | mk outcome t =>
    rw [hrun] at hafter hcontract
    cases outcome with
    | ok x =>
      rw [Action.runOn_bind_ok hrun]
      exact hnext x t hrun hafter
    | error fault =>
      rw [Action.runOn_bind_error hrun]
      exact stop (hstop t hafter) (hcontract fault rfl)

theorem reply {step : Except Fault α × σ} (h : Safe P step) (f : α → β) : Safe P (reply f step) := by
  obtain ⟨outcome, t⟩ := step
  cases outcome with
  | ok x => exact ok (f x) h.after
  | error fault => exact stop h.after (h.contract fault rfl)

theorem map (h : Safe P (action.runOn s)) (f : α → β) :
    Safe P ((do return f (← action) : Action σ β).runOn s) := by
  rw [Action.runOn_map]
  exact h.reply f

theorem forM {action : ι → Action σ β} (h : ∀ i s, P s → Safe P ((action i).runOn s)) (items : List ι) :
    ∀ {s : σ}, P s → Safe P (ActionT.runOn (items.forM fun i => do let _ ← action i) s) := by
  induction items with
  | nil => exact fun hs => ok _ hs
  | cons i rest ih =>
    intro s hs
    exact ((h i s hs).map _).bind (fun _ ht => ht) fun _ _ _ => ih

theorem certain {action : Action σ (Except Empty α)} (h : Safe P (action.runOn s)) :
    Safe P ((do match ← action with | .ok x => return x : Action σ α).runOn s) := by
  refine h.bind (fun _ ht => ht) fun answer t _ ht => ?_
  cases answer with
  | ok x => exact ok x ht
  | error e => cases e

theorem ask {answer : Except String α} (hs : P s) (hnext : ∀ x, Safe P ((next x).runOn s)) :
    Safe P (((liftM (unlessAborted answer) : Action σ α) >>= next).runOn s) := by
  cases answer with
  | ok x => exact hnext x
  | error text => exact stop hs rfl

theorem answer (answer : Except String α) (hs : P s) :
    Safe P ((liftM (unlessAborted answer) : Action σ α).runOn s) := by
  cases answer with
  | ok x => exact ok x hs
  | error text => exact stop hs rfl

end Safe

/-- What was made has the property, or a fault of the contract kept it from being made. -/
structure Made (P : α → Prop) (made : Except Fault α) : Prop where
  good : ∀ x, made = .ok x → P x
  contract : WithinContract made

namespace Made

variable {P : α → Prop} {Q : β → Prop}

theorem ok {x : α} (h : P x) : Made P (.ok x) :=
  ⟨by rintro _ ⟨⟩; exact h, nofun⟩

theorem stop {fault : Fault} (h : fault.isInternal = false) : Made P (.error fault) :=
  ⟨nofun, by rintro _ ⟨⟩; exact h⟩

theorem bind {made : Except Fault α} {next : α → Except Fault β} (h : Made P made)
    (hnext : ∀ x, P x → Made Q (next x)) : Made Q (made >>= next) := by
  cases made with
  | ok x => exact hnext x (h.good x rfl)
  | error fault => exact stop (h.contract fault rfl)

end Made

end RobinHood
