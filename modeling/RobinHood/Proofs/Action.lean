import Mathlib.Data.List.Forall2
import RobinHood.Action

/-!
# Running actions

The equations through which actions are opened, and runs: requests made one after the other. Two systems
that answer alike and stay related, request by request, have runs that are alike.
-/

namespace RobinHood

variable {ρ σ τ α β : Type}

/-! ### Actions that may call outside -/

namespace ActionT

variable {m : Type → Type} [Monad m]

theorem runOn_liftM (x : Except Fault α) (s : σ) : (liftM x : ActionT σ m α).runOn s = pure (x, s) := rfl

theorem runOn_bind (action : ActionT σ m α) (next : α → ActionT σ m β) (s : σ) :
    (action >>= next).runOn s = action.runOn s >>= fun step =>
      match step with
      | (.ok x, t) => (next x).runOn t
      | (.error fault, t) => pure (.error fault, t) := by
  change action.runOn s >>= (fun step => StateT.run (ExceptT.bindCont next step.1) step.2) = _
  congr 1
  funext ⟨outcome, t⟩
  cases outcome <;> rfl

variable [LawfulMonad m]

theorem runOn_get_bind (next : σ → ActionT σ m β) (s : σ) : (get >>= next).runOn s = (next s).runOn s := by
  simp only [ActionT.runOn, get, getThe, MonadStateOf.get, liftM, monadLift, MonadLift.monadLift, ExceptT.run_bind_lift,
    StateT.run_bind]
  exact pure_bind (s, s) _

theorem runOn_liftM_bind (x : Except Fault α) (next : α → ActionT σ m β) (s : σ) :
    ((liftM x : ActionT σ m α) >>= next).runOn s =
      match x with
      | .ok y => (next y).runOn s
      | .error fault => pure (.error fault, s) := by
  change (pure (x, s) : m _) >>= (fun step => StateT.run (ExceptT.bindCont next step.1) step.2) = _
  rw [pure_bind]
  cases x <;> rfl

theorem runOn_throw_bind (fault : Fault) (next : α → ActionT σ m β) (s : σ) :
    ((throw fault : ActionT σ m α) >>= next).runOn s = pure (.error fault, s) :=
  runOn_liftM_bind (.error fault) next s

end ActionT

/-! ### Actions on their own -/

namespace Action

@[simp] theorem runOn_set (s t : σ) : (set t : Action σ PUnit).runOn s = (.ok ⟨⟩, t) := rfl

@[simp] theorem runOn_modify (f : σ → σ) (s : σ) : (modify f : Action σ PUnit).runOn s = (.ok ⟨⟩, f s) := rfl

@[simp] theorem lift_eq (action : Action σ α) : (Action.lift action : Action σ α) = action := rfl

@[simp] theorem runOn_within (part : σ → τ) (replace : τ → σ → σ) (action : Action τ α) (s : σ) :
    ActionT.runOn (ActionT.within part replace action) s =
      ((action.runOn (part s)).1, replace (action.runOn (part s)).2 s) := rfl

/-! The first step of a sequence of steps: -/

section Sequence

variable (next : α → Action σ β) (s : σ)

@[simp] theorem runOn_get_bind (next : σ → Action σ β) : (get >>= next).runOn s = (next s).runOn s := rfl

@[simp] theorem runOn_set_bind (next : PUnit → Action σ β) (t : σ) :
    (set t >>= next).runOn s = (next ⟨⟩).runOn t := rfl

@[simp] theorem runOn_throw_bind (fault : Fault) : (throw fault >>= next).runOn s = (.error fault, s) := rfl

@[simp] theorem runOn_ok_bind (x : α) :
    ((liftM (.ok x : Except Fault α) : Action σ α) >>= next).runOn s = (next x).runOn s := rfl

@[simp] theorem runOn_error_bind (fault : Fault) :
    ((liftM (.error fault : Except Fault α) : Action σ α) >>= next).runOn s = (.error fault, s) := rfl

theorem runOn_call_bind {m : Type → Type} [Monad m] [LawfulMonad m] (x : m α) (next : α → ActionT σ m β) (s : σ) :
    ((liftM x : ActionT σ m α) >>= next).runOn s = x >>= fun y => (next y).runOn s := by
  simp only [ActionT.runOn, liftM, monadLift, MonadLift.monadLift, ExceptT.run_bind_lift, StateT.run_bind_lift]

theorem runOn_lift_bind {m : Type → Type} [Monad m] [LawfulMonad m] (action : Action σ α) (next : α → ActionT σ m β)
    (s : σ) : (Action.lift action >>= next).runOn s =
      match action.runOn s with
      | (.ok x, t) => (next x).runOn t
      | (.error fault, t) => pure (.error fault, t) := by
  change (pure (action.runOn s) : m _) >>= (fun step => StateT.run (ExceptT.bindCont next step.1) step.2) = _
  rw [pure_bind]
  obtain ⟨outcome, t⟩ := action.runOn s
  cases outcome <;> rfl

theorem call_bind (x : Id α) (next : α → Id β) : x >>= next = next x := rfl

variable {next s} {action : Action σ α}

theorem runOn_bind_ok {t : σ} {x : α} (h : action.runOn s = (.ok x, t)) :
    (action >>= next).runOn s = (next x).runOn t := by
  rw [runOn_bind, h]

theorem runOn_bind_error {t : σ} {fault : Fault} (h : action.runOn s = (.error fault, t)) :
    (action >>= next).runOn s = (.error fault, t) := by
  rw [runOn_bind, h]

/-- A sequence of steps that succeeded took every one of them. -/
theorem exists_of_bind {t : σ} {y : β} (h : (action >>= next).runOn s = (.ok y, t)) :
    ∃ x u, action.runOn s = (.ok x, u) ∧ (next x).runOn u = (.ok y, t) := by
  rw [runOn_bind] at h
  cases hrun : action.runOn s with
  | mk outcome u =>
    rw [hrun] at h
    cases outcome with
    | error fault => cases h
    | ok x => exact ⟨x, u, rfl, h⟩

theorem eq_ok_of_liftM {x : Except Fault α} {t : σ} {y : α} (h : (liftM x : Action σ α).runOn s = (.ok y, t)) :
    x = .ok y ∧ t = s := by
  cases h
  exact ⟨rfl, rfl⟩

end Sequence

end Action

/-! ### Runs -/

def reply (f : α → β) (step : Except Fault α × σ) : Except Fault β × σ :=
  (f <$> step.1, step.2)

/-- The outcomes of requests made one after the other, each with the state that it left. A request that
stops with a fault is followed by the next one all the same. -/
def trace (answer : ρ → σ → Except Fault β × σ) : List ρ → σ → List (Except Fault β × σ)
  | [], _ => []
  | request :: requests, s => answer request s :: trace answer requests (answer request s).2

theorem ne_error_of_reply {f : α → β} {step : Except Fault α × σ} {fault : Fault}
    (h : (reply f step).1 ≠ .error fault) : step.1 ≠ .error fault := by
  intro hstep
  rw [reply, hstep] at h
  exact h rfl

/-- The two steps have the same outcome and leave related states. -/
def Alike (Related : σ → τ → Prop) (left : Except Fault β × σ) (right : Except Fault β × τ) : Prop :=
  left.1 = right.1 ∧ Related left.2 right.2

theorem Alike.reply {Related : σ → τ → Prop} {left : Except Fault α × σ} {right : Except Fault α × τ}
    (h : Alike Related left right) (f : α → β) : Alike Related (reply f left) (reply f right) :=
  ⟨congrArg (f <$> ·) h.1, h.2⟩

theorem Action.runOn_map (action : Action σ α) (f : α → β) (s : σ) :
    (do return f (← action) : Action σ β).runOn s = reply f (action.runOn s) := by
  rw [runOn_bind]
  obtain ⟨outcome, t⟩ := action.runOn s
  cases outcome <;> rfl

theorem Alike.map {Related : σ → τ → Prop} {action : Action σ α} {s : σ} {step : Except Fault α × τ}
    (h : Alike Related (action.runOn s) step) (f : α → β) :
    Alike Related ((do return f (← action) : Action σ β).runOn s) (RobinHood.reply f step) := by
  rw [Action.runOn_map]
  exact h.reply f

def certain : Except Empty α → α
  | .ok x => x

theorem ActionT.runOn_certain {m : Type → Type} [Monad m] [LawfulMonad m] (action : ActionT σ m (Except Empty α))
    (s : σ) :
    (do match ← action with | .ok x => return x : ActionT σ m α).runOn s = reply certain <$> action.runOn s := by
  rw [runOn_bind, map_eq_pure_bind]
  congr 1
  funext ⟨outcome, t⟩
  rcases outcome with fault | e | x
  · rfl
  · cases e
  · rfl

theorem Action.runOn_certain (action : Action σ (Except Empty α)) (s : σ) :
    (do match ← action with | .ok x => return x : Action σ α).runOn s = reply certain (action.runOn s) :=
  ActionT.runOn_certain action s

theorem Alike.certain {Related : σ → τ → Prop} {action : Action σ (Except Empty α)} {s : σ}
    {step : Except Fault (Except Empty α) × τ} (h : Alike Related (action.runOn s) step) :
    Alike Related ((do match ← action with | .ok x => return x : Action σ α).runOn s)
      (RobinHood.reply RobinHood.certain step) := by
  rw [Action.runOn_certain]
  exact h.reply _

/-- What comes of the answer of a caller's function: a value is entered, and anything else leaves the state as it
is. -/
def settle {V ε : Type} (enter : V → Except Fault α × σ) (s : σ) :
    Except Fault (Except ε V) → Except Fault (Except ε V) × σ
  | .ok (.ok value) => reply (fun _ => .ok value) (enter value)
  | outcome => (outcome, s)

def andThen (step : Except Fault α × σ) (rest : α → σ → Except Fault β × σ) : Except Fault β × σ :=
  match step with
  | (.ok x, s) => rest x s
  | (.error fault, s) => (.error fault, s)

theorem Alike.andThen {Related : σ → τ → Prop} {action : Action σ α} {next : α → Action σ β} {s : σ}
    {step : Except Fault α × τ} {rest : α → τ → Except Fault β × τ} (h : Alike Related (action.runOn s) step)
    (hnext : ∀ x s t, Related s t → Alike Related ((next x).runOn s) (rest x t)) :
    Alike Related ((action >>= next).runOn s) (andThen step rest) := by
  obtain ⟨expected, t⟩ := step
  obtain ⟨hsame, hafter⟩ := h
  cases hrun : action.runOn s with
  | mk outcome s' =>
    rw [hrun] at hsame hafter
    obtain rfl : outcome = expected := hsame
    cases outcome with
    | ok x =>
      rw [Action.runOn_bind_ok hrun]
      exact hnext x _ _ hafter
    | error fault =>
      rw [Action.runOn_bind_error hrun]
      exact ⟨rfl, hafter⟩

def each {ι : Type} (step : ι → σ → Except Fault β × σ) : List ι → σ → Except Fault Unit × σ
  | [], s => (.ok (), s)
  | i :: rest, s => andThen (step i s) fun _ => each step rest

theorem Action.forM_cons {ι : Type} (action : ι → Action σ β) (i : ι) (rest : List ι) :
    (i :: rest).forM (fun i => (do let _ ← action i : Action σ PUnit)) =
      (action i >>= fun _ => rest.forM fun i => (do let _ ← action i : Action σ PUnit)) := by
  rw [List.forM, bind_assoc]
  rfl

/-- A loop does what is expected of its items one after the other. -/
theorem forM_alike {ι : Type} {Related : σ → τ → Prop} {action : ι → Action σ β}
    {step : ι → τ → Except Fault β × τ}
    (h : ∀ i s t, Related s t → Alike Related ((action i).runOn s) (step i t)) :
    ∀ (items : List ι) {s : σ} {t : τ}, Related s t →
      Alike Related (ActionT.runOn (items.forM fun i => do let _ ← action i) s) (each step items t) := by
  intro items
  induction items with
  | nil => exact fun hrelated => ⟨rfl, hrelated⟩
  | cons i rest ih =>
    intro s t hrelated
    rw [Action.forM_cons]
    exact (h i s t hrelated).andThen fun _ _ _ => ih

/-- Every request is answered alike in related states. -/
def Simulates (Related : σ → τ → Prop) (answer : ρ → σ → Except Fault β × σ)
    (expected : ρ → τ → Except Fault β × τ) : Prop :=
  ∀ request s t, Related s t → Alike Related (answer request s) (expected request t)

theorem Simulates.trace {Related : σ → τ → Prop} {answer : ρ → σ → Except Fault β × σ}
    {expected : ρ → τ → Except Fault β × τ} (h : Simulates Related answer expected) :
    ∀ (requests : List ρ) {s : σ} {t : τ}, Related s t →
      List.Forall₂ (Alike Related) (trace answer requests s) (trace expected requests t) := by
  intro requests
  induction requests with
  | nil => exact fun _ => .nil
  | cons request requests ih =>
    intro s t hrelated
    have hstep := h request s t hrelated
    exact .cons hstep (ih hstep.2)

/-- Two systems that answer as a third does answer alike. -/
theorem Simulates.compose {υ : Type} {Related : σ → υ → Prop} {Related' : τ → υ → Prop}
    {answer : ρ → σ → Except Fault β × σ} {answer' : ρ → τ → Except Fault β × τ}
    {expected : ρ → υ → Except Fault β × υ} (h : Simulates Related answer expected)
    (h' : Simulates Related' answer' expected) :
    Simulates (fun s t => ∃ u, Related s u ∧ Related' t u) answer answer' := by
  rintro request s t ⟨u, hs, ht⟩
  obtain ⟨hsame, hafter⟩ := h request s u hs
  obtain ⟨hsame', hafter'⟩ := h' request t u ht
  exact ⟨hsame.trans hsame'.symm, _, hafter, hafter'⟩

/-! ### Calls one after the other -/

namespace Action

variable {ι κ : Type} {act : ι → Action σ Unit}

def afterAll (act : ι → Action σ Unit) (s : σ) (calls : List ι) : σ :=
  calls.foldl (fun s call => ((act call).runOn s).2) s

theorem afterAll_keeps {P : σ → Prop} (h : ∀ call t, P t → P ((act call).runOn t).2) (calls : List ι) :
    ∀ {s : σ}, P s → P (afterAll act s calls) := by
  induction calls with
  | nil => exact fun hs => hs
  | cons call calls ih => exact fun hs => ih (h call _ hs)

/-- Calls that are made of a list of items do to the state what `follow` does to what is related to it. -/
theorem afterAll_follows {Related : σ → τ → Prop} {ofItem : κ → ι} {follow : τ → κ → τ} (items : List κ)
    (h : ∀ item ∈ items, ∀ s t, Related s t → Related ((act (ofItem item)).runOn s).2 (follow t item)) :
    ∀ {s : σ} {t : τ}, Related s t → Related (afterAll act s (items.map ofItem)) (items.foldl follow t) := by
  induction items with
  | nil => exact fun hrelated => hrelated
  | cons item items ih =>
    intro s t hrelated
    obtain ⟨hfirst, hrest⟩ := List.forall_mem_cons.mp h
    exact ih hrest (hfirst s t hrelated)

end Action

end RobinHood
