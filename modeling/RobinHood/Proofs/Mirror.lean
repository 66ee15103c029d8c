import RobinHood.Proofs.Action

/-!
# Actions seen through a function of the state

An action is mirrored by another if it makes no difference whether the state is looked at through a function before
or after: what consists of mirrored steps is mirrored. Actions that stop with faults of their own keep pace if they
stop at the same time.
-/

namespace RobinHood

variable {σ τ α α' β β' ι ι' : Type} {f : σ → τ} {φ : α → α'} {ψ : β → β'} {s : σ}

/-- On the image of `s` the one action has the outcome that the other has on `s`, and leaves the image of what that
one leaves. -/
def Mirrors (f : σ → τ) (φ : α → α') (image : Action τ α') (action : Action σ α) (s : σ) : Prop :=
  image.runOn (f s) = Prod.map (Except.map φ) f (action.runOn s)

namespace Mirrors

variable {image : Action τ α'} {action : Action σ α} {next' : α' → Action τ β'} {next : α → Action σ β}

theorem ok {x : α} {t : σ} (h : Mirrors f φ image action s) (hrun : action.runOn s = (.ok x, t)) :
    image.runOn (f s) = (.ok (φ x), f t) := by
  rw [h, hrun]
  rfl

theorem error {fault : Fault} {t : σ} (h : Mirrors f φ image action s) (hrun : action.runOn s = (.error fault, t)) :
    image.runOn (f s) = (.error fault, f t) := by
  rw [h, hrun]
  rfl

theorem bind (h : Mirrors f φ image action s)
    (hnext : ∀ x t, action.runOn s = (.ok x, t) → Mirrors f ψ (next' (φ x)) (next x) t) :
    Mirrors f ψ (image >>= next') (action >>= next) s := by
  rw [Mirrors]
  cases hrun : action.runOn s with
  | mk outcome t =>
    cases outcome with
    | ok x =>
      rw [Action.runOn_bind_ok (h.ok hrun), Action.runOn_bind_ok hrun]
      exact hnext x t hrun
    | error fault =>
      rw [Action.runOn_bind_error (h.error hrun), Action.runOn_bind_error hrun]
      rfl

theorem get_bind {next : σ → Action σ β} {next' : τ → Action τ β'} (h : Mirrors f ψ (next' (f s)) (next s) s) :
    Mirrors f ψ (get >>= next') (get >>= next) s := h

theorem liftM_bind {x : Except Fault α} {x' : Except Fault α'} (hx : x' = φ <$> x)
    (hnext : ∀ y, x = .ok y → Mirrors f ψ (next' (φ y)) (next y) s) :
    Mirrors f ψ (liftM x' >>= next') (liftM x >>= next) s := by
  subst hx
  cases x with
  | ok y => exact hnext y rfl
  | error fault => rfl

theorem same_bind {x : Except Fault α} {next' : α → Action τ β'}
    (hnext : ∀ y, x = .ok y → Mirrors f ψ (next' y) (next y) s) :
    Mirrors f ψ (liftM x >>= next') (liftM x >>= next) s :=
  liftM_bind (id_map x).symm hnext

end Mirrors

/-! ### Keeping pace -/

/-- Both are done, or both are refused, each with the fault of its own. -/
inductive Tied (refusal refusal' : Fault) : Except Fault α → Except Fault β → Prop
  | done (x : α) (y : β) : Tied refusal refusal' (.ok x) (.ok y)
  | refused : Tied refusal refusal' (.error refusal) (.error refusal')

/-- The outcomes go together, and the one step leaves the image of what the other leaves. -/
structure Pace (Outcomes : Except Fault α → Except Fault β → Prop) (f : σ → τ) (left : Except Fault α × σ)
    (right : Except Fault β × τ) : Prop where
  outcomes : Outcomes left.1 right.1
  state : right.2 = f left.2

namespace Pace

variable {refusal refusal' : Fault} {action : Action σ α} {image : Action τ α'} {next : α → Action σ β}
  {next' : α' → Action τ β'}

theorem done (x : α) (y : β) : Pace (Tied refusal refusal') f (.ok x, s) (.ok y, f s) :=
  ⟨.done x y, rfl⟩

theorem refused : Pace (Tied refusal refusal') f ((.error refusal, s) : Except Fault α × σ)
    ((.error refusal', f s) : Except Fault β × τ) :=
  ⟨.refused, rfl⟩

theorem reply_left {left : Except Fault α × σ} {right : Except Fault α' × τ}
    (h : Pace (Tied refusal refusal') f left right) (φ : α → β) : Pace (Tied refusal refusal') f (reply φ left) right := by
  obtain ⟨outcome, t⟩ := left
  obtain ⟨outcome', t'⟩ := right
  obtain ⟨htied, rfl⟩ := h
  cases htied with
  | done x y => exact done (φ x) y
  | refused => exact refused

theorem reply_right {left : Except Fault α × σ} {right : Except Fault α' × τ}
    (h : Pace (Tied refusal refusal') f left right) (ψ : α' → β') :
    Pace (Tied refusal refusal') f left (reply ψ right) := by
  obtain ⟨outcome, t⟩ := left
  obtain ⟨outcome', t'⟩ := right
  obtain ⟨htied, rfl⟩ := h
  cases htied with
  | done x y => exact done x (ψ y)
  | refused => exact refused

theorem reply {left : Except Fault α × σ} {right : Except Fault α' × τ} (h : Pace (Tied refusal refusal') f left right)
    (φ : α → β) (ψ : α' → β') : Pace (Tied refusal refusal') f (reply φ left) (reply ψ right) :=
  (h.reply_left φ).reply_right ψ

theorem map (h : Pace (Tied refusal refusal') f (action.runOn s) (image.runOn (f s))) (φ : α → β) (ψ : α' → β') :
    Pace (Tied refusal refusal') f ((do return φ (← action) : Action σ β).runOn s)
      ((do return ψ (← image) : Action τ β').runOn (f s)) := by
  rw [Action.runOn_map, Action.runOn_map]
  exact h.reply φ ψ

theorem certain {action : Action σ (Except Empty α)} {right : Except Fault α' × τ}
    (h : Pace (Tied refusal refusal') f (action.runOn s) right) :
    Pace (Tied refusal refusal') f ((do match ← action with | .ok x => return x : Action σ α).runOn s) right := by
  have hrun : (do match ← action with | .ok x => return x : Action σ α).runOn s = _ := Action.runOn_certain action s
  rw [hrun]
  exact h.reply_left _

theorem bind (h : Pace (Tied refusal refusal') f (action.runOn s) (image.runOn (f s)))
    (hnext : ∀ x y t, action.runOn s = (.ok x, t) →
      Pace (Tied refusal refusal') f ((next x).runOn t) ((next' y).runOn (f t))) :
    Pace (Tied refusal refusal') f ((action >>= next).runOn s) ((image >>= next').runOn (f s)) := by
  obtain ⟨htied, hstate⟩ := h
  rw [Action.runOn_bind, Action.runOn_bind]
  cases hrun : action.runOn s with
  | mk outcome t =>
    cases hrun' : image.runOn (f s) with
    | mk outcome' t' =>
      rw [hrun, hrun'] at htied hstate
      obtain rfl : t' = f t := hstate
      cases htied with
      | done x y => exact hnext x y t hrun
      | refused => exact refused

/-- Loops over items and over their images keep pace if their steps do, as long as the state has a property that the
steps keep. -/
theorem forM {P : σ → Prop} {action : ι → Action σ β} {image : ι' → Action τ β'} {look : ι → ι'}
    (h : ∀ i s, P s → Pace (Tied refusal refusal') f ((action i).runOn s) ((image (look i)).runOn (f s)))
    (hkeeps : ∀ i s, P s → P ((action i).runOn s).2) (items : List ι) : ∀ {s : σ}, P s →
      Pace (Tied refusal refusal') f (ActionT.runOn (items.forM fun i => do let _ ← action i) s)
        (ActionT.runOn ((items.map look).forM fun i => do let _ ← image i) (f s)) := by
  induction items with
  | nil => exact fun _ => done _ _
  | cons i rest ih =>
    intro s hs
    refine ((h i s hs).map _ _).bind fun _ _ t hrun => ih ?_
    rw [Action.runOn_map] at hrun
    obtain rfl : ((action i).runOn s).2 = t := congrArg Prod.snd hrun
    exact hkeeps i s hs

end Pace

/-- An action that stops with no fault but a refusal keeps pace with its mirror image. -/
theorem Mirrors.pace {refusal : Fault} {action : Action σ α} {image : Action τ α'} (h : Mirrors f φ image action s)
    (hrun : (∃ x t, action.runOn s = (.ok x, t)) ∨ ∃ t, action.runOn s = (.error refusal, t)) :
    Pace (Tied refusal refusal) f (action.runOn s) (image.runOn (f s)) := by
  obtain ⟨x, t, hrun⟩ | ⟨t, hrun⟩ := hrun
  · rw [h.ok hrun, hrun]
    exact .done _ _
  · rw [h.error hrun, hrun]
    exact .refused

end RobinHood
