import RobinHood.Proofs.Calls.Dicts

/-!
# Calls about one key

Dictionaries of both kinds answer a call about one key by the same few steps: they search for it, and then enter,
replace, take, put back or remove what is in a bucket. So what a call comes to follows from what the steps come to,
and is said here once for both kinds.
-/

namespace RobinHood

open RobinHood.Action

variable {σ K V R : Type}

/-- What can be done to a dictionary `σ` under one key. -/
structure Keyed (σ K V : Type) where
  get? : σ → Except Fault (Option V)
  insert : V → Action σ (Option V)
  update : V → Action σ (Option V)
  removeEntry : Action σ (Option (K × V))
  edit : {m : Type → Type} → [Monad m] → {R : Type} → (Option V → m (Edited V R)) → ActionT σ m R

/-- What calls about one key consist of. -/
structure Steps (σ K V : Type) where
  search : σ → Except Fault Probe
  valueIn : σ → Nat → Except Fault V
  enter : V → UInt64 → Action σ Nat
  replaceIn : Nat → V → Action σ V
  takeValue : Nat → Action σ (Option V)
  putValue : Nat → V → Action σ Unit
  removeAt : Nat → Action σ (K × Option V)

namespace Steps

def keyed (steps : Steps σ K V) : Keyed σ K V where
  get? s := do (← steps.search s).bucket.mapM (steps.valueIn s)
  insert value := do
    let probe ← steps.search (← get)
    if probe.bucket.isSome then
      return some value
    else
      let _ ← steps.enter value probe.hash
      return none
  update value := do
    let probe ← steps.search (← get)
    match probe.bucket with
    | some bucket => return some (← steps.replaceIn bucket value)
    | none =>
      let _ ← steps.enter value probe.hash
      return none
  removeEntry := do
    match (← steps.search (← get)).bucket with
    | some bucket =>
      let removed ← steps.removeAt bucket
      return some (← FixedDict.removedEntry removed)
    | none => return none
  edit f := do
    let probe ← steps.search (← get)
    match probe.bucket with
    | none =>
      let edited ← (f none : _)
      let answer ← edited.answer
      if let some value := edited.left then
        let _ ← Action.lift (steps.enter value probe.hash)
      return answer
    | some bucket =>
      let value ← Action.lift (steps.takeValue bucket)
      let edited ← (f value : _)
      match edited.left with
      | some value => Action.lift (steps.putValue bucket value)
      | none => let _ ← Action.lift (steps.removeAt bucket)
      edited.answer

variable {steps : Steps σ K V} {s : σ} {b : Nat} {hash : UInt64} {key : K} {old : V}

/-- A search finds an entry. With another value its bucket leads to one of the states `after`, and without the
entry too, also if the value was borrowed before. -/
structure Finds (steps : Steps σ K V) (s : σ) (b : Nat) (key : K) (old : V) (after : Option V → σ) : Prop where
  search : ∃ hash, steps.search s = .ok ⟨some b, hash⟩
  valueIn : steps.valueIn s b = .ok old
  replaceIn : ∀ value, (steps.replaceIn b value).runOn s = (.ok old, after (some value))
  removeAt : (steps.removeAt b).runOn s = (.ok (key, some old), after none)
  borrow : ∃ lent, (steps.takeValue b).runOn s = (.ok (some old), lent) ∧
    (∀ value, (steps.putValue b value).runOn lent = (.ok (), after (some value))) ∧
    (steps.removeAt b).runOn lent = (.ok (key, none), after none)

/-! ### After a hit -/

section Hit

variable {after : Option V → σ} (h : steps.Finds s b key old after)

include h

theorem Finds.get? : steps.keyed.get? s = .ok (some old) := by
  obtain ⟨hash, hsearch⟩ := h.search
  simp only [keyed, hsearch, bind, Except.bind, Option.mapM_some, h.valueIn]
  rfl

theorem Finds.runOn_insert (value : V) : (steps.keyed.insert value).runOn s = (.ok (some value), s) := by
  obtain ⟨hash, hsearch⟩ := h.search
  simp only [keyed, runOn_get_bind, runOn_ok_bind, hsearch]
  rfl

theorem Finds.runOn_update (value : V) :
    (steps.keyed.update value).runOn s = (.ok (some old), after (some value)) := by
  obtain ⟨hash, hsearch⟩ := h.search
  simp only [keyed, runOn_get_bind, runOn_ok_bind, hsearch, runOn_bind_ok (h.replaceIn value)]
  rfl

theorem Finds.runOn_removeEntry : steps.keyed.removeEntry.runOn s = (.ok (some (key, old)), after none) := by
  obtain ⟨hash, hsearch⟩ := h.search
  simp only [keyed, runOn_get_bind, runOn_ok_bind, hsearch, runOn_bind_ok h.removeAt]
  rfl

/-- The caller's function is asked about the value, and what it leaves takes effect even if it gives up. -/
theorem Finds.runOn_edit {m : Type → Type} [Monad m] [LawfulMonad m] (f : Option V → m (Edited V R)) :
    (steps.keyed.edit f).runOn s = (fun edited => (edited.answer, after edited.left)) <$> f (some old) := by
  obtain ⟨hash, hsearch⟩ := h.search
  obtain ⟨lent, htake, hput, hremove⟩ := h.borrow
  simp only [keyed, ActionT.runOn_get_bind, ActionT.runOn_liftM_bind, hsearch, runOn_lift_bind, htake, runOn_call_bind,
    map_eq_pure_bind]
  congr 1
  funext ⟨left, answer⟩
  cases left with
  | some value => simp only [runOn_lift_bind, hput, ActionT.runOn_liftM]
  | none => simp only [runOn_lift_bind, hremove, ActionT.runOn_liftM]

end Hit

/-! ### After a miss -/

section Miss

variable (hsearch : steps.search s = .ok ⟨none, hash⟩)

include hsearch

theorem get?_of_miss : steps.keyed.get? s = .ok none := by
  simp only [keyed, hsearch, bind, Except.bind]
  rfl

theorem runOn_insert_of_miss (value : V) :
    (steps.keyed.insert value).runOn s = reply (fun _ => none) ((steps.enter value hash).runOn s) := by
  simp only [keyed, runOn_get_bind, runOn_ok_bind, hsearch, Option.isSome_none, Bool.false_eq_true, if_false]
  rw [runOn_bind]
  obtain ⟨outcome, t⟩ := (steps.enter value hash).runOn s
  cases outcome <;> rfl

theorem runOn_update_of_miss (value : V) :
    (steps.keyed.update value).runOn s = reply (fun _ => none) ((steps.enter value hash).runOn s) := by
  simp only [keyed, runOn_get_bind, runOn_ok_bind, hsearch]
  rw [runOn_bind]
  obtain ⟨outcome, t⟩ := (steps.enter value hash).runOn s
  cases outcome <;> rfl

theorem runOn_removeEntry_of_miss : steps.keyed.removeEntry.runOn s = (.ok none, s) := by
  simp only [keyed, runOn_get_bind, runOn_ok_bind, hsearch]
  rfl

/-- The caller's function is asked about an absent value, and nothing is entered if it gives up. -/
theorem runOn_edit_of_miss {m : Type → Type} [Monad m] [LawfulMonad m] (f : Option V → m (Edited V R)) :
    (steps.keyed.edit f).runOn s =
      (fun edited => match edited with
        | ⟨_, .error fault⟩ => (.error fault, s)
        | ⟨some value, .ok answer⟩ => reply (fun _ => answer) ((steps.enter value hash).runOn s)
        | ⟨none, .ok answer⟩ => (.ok answer, s)) <$> f none := by
  simp only [keyed, ActionT.runOn_get_bind, ActionT.runOn_liftM_bind, hsearch, runOn_call_bind, map_eq_pure_bind]
  congr 1
  funext ⟨left, answer⟩
  cases answer with
  | error fault => rfl
  | ok answer =>
    cases left with
    | none => rfl
    | some value =>
      simp only [runOn_lift_bind]
      obtain ⟨outcome, t⟩ := (steps.enter value hash).runOn s
      cases outcome <;> rfl

end Miss

end Steps

/-! ### Fixed dictionaries -/

namespace FixedDict

variable [BEq K] {hasher : Hasher K} {c : Nat} {d : FixedDict K V} {m : List (K × V)} {x : K × V} {b : Nat}

def under (key : K) : Keyed (FixedDict K V) K V where
  get? d := d.get? key
  insert := insert key
  update := update key
  removeEntry := removeEntry key
  edit := edit key

def steps (key : K) : Steps (FixedDict K V) K V where
  search d := d.keys.search key
  valueIn d := d.values.get
  enter := insertNew key
  replaceIn := replaceIn
  takeValue := takeValue
  putValue := putValue
  removeAt := removeAt

theorem keyed_steps (key : K) : (steps key : Steps (FixedDict K V) K V).keyed = under key := rfl

omit [BEq K] in
/-- What a removal leaves does not depend on what was put into the value slot. -/
theorem Steady.exists_removeAt (h : Steady hasher c d m) (hx : Holds d b x) :
    ∃ t, ∀ content, (FixedDict.removeAt b).runOn (d.assignValue b content) = (.ok (x.1, content), t) := by
  obtain ⟨s, rfl, -, hstep, -⟩ := h
  rw [holds_ofEntries] at hx
  obtain ⟨unseated, hok, hunseats⟩ := hstep.unseat (Seating.entryHash Prod.fst hasher s) hx
  cases hx.symm.trans hunseats.element
  exact ⟨_, fun content => runOn_removeAt hok hunseats content⟩

omit [BEq K] in
theorem Steady.exists_abandonAt (h : Steady hasher c d m) (hx : Holds d b x) :
    ∃ t m', Steady hasher c t m' ∧
      ∀ content, (FixedDict.abandonAt b).runOn (d.assignValue b content) = (.ok (x.1, content), t) := by
  obtain ⟨s, rfl, rfl, hstep, -⟩ := h
  rw [holds_ofEntries] at hx
  obtain ⟨unseated, hok, hunseats⟩ := hstep.abandon hx
  cases hx.symm.trans hunseats.element
  exact ⟨_, _, ⟨_, rfl, hunseats.like.capacity, hunseats.inStep, .refl _⟩,
    fun content => runOn_abandonAt hok hunseats content⟩

/-- What comes of the bucket of an entry: another value, or none of it. -/
def revised (d : FixedDict K V) (b : Nat) (removed : FixedDict K V) : Option V → FixedDict K V
  | some value => d.assignValue b (some value)
  | none => removed

theorem Steady.finds {key : K} {hash : UInt64} (h : Steady hasher c d m)
    (hsearch : d.keys.search key = .ok ⟨some b, hash⟩) (hx : Holds d b x) :
    ∃ t, (steps key).Finds d b x.1 x.2 (d.revised b t) := by
  obtain ⟨t, hremove⟩ := h.exists_removeAt hx
  have hself := hremove (some x.2)
  rw [assignValue_self hx] at hself
  exact ⟨t, ⟨hash, hsearch⟩, Slots.get_of_occupant hx.2, runOn_replaceIn hx, hself, d.assignValue b none,
    runOn_takeValue hx, runOn_putValue hx, hremove none⟩

end FixedDict

/-! ### Growing dictionaries -/

namespace GrowDict

variable [BEq K] {hasher : Hasher K} {g : GrowDict K V} {m : List (K × V)} {x : K × V} {b : Nat}

def under (key : K) : Keyed (GrowDict K V) K V where
  get? g := g.storage.get? key
  insert := insert key
  update := update key
  removeEntry := removeEntry key
  edit := edit key

def steps (key : K) : Steps (GrowDict K V) K V where
  search g := g.storage.keys.search key
  valueIn g := g.storage.values.get
  enter value hash := Growable.insertAbsent (key, value) hash
  replaceIn bucket value := Growable.onStorage (FixedDict.replaceIn bucket value)
  takeValue bucket := Growable.onStorage (FixedDict.takeValue bucket)
  putValue bucket value := Growable.onStorage (FixedDict.putValue bucket value)
  removeAt := removeAt

theorem keyed_steps (key : K) : (steps key : Steps (GrowDict K V) K V).keyed = under key := rfl

def revised (g : GrowDict K V) (b : Nat) (removed : GrowDict K V) : Option V → GrowDict K V
  | some value => { g with storage := g.storage.assignValue b (some value) }
  | none => removed

theorem exists_removeAt (h : (FixedDict.steady hasher).Held g m) (hx : FixedDict.Holds g.storage b x) :
    ∃ t, ∀ content, (removeAt b).runOn { g with storage := g.storage.assignValue b content } =
      (.ok (x.1, content), t) := by
  obtain ⟨u, hremove⟩ := FixedDict.Steady.exists_removeAt h.keeps hx
  obtain ⟨v, m', hsteady, habandon⟩ := FixedDict.Steady.exists_abandonAt h.keeps hx
  exact h.takeOut_uniform (fun _ => rfl) hremove habandon hsteady

theorem finds {key : K} {hash : UInt64} (h : (FixedDict.steady hasher).Held g m)
    (hsearch : g.storage.keys.search key = .ok ⟨some b, hash⟩) (hx : FixedDict.Holds g.storage b x) :
    ∃ t, (steps key).Finds g b x.1 x.2 (g.revised b t) := by
  obtain ⟨t, hremove⟩ := exists_removeAt h hx
  have hself := hremove (some x.2)
  rw [FixedDict.assignValue_self hx] at hself
  exact ⟨t, ⟨hash, hsearch⟩, Slots.get_of_occupant hx.2, runOn_replaceIn hx, hself,
    { g with storage := g.storage.assignValue b none }, runOn_takeValue hx, runOn_putValue hx, hremove none⟩

end GrowDict

end RobinHood
