import RobinHood.Proofs.Overflows
import RobinHood.Proofs.Scale.Words

/-!
# Room, or none at all

Before a growing container changes anything it knows whether there can be room for what is asked: whether it has room
already, whether the sum of its elements and those to come is a word, and whether there is a scale for it. If there
cannot be room it is left as it was, and no caller's function is asked for anything.
-/

namespace RobinHood

open RobinHood.Action

namespace Scale

theorem buckets_le {required buckets : Nat} (h : Table.bucketsFor required = .ok buckets) : buckets ≤ 2 ^ 62 := by
  rw [Table.bucketsFor] at h
  split at h
  · next hdense =>
    obtain rfl := Except.ok.inj h
    exact Nat.le_trans hdense (by decide)
  · cases hscale : ofCapacity required with
    | error fault =>
      rw [hscale] at h
      cases h
    | ok s =>
      rw [hscale] at h
      obtain rfl : 1 <<< (s - 1) = buckets := Except.ok.inj h
      have hs : s < 64 := (ofCapacity_eq_ok_iff.mp hscale).1
      rw [Nat.one_shiftLeft]
      exact Nat.pow_le_pow_right (by decide) (by omega)

end Scale

namespace Growable

variable {C α : Type} [Backing C α] {g t : Growable C} {n : Nat}

/-- There is not enough room for so many more elements, and there is no capacity that would have enough. -/
def Overruns (g : Growable C) (additional : Nat) : Prop :=
  g.freeCapacity < additional ∧ 7 * 2 ^ 59 < g.size + additional

/-- How room is made for `additional` more elements where there are `count` of them, computed on words: the capacity of
new storage and its number of buckets, if it is needed. The positions in a probed table are masked by one less. -/
def roomInWords (capacity count additional : Nat) : Checked (Option (Nat × Nat)) := do
  if additional ≤ (← Checked.sub capacity count) then
    return none
  else
    let required ← Checked.exact (Scale.total count additional)
    let capacity ← Scale.capacityInWords (← Scale.climb required 0)
    let buckets ← Table.bucketsInWords capacity
    if Table.denseLimit < capacity then
      let _ ← Checked.sub buckets 1
    return some (capacity, buckets)

def chosen (step : Except Fault Bool × Growable C) : Except Fault (Option (Nat × Nat)) :=
  step.1.map fun replaced => if replaced then some (step.2.capacity, step.2.table.bucketCount) else none

def SameElements (g t : Growable C) : Prop :=
  ∃ before after, Backing.elements g.storage = .ok before ∧ Backing.elements t.storage = .ok after ∧ after.Perm before

/-- Making room for so many more elements is refused exactly if they overrun the container, which then is as it was;
otherwise there is room for them, and the elements are the same. No step on words wraps around. Containers do not have
room beyond the largest capacity, so it is that alone that counts. -/
structure Provisions (g : Growable C) (n : Nat) : Prop where
  overruns_iff : g.Overruns n ↔ 7 * 2 ^ 59 < g.size + n
  overflows : Overflows .capacityOverflow (g.Overruns n) neverGivesUp g ((reserve n).runOn g)
  provides : ¬ g.Overruns n → ∃ t, (reserve n).runOn g = (.ok (), t) ∧ n ≤ t.freeCapacity ∧ t.size = g.size ∧
    g.SameElements t
  inWords : roomInWords g.capacity g.size n = .exact (chosen ((ensureFree n).runOn g))
  buckets_le : ((ensureFree n).runOn g).2.table.bucketCount ≤ 2 ^ 62

end Growable

namespace Upkeep

open Growable

variable {C α : Type} [Backing C α] {U : Upkeep C α} {g : Growable C} {m : List α}

theorem Held.sameElements {U' : Upkeep C α} {t : Growable C} (h : U.Held g m) (h' : U'.Held t m) :
    g.SameElements t := by
  obtain ⟨before, hbefore, hperm⟩ := U.elements (U.stores h.keeps)
  obtain ⟨after, hafter, hperm'⟩ := U'.elements (U'.stores h'.keeps)
  exact ⟨before, after, hbefore, hafter, hperm'.trans hperm.symm⟩

theorem Held.overruns_iff (h : U.Held g m) (n : Nat) : g.Overruns n ↔ Scale.limit < g.size + n := by
  have hfree := h.freeCapacity
  have hsize := h.size
  have hlength := h.length_le
  have hlimit := h.onSequence.le_limit
  have hmost : Scale.limit = 7 * 2 ^ 59 := rfl
  rw [Overruns]
  omega

theorem runOn_ensureFree_of_overruns {n : Nat} (hover : g.Overruns n) :
    (Growable.ensureFree n).runOn g = (.error .capacityOverflow, g) :=
  runOn_ensureFree_of_limit_lt hover.1 hover.2

theorem runOn_reserve_of_overruns {n : Nat} (hover : g.Overruns n) :
    (Growable.reserve n).runOn g = (.error .capacityOverflow, g) := by
  rw [Growable.reserve, runOn_bind_error (runOn_ensureFree_of_overruns hover)]

/-- If nothing overruns the container, room is made and nothing is lost. -/
theorem Held.ensureFree_of_not_overruns (h : U.Held g m) {n : Nat} (hroom : ¬ g.Overruns n) :
    ∃ t replaced, (Growable.ensureFree n).runOn g = (.ok replaced, t) ∧ (Growable.reserve n).runOn g = (.ok (), t) ∧
      U.Held t m ∧ n ≤ t.freeCapacity := by
  have hlimit := Nat.not_lt.mp fun hlt => hroom ((h.overruns_iff n).mpr hlt)
  rw [h.size] at hlimit
  obtain ⟨-, t, replaced, hrun, -, hheld, hmakes⟩ | ⟨hover, -⟩ := h.ensureFree n
  · have hle := hmakes.le
    refine ⟨t, replaced, hrun, ?_, hheld, ?_⟩
    · rw [Growable.reserve, runOn_bind_ok hrun]
      rfl
    · rw [hheld.freeCapacity]
      omega
  · omega

/-- The words come to what is done. -/
theorem Held.roomInWords_eq (h : U.Held g m)
    (hshaped : ∀ {c s m}, U.Keeps c s m → (Backing.table s).Shaped) (n : Nat) :
    roomInWords g.capacity g.size n = .exact (chosen ((Growable.ensureFree n).runOn g)) := by
  have hfree : Checked.sub g.capacity g.size = .exact (.ok g.freeCapacity) :=
    Checked.sub_of_le (by rw [h.size]; exact h.length_le)
  rw [roomInWords, hfree, Checked.exact_ok_bind]
  by_cases hroom : n ≤ g.freeCapacity
  · rw [if_pos hroom, runOn_ensureFree_of_room hroom]
    rfl
  rw [if_neg hroom]
  by_cases hover : g.Overruns n
  · -- either the sum is no word, or there is no scale for it
    rw [runOn_ensureFree_of_overruns hover, Scale.total]
    split
    · rw [Checked.exact_ok_bind, Scale.climb_zero, Scale.ofCapacity_of_limit_lt hover.2]
      rfl
    · rfl
  · have hlimit := Nat.not_lt.mp fun hlt => hover ((h.overruns_iff n).mpr hlt)
    obtain ⟨t, hrun, hheld, hmoves⟩ := h.ensureFree_moves (Nat.not_le.mp hroom) (h.size ▸ hlimit)
    obtain ⟨s, hs⟩ := Scale.exists_ofCapacity hlimit
    have hcapacity : Scale.capacity s = t.capacity :=
      (Scale.fits_of_ofCapacity hs).eq_of_fits (h.size ▸ hmoves.fits)
    have hbuckets : Table.bucketsFor t.capacity = .ok t.table.bucketCount := (hshaped hheld.keeps).buckets
    rw [Scale.total_of_le hlimit, Checked.exact_ok_bind, Scale.climb_zero, hs, Checked.exact_ok_bind,
      Scale.capacityInWords_eq (Scale.ofCapacity_eq_ok_iff.mp hs).1, Checked.exact_ok_bind, hcapacity,
      Table.bucketsInWords_eq, hbuckets, Checked.exact_ok_bind, hrun]
    split
    · next hlarge =>
      have hpos := (Table.lt_of_bucketsFor hlarge hbuckets).2
      rw [Checked.sub_of_le (Nat.le_of_lt hpos)]
      rfl
    · rfl

theorem Held.provisions (h : U.Held g m) (hshaped : ∀ {c s m}, U.Keeps c s m → (Backing.table s).Shaped) (n : Nat) :
    g.Provisions n := by
  have hbuckets : ∀ {t}, U.Held t m → t.table.bucketCount ≤ 2 ^ 62 := fun ht =>
    Scale.buckets_le (hshaped ht.keeps).buckets
  by_cases hover : g.Overruns n
  · refine ⟨h.overruns_iff n, ?_, absurd hover, h.roomInWords_eq hshaped n, ?_⟩
    · rw [runOn_reserve_of_overruns hover]
      exact .refused hover
    · rw [runOn_ensureFree_of_overruns hover]
      exact hbuckets h
  · obtain ⟨t, replaced, hensure, hreserve, hheld, hroom⟩ := h.ensureFree_of_not_overruns hover
    refine ⟨h.overruns_iff n, ?_, fun _ => ?_, h.roomInWords_eq hshaped n, ?_⟩
    · rw [hreserve]
      exact .done hover () t
    · exact ⟨t, hreserve, hroom, hheld.size.trans h.size.symm, h.sameElements hheld⟩
    · rw [hensure]
      exact hbuckets hheld

/-- An element that may be kept together with the others is refused if it overruns the container. -/
theorem Held.insertAbsent_overflows (h : U.Held g m) {x : α} (hapart : ∀ y ∈ m, U.Apart x y) :
    Overflows .capacityOverflow (g.Overruns 1) neverGivesUp g
      ((Growable.insertAbsent x (g.placementHash x)).runOn g) := by
  have hiff := h.overruns_iff 1
  rw [h.size] at hiff
  obtain ⟨hroom, t, bucket, hrun, -⟩ | ⟨hfull, hrun⟩ := h.insertAbsent hapart
  · rw [hrun]
    exact .done (fun hover => Nat.not_lt.mpr hroom (hiff.mp hover)) bucket t
  · rw [hrun]
    exact .refused (hiff.mpr (Nat.lt_succ_of_le hfull))

end Upkeep

/-! ### Drawing from a source -/

section Source

variable {ι σ β S : Type} {m : Type → Type}

/-- Takes items from a source, which is asked for one at a time and at most `limit` times. -/
def drawEach [Monad m] (next : m (Option ι)) (action : ι → Action σ β) : Nat → ActionT σ m Unit
  | 0 => return ()
  | limit + 1 => do
    match ← (next : m _) with
    | none => return ()
    | some i =>
      let _ ← Action.lift (action i)
      drawEach next action limit

/-- A source in the state `s` gives the items, one each time it is asked, and then none. -/
inductive Gives (next : StateM S (Option ι)) : S → List ι → Prop
  | finished {s s' : S} (h : next.run s = (none, s')) : Gives next s []
  | more {s s' : S} {i : ι} {rest : List ι} (h : next.run s = (some i, s')) (hrest : Gives next s' rest) :
      Gives next s (i :: rest)

theorem run_lift_bind {α : Type} (action : Action σ α) (next : α → ActionT σ (StateM S) β) (t : σ) (s : S) :
    ((Action.lift action >>= next).runOn t).run s =
      match action.runOn t with
      | (.ok x, u) => ((next x).runOn u).run s
      | (.error fault, u) => ((.error fault, u), s) := by
  apply (congrArg (StateT.run · s) (runOn_lift_bind action next t)).trans
  obtain ⟨outcome, u⟩ := action.runOn t
  cases outcome <;> rfl

/-- Drawing from a source is going through the items that it gives. -/
theorem run_drawEach {next : StateM S (Option ι)} {action : ι → Action σ β} {s : S} {items : List ι}
    (h : Gives next s items) : ∀ {limit : Nat}, items.length < limit → ∀ t : σ,
      (((drawEach next action limit).runOn t).run s).1 =
        ActionT.runOn (items.forM fun i => do let _ ← action i) t := by
  induction h with
  | @finished s s' hnext =>
    intro limit hlimit t
    obtain ⟨limit, rfl⟩ : ∃ k, limit = k + 1 := ⟨limit - 1, by omega⟩
    rw [drawEach, runOn_call_bind, StateT.run_bind, hnext]
    rfl
  | @more s s' i rest hnext _ ih =>
    intro limit hlimit t
    rw [List.length_cons] at hlimit
    obtain ⟨limit, rfl⟩ : ∃ k, limit = k + 1 := ⟨limit - 1, by omega⟩
    have hstep : ((drawEach next action (limit + 1)).runOn t).run s =
        ((Action.lift (action i) >>= fun _ => drawEach next action limit).runOn t).run s' := by
      rw [drawEach, runOn_call_bind, StateT.run_bind, hnext]
      rfl
    rw [hstep, run_lift_bind, forM_cons, runOn_bind]
    obtain ⟨outcome, u⟩ := (action i).runOn t
    cases outcome with
    | ok x => exact ih (by omega) u
    | error fault => rfl

namespace Growable

variable {C α : Type} [Backing C α] [Monad m]

/-- Makes room for as many elements as are announced, and goes through the items of a source. -/
def drawFrom (next : m (Option ι)) (action : ι → Action (Growable C) β) (limit hint : Nat) :
    ActionT (Growable C) m Unit := do
  Action.lift (reserve hint)
  drawEach next action limit

variable [LawfulMonad m] {g t : Growable C} {action : ι → Action (Growable C) β} {hint : Nat}

/-- What overruns the container keeps the source from being asked. -/
theorem runOn_drawFrom_of_overruns (hover : g.Overruns hint) (next : m (Option ι)) (limit : Nat) :
    (drawFrom next action limit hint).runOn g = pure (.error .capacityOverflow, g) := by
  rw [drawFrom, runOn_lift_bind, Upkeep.runOn_reserve_of_overruns hover]

omit [LawfulMonad m] [Monad m] in
theorem run_drawFrom {next : StateM S (Option ι)} {s : S} {items : List ι} (h : Gives next s items) {limit : Nat}
    (hlimit : items.length < limit) (g : Growable C) :
    (((drawFrom next action limit hint).runOn g).run s).1 =
      ActionT.runOn (do reserve hint; items.forM fun i => do let _ ← action i) g := by
  rw [drawFrom, run_lift_bind, runOn_bind]
  obtain ⟨outcome, t⟩ := (reserve hint).runOn g
  cases outcome with
  | ok x => exact run_drawEach h hlimit t
  | error fault => rfl

end Growable

end Source

end RobinHood
