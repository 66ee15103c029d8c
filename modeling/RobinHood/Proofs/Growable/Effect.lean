import RobinHood.Proofs.Calls.Basic
import RobinHood.Proofs.Growable.Upkeep

/-!
# What calls do to the capacity

A call about one element keeps the number of elements, adds one or takes one out, by whether there was an
element before and whether the call leaves one; and that decides what happens to the storage. Other calls ask
for room, or put one such call after the other.
-/

namespace RobinHood

open RobinHood.Action RobinHood.Ledger

namespace Growable

variable {C α : Type} [Backing C α] {g t u : Growable C}

/-! ### Effects -/

/-- The call took out one element, and moved the others exactly if there were few elements for the scale. -/
structure Sheds (g t : Growable C) : Prop where
  size : t.size + 1 = g.size
  policy : ∃ s, g.scale = .ok s ∧
    (Scale.lowWater s < g.size ∧ Stays g t ∨
      g.size ≤ Scale.lowWater s ∧ t.capacity < g.capacity ∧ Moves t.size t.size g t)
  /-- Afterwards there are not too few elements for the scale. -/
  filled : ∃ s, t.scale = .ok s ∧ Scale.lowWater s ≤ t.size

/-- The effect of a call about a single element, by whether it was there before and whether the call leaves it. -/
inductive Effect (g t : Growable C) : (before after : Bool) → Prop
  | kept {present : Bool} (hsize : t.size = g.size) (hstays : Stays g t) : Effect g t present present
  | added (hsize : t.size = g.size + 1) (hroom : MakesRoom (g.size + 1) g.size g t) : Effect g t false true
  | refused (hover : Scale.limit < g.size + 1) (hsize : t.size = g.size) (hstays : Stays g t) : Effect g t false true
  | shed (hsheds : Sheds g t) : Effect g t true false

/-- Room was made, unless there would be too many elements. -/
inductive Provides (required : Nat) (g t : Growable C) : Prop
  | made (hroom : MakesRoom required g.size g t)
  | refused (hover : Scale.limit < required) (hstays : Stays g t)

inductive Climbs (g : Growable C) : Growable C → Prop
  | refl : Climbs g g
  | step {u t : Growable C} {before : Bool} (hclimbs : Climbs g u) (heffect : Effect u t before true) : Climbs g t

/-- Room was asked for, and then elements were added one after the other. -/
def Extends (hint : Nat) (g t : Growable C) : Prop :=
  ∃ u, u.size = g.size ∧ Provides (g.size + hint) g u ∧ Climbs u t

/-- The capacity became the least one that is large enough. -/
structure Tightens (g t : Growable C) : Prop where
  size : t.size = g.size
  fits : Scale.Fits g.size t.capacity
  policy : Stays g t ∨ t.capacity < g.capacity ∧ Moves g.size g.size g t
  /-- Doing it again changes nothing. -/
  again : (shrinkToFit : Action (Growable C) Unit).runOn t = (.ok (), t)

/-- A storage was taken over, as it was if its capacity is one of the growth sequence. -/
inductive Adopts (storage : C) (seeds : Seeds) (t : Growable C) : Prop
  | same (hseq : Scale.OnSequence (Backing.table storage).capacity) (heq : t = ⟨storage, seeds, []⟩)
  | moved (hoff : ¬ Scale.OnSequence (Backing.table storage).capacity)
      (hmoves : Moves (Backing.table storage).capacity (Backing.table storage).count ⟨storage, seeds, []⟩ t)

structure Resets (g t : Growable C) : Prop where
  size : t.size = 0
  capacity : t.capacity = 0
  journal : t.journal = g.journal ++ [.reset g.capacity]

theorem Effect.refl (g : Growable C) (present : Bool) : Effect g g present present :=
  .kept rfl (.refl g)

theorem Effect.size_le {before after : Bool} (h : Effect g t before after) : t.size ≤ g.size + 1 := by
  cases h with
  | kept hsize | refused _ hsize => exact hsize.le.trans (Nat.le_succ _)
  | added hsize => exact hsize.le
  | shed hsheds =>
    have hsize := hsheds.size
    omega

theorem Provides.trans_stays {required : Nat} (h : Provides required g u) (hstays : Stays u t) :
    Provides required g t := by
  cases h with
  | made hroom => exact .made (hroom.trans_stays hstays)
  | refused hover hsame => exact .refused hover (hsame.trans hstays)

theorem MakesRoom.le_limit {required count : Nat} (h : MakesRoom required count g t) (hseq : Scale.OnSequence g.capacity) :
    required ≤ Scale.limit := by
  cases h with
  | stays hroom _ => exact hroom.trans hseq.le_limit
  | moves _ hmoves => exact hmoves.fits.le.trans hmoves.fits.onSequence.le_limit

theorem Tightens.capacity_le (h : Tightens g t) : t.capacity ≤ g.capacity := by
  obtain hstays | ⟨hless, -⟩ := h.policy
  · exact hstays.capacity.le
  · exact hless.le

/-- The capacity after a call about one element depends on the capacity and the number of elements before, and on
whether the element came or went. Nothing else of the containers matters. -/
theorem Effect.capacity_eq {C' α' : Type} [Backing C' α'] {g' t' : Growable C'} {before after : Bool}
    (h : Effect g t before after) (h' : Effect g' t' before after) (hseq : Scale.OnSequence g.capacity)
    (hsize : g.size = g'.size) (hcapacity : g.capacity = g'.capacity) : t.capacity = t'.capacity := by
  cases h with
  | kept _ hstays =>
    cases h' with
    | kept _ hstays' => rw [hstays.capacity, hstays'.capacity, hcapacity]
  | added _ hroom =>
    cases h' with
    | added _ hroom' => exact hroom.capacity_eq (hsize ▸ hroom') hcapacity
    | refused hover' => exact absurd (hroom.le_limit hseq) (Nat.not_le.mpr (hsize ▸ hover'))
  | refused hover _ hstays =>
    cases h' with
    | added _ hroom' => exact absurd (hroom'.le_limit (hcapacity ▸ hseq)) (Nat.not_le.mpr (hsize ▸ hover))
    | refused _ _ hstays' => rw [hstays.capacity, hstays'.capacity, hcapacity]
  | shed hsheds =>
    cases h' with
    | shed hsheds' =>
      obtain ⟨s, hscale, hpolicy⟩ := hsheds.policy
      obtain ⟨s', hscale', hpolicy'⟩ := hsheds'.policy
      have hleft := hsheds.size
      have hleft' := hsheds'.size
      obtain rfl : s' = s := by
        rw [scale, ← hcapacity] at hscale'
        exact Except.ok.inj (hscale'.symm.trans hscale)
      obtain ⟨hmany, hstays⟩ | ⟨hfew, -, hmoves⟩ := hpolicy
      · obtain ⟨-, hstays'⟩ | ⟨hfew', -⟩ := hpolicy'
        · rw [hstays.capacity, hstays'.capacity, hcapacity]
        · omega
      · obtain ⟨hmany', -⟩ | ⟨-, -, hmoves'⟩ := hpolicy'
        · omega
        · rw [show t.size = t'.size by omega] at hmoves
          exact hmoves.fits.eq_of_fits hmoves'.fits

/-! ### Records -/

/-- The events lead from one capacity to another. Those that move elements change the capacity. -/
inductive Leads : Nat → List Event → Nat → Prop
  | nil (a : Nat) : Leads a [] a
  | resized {a b c count : Nat} {events : List Event} (hne : a ≠ b) (hrest : Leads b events c) :
      Leads a (.resized a b count :: events) c
  | reset {a c : Nat} {events : List Event} (hrest : Leads 0 events c) : Leads a (.reset a :: events) c

/-- What was recorded leads from the capacity before to the one after. -/
def Recorded (g t : Growable C) : Prop :=
  ∃ events, t.journal = g.journal ++ events ∧ Leads g.capacity events t.capacity

theorem Leads.append {a b c : Nat} {events events' : List Event} (h : Leads a events b) (h' : Leads b events' c) :
    Leads a (events ++ events') c := by
  induction h with
  | nil => exact h'
  | resized hne _ ih => exact .resized hne (ih h')
  | reset _ ih => exact .reset (ih h')

theorem Recorded.trans (h : Recorded g u) (h' : Recorded u t) : Recorded g t := by
  obtain ⟨events, hjournal, hleads⟩ := h
  obtain ⟨events', hjournal', hleads'⟩ := h'
  exact ⟨events ++ events', by rw [hjournal', hjournal, List.append_assoc], hleads.append hleads'⟩

theorem Stays.recorded (h : Stays g t) : Recorded g t :=
  ⟨[], by rw [h.journal, List.append_nil], by rw [h.capacity]; exact .nil _⟩

theorem Moves.recorded {required count : Nat} (h : Moves required count g t) (hne : g.capacity ≠ t.capacity) :
    Recorded g t :=
  ⟨_, h.journal, .resized hne (.nil _)⟩

theorem MakesRoom.recorded {required count : Nat} (h : MakesRoom required count g t) : Recorded g t := by
  have hle := h.le
  cases h with
  | stays _ hstays => exact hstays.recorded
  | moves hfull hmoves => exact hmoves.recorded (by omega)

theorem Provides.recorded {required : Nat} (h : Provides required g t) : Recorded g t := by
  cases h with
  | made hroom => exact hroom.recorded
  | refused _ hstays => exact hstays.recorded

theorem Sheds.recorded (h : Sheds g t) : Recorded g t := by
  obtain ⟨s, -, ⟨-, hstays⟩ | ⟨-, hless, hmoves⟩⟩ := h.policy
  · exact hstays.recorded
  · exact hmoves.recorded hless.ne'

theorem Effect.recorded {before after : Bool} (h : Effect g t before after) : Recorded g t := by
  cases h with
  | kept _ hstays => exact hstays.recorded
  | added _ hroom => exact hroom.recorded
  | refused _ _ hstays => exact hstays.recorded
  | shed hsheds => exact hsheds.recorded

theorem Climbs.recorded (h : Climbs g t) : Recorded g t := by
  induction h with
  | refl => exact (Stays.refl g).recorded
  | step _ heffect ih => exact ih.trans heffect.recorded

theorem Extends.recorded {hint : Nat} (h : Extends hint g t) : Recorded g t := by
  obtain ⟨u, -, hprovides, hclimbs⟩ := h
  exact hprovides.recorded.trans hclimbs.recorded

theorem Tightens.recorded (h : Tightens g t) : Recorded g t := by
  obtain hstays | ⟨hless, hmoves⟩ := h.policy
  · exact hstays.recorded
  · exact hmoves.recorded hless.ne'

theorem Resets.recorded (h : Resets g t) : Recorded g t :=
  ⟨_, h.journal, by rw [h.capacity]; exact .reset (.nil 0)⟩

end Growable

/-! ### Safe steps of the growth policy -/

namespace Upkeep

open Growable

variable {C α β : Type} [Backing C α] {U : Upkeep C α} {c : Nat} {g t : Growable C} {m m' : List α} {x : α}

def Has (U : Upkeep C α) (c : Nat) (s : C) : Prop :=
  ∃ m, U.Keeps c s m

def Kept (U : Upkeep C α) (g : Growable C) : Prop :=
  ∃ m, U.Held g m

theorem Held.ensureFree_safe (h : U.Held g m) (n : Nat) :
    Safe (fun t => U.Held t m ∧ Provides (g.size + n) g t) ((Growable.ensureFree n).runOn g) := by
  obtain ⟨-, t, replaced, hrun, -, hheld, hroom⟩ | ⟨hover, hrun⟩ := h.ensureFree n
  · rw [hrun]
    rw [← h.size] at hroom
    exact .ok replaced ⟨hheld, .made hroom⟩
  · rw [hrun]
    exact .stop ⟨h, .refused (by rwa [h.size]) (.refl g)⟩ rfl

theorem Held.reserve_safe (h : U.Held g m) (n : Nat) :
    Safe (fun t => U.Kept t ∧ t.size = g.size ∧ Provides (g.size + n) g t) ((Growable.reserve n).runOn g) := by
  refine ((h.ensureFree_safe n).map _).mono ?_
  exact fun t ⟨hheld, hprovides⟩ => ⟨⟨m, hheld⟩, hheld.size.trans h.size.symm, hprovides⟩

theorem Held.insertAbsent_safe (h : U.Held g m) (hapart : ∀ y ∈ m, U.Apart x y) :
    Safe (fun t => U.Kept t ∧ Effect g t false true)
      ((Growable.insertAbsent x (g.placementHash x)).runOn g) := by
  obtain ⟨-, t, bucket, hrun, hheld, -, hroom⟩ | ⟨hfull, hrun⟩ := h.insertAbsent hapart
  · rw [hrun]
    rw [← h.size] at hroom
    exact .ok bucket ⟨⟨_, hheld⟩, .added (by rw [hheld.size, h.size, List.length_cons]) hroom⟩
  · rw [hrun]
    exact .stop ⟨⟨m, h⟩, .refused (by rw [h.size]; exact Nat.lt_succ_of_le hfull) rfl (.refl g)⟩ rfl

theorem Held.holds_of_insertAbsent {bucket : Nat} (h : U.Held g m) (hapart : ∀ y ∈ m, U.Apart x y)
    (hrun : (Growable.insertAbsent x (g.placementHash x)).runOn g = (.ok bucket, t)) : U.Holds t.storage bucket x := by
  obtain ⟨-, t', bucket', hrun', -, hholds, -⟩ | ⟨-, hrun'⟩ := h.insertAbsent hapart
  · cases hrun.symm.trans hrun'
    exact hholds
  · cases hrun.symm.trans hrun'

/-- What the storage does within its capacity leaves the growth policy out. -/
theorem Held.storage_safe {step : Except Fault β × C} {P : Nat → Prop} (h : U.Held g m)
    (hsafe : Safe (fun s => ∃ m', U.Keeps g.capacity s m' ∧ P m'.length) step) :
    Safe (fun t => U.Kept t ∧ P t.size ∧ Stays g t) (step.1, { g with storage := step.2 }) := by
  obtain ⟨⟨m', hkeeps, hlength⟩, hcontract⟩ := hsafe
  have hheld : U.Held { g with storage := step.2 } m' := ⟨_, h.onSequence, hkeeps⟩
  refine ⟨⟨⟨m', hheld⟩, ?_, U.capacity (U.stores hkeeps), rfl, rfl⟩, hcontract⟩
  rw [← hheld.size] at hlength
  exact hlength

theorem Held.onStorage_safe {action : Action C β} {P : Nat → Prop} (h : U.Held g m)
    (hsafe : Safe (fun s => ∃ m', U.Keeps g.capacity s m' ∧ P m'.length) (action.runOn g.storage)) :
    Safe (fun t => U.Kept t ∧ P t.size ∧ Stays g t) ((onStorage action).runOn g) :=
  h.storage_safe hsafe

/-- An element taken out in the one way or the other is shed. -/
theorem Held.takeOut_safe {remove abandon : Action C β} {storage : C} {removed : β}
    (h : U.Held g m) (htable : Backing.table storage = Backing.table g.storage)
    (hremove : ∃ t m', remove.runOn storage = (.ok removed, t) ∧ U.Keeps g.capacity t m' ∧ m'.length + 1 = m.length)
    (habandon : ∃ t m', abandon.runOn storage = (.ok removed, t) ∧ U.Stores g.capacity t m' ∧
      m'.length + 1 = m.length) :
    ∃ t, (Growable.takeOut remove abandon).runOn { g with storage } = (.ok removed, t) ∧ U.Kept t ∧ Sheds g t := by
  obtain ⟨s, hs, hcap⟩ := h.scale
  have hsize := h.size
  obtain ⟨t, m', hrun, hheld, hless, hpolicy⟩ := h.takeOut hs htable hremove habandon
  have hsize' := hheld.size
  refine ⟨t, hrun, ⟨m', hheld⟩, ?_⟩
  obtain ⟨hmany, hstays⟩ | ⟨hfew, hmoves⟩ := hpolicy
  · have hs' : t.scale = .ok s := by rw [Growable.scale, hstays.capacity, ← hs, Growable.scale]
    exact ⟨by omega, ⟨s, hs, .inl ⟨by omega, hstays⟩⟩, s, hs', by omega⟩
  · have hlimit := Nat.le_trans hheld.length_le hheld.onSequence.le_limit
    obtain ⟨s', hof⟩ := Scale.exists_ofCapacity hlimit
    have hcap' : Scale.capacity s' = t.capacity := (Scale.fits_of_ofCapacity hof).eq_of_fits hmoves.fits
    have hs' : t.scale = .ok s' := by
      rw [Growable.scale, ← hcap', Scale.ofCapacity_capacity (Scale.ofCapacity_eq_ok_iff.mp hof).1]
    have hscale : s' < s := Scale.lt_of_lt_lowWater (by omega) hof
    have hsmaller : t.capacity < g.capacity := by
      rw [← hcap', ← hcap]
      exact Scale.capacity_strictMono hscale
    rw [← hsize'] at hmoves
    exact ⟨by omega, ⟨s, hs, .inr ⟨by omega, hsmaller, hmoves⟩⟩, s', hs', by
      rw [hsize']; exact Scale.lowWater_le_of_ofCapacity hof⟩

theorem Held.shrinkToFit_safe (h : U.Held g m) :
    Safe (fun t => U.Kept t ∧ Tightens g t) ((Growable.shrinkToFit : Action (Growable C) Unit).runOn g) := by
  obtain ⟨t, hrun, hheld, hpolicy⟩ := h.shrinkToFit
  have hsize : t.size = g.size := hheld.size.trans h.size.symm
  have hfits : Scale.Fits m.length t.capacity := by
    obtain ⟨hfits, rfl⟩ | ⟨-, hmoves⟩ := hpolicy
    · exact hfits
    · exact hmoves.fits
  have hagain : (Growable.shrinkToFit : Action (Growable C) Unit).runOn t = (.ok (), t) := by
    obtain ⟨t', hrun', -, ⟨-, rfl⟩ | ⟨hless, hmoves⟩⟩ := hheld.shrinkToFit
    · exact hrun'
    · exact absurd (hmoves.fits.eq_of_fits hfits) hless.ne
  rw [hrun]
  rw [← h.size] at hfits hpolicy
  refine .ok () ⟨⟨m, hheld⟩, hsize, hfits, ?_, hagain⟩
  obtain ⟨-, rfl⟩ | hmoves := hpolicy
  · exact .inl (.refl t)
  · exact .inr hmoves

theorem Held.reset_safe (h : U.Held g m) :
    Safe (fun t => U.Kept t ∧ Resets g t) ((Growable.reset : Action (Growable C) Unit).runOn g) := by
  obtain ⟨t, hrun, hheld, hcap, hjournal⟩ := h.reset
  rw [hrun]
  exact .ok () ⟨⟨[], hheld⟩, hheld.size, hcap, hjournal⟩

/-! ### Making containers -/

theorem vacant_made {minimum : Nat} {seeds : Seeds} {make : Nat → UInt64 → Except Fault C}
    (hmake : ∀ c seed, Made (U.Keeps c · []) (make c seed)) :
    Made (fun g => U.Held g [] ∧ g.journal = []) (do
      let capacity ← Scale.fitting minimum
      let (seed, seeds) := if capacity ≤ Table.denseLimit then (0, seeds) else seeds.draw
      return { storage := ← make capacity seed, seeds, journal := [] } : Except Fault (Growable C)) := by
  refine Made.bind (P := Scale.Fits minimum) ⟨fun _ => Scale.fits_of_fitting, fun fault h => ?_⟩ fun c hfits => ?_
  · by_cases hle : minimum ≤ Scale.limit
    · obtain ⟨c, hfitting, -⟩ := Scale.exists_fitting hle
      cases hfitting.symm.trans h
    · cases (Scale.fitting_of_limit_lt (Nat.not_le.mp hle)).symm.trans h
      rfl
  · exact (hmake _ _).bind fun _ hkeeps => .ok ⟨⟨c, hfits.onSequence, hkeeps⟩, rfl⟩

theorem adopt_made {storage : C} (h : U.Keeps c storage m) (seeds : Seeds) :
    Made (fun t => U.Kept t ∧ Adopts storage seeds t) (Growable.adopt storage seeds) := by
  have hcap := U.capacity (U.stores h)
  have hcount := U.count (U.stores h)
  by_cases hlimit : c ≤ Scale.limit
  · obtain ⟨t, hrun, hheld, hadopts⟩ := runOn_adopt h hlimit seeds
    rw [hrun]
    rw [← hcap, ← hcount] at hadopts
    refine .ok ⟨⟨m, hheld⟩, ?_⟩
    obtain ⟨hseq, heq⟩ | ⟨hoff, hmoves⟩ := hadopts
    · exact .same hseq heq
    · exact .moved hoff hmoves
  · have hscale : (⟨storage, seeds, []⟩ : Growable C).scale = .error .capacityOverflow := by
      rw [Growable.scale, Growable.capacity, table, hcap, Scale.ofCapacity_of_limit_lt (Nat.not_le.mp hlimit)]
    rw [Growable.adopt, hscale]
    exact .stop rfl

end Upkeep

theorem Ledger.Enters.safe {σ α : Type} {Related : σ → List α → Prop} {Holds : σ → Nat → α → Prop} {room : Room}
    {action : Action σ Nat} {s : σ} {m : List α} {x : α} (h : Enters Related Holds room action s m x)
    (hrelated : Related s m) (hrefusal : room.refusal.isInternal = false) :
    Safe (fun t => ∃ m', Related t m') (action.runOn s) := by
  rw [Enters] at h
  split at h
  · obtain ⟨t, bucket, hrun, hentered, -⟩ := h
    rw [hrun]
    exact .ok bucket ⟨_, hentered⟩
  · rw [h]
    exact .stop ⟨m, hrelated⟩ hrefusal

end RobinHood
