import RobinHood.Proofs.Growable.Upkeep
import RobinHood.Proofs.Mirror

/-!
# Growing in lockstep

The growth policy looks at tables and counts, never at what is stored. So if all that it asks of storage is mirrored
by storage of another kind, growing containers with these storages draw the same seeds, move to the same capacities
in the same order, and record the same events.
-/

namespace RobinHood

open RobinHood.Action

variable {C C' α α' β β' : Type}

def Growable.map (f : C → C') (g : Growable C) : Growable C' where
  storage := f g.storage
  seeds := g.seeds
  journal := g.journal

variable [Backing C α] [Backing C' α']

/-- What the growth policy asks of storage is mirrored by storage of another kind. No elements exclude each other. -/
structure Upkeep.Reflects (U : Upkeep C α) (f : C → C') (look : α → α') : Prop where
  table : ∀ s, Backing.table (f s) = Backing.table s
  hashOf : ∀ s x, Backing.hashOf (f s) (look x) = Backing.hashOf s x
  renew : ∀ s capacity seed, Backing.renew (f s) capacity seed = f <$> Backing.renew s capacity seed
  elements : ∀ {c s m}, U.Stores c s m → Backing.elements (f s) = List.map look <$> Backing.elements s
  insertNew : ∀ {c s m}, U.Keeps c s m → m.length < c → ∀ x hash,
    Mirrors f id (Backing.insertNew (look x) hash) (Backing.insertNew x hash) s
  apart : ∀ x y, U.Apart x y

namespace Growable

omit [Backing C α] [Backing C' α'] in
theorem mirrors_onStorage {f : C → C'} {φ : β → β'} {image : Action C' β'} {action : Action C β} {g : Growable C}
    (h : Mirrors f φ image action g.storage) : Mirrors (map f) φ (onStorage image) (onStorage action) g := by
  have hrun : image.runOn (g.map f).storage = _ := h
  rw [Mirrors, onStorage, onStorage, runOn_within, runOn_within, hrun]
  rfl

omit [Backing C α] [Backing C' α'] in
theorem mirrors_drawSeed (f : C → C') (capacity : Nat) (g : Growable C) :
    Mirrors (map f) id (drawSeed capacity) (drawSeed capacity) g := by
  unfold drawSeed
  split <;> rfl

omit [Backing C α] [Backing C' α'] in
theorem mirrors_record (f : C → C') (event : Event) (g : Growable C) :
    Mirrors (map f) id (record event) (record event) g := rfl

end Growable

namespace Upkeep.Reflects

open Growable

variable {U : Upkeep C α} {f : C → C'} {look : α → α'} {c : Nat} {g : Growable C} {m : List α} (hf : U.Reflects f look)

include hf

theorem capacity_map (g : Growable C) : (g.map f).capacity = g.capacity :=
  congrArg Table.capacity (hf.table g.storage)

theorem size_map (g : Growable C) : (g.map f).size = g.size :=
  congrArg Table.count (hf.table g.storage)

theorem freeCapacity_map (g : Growable C) : (g.map f).freeCapacity = g.freeCapacity :=
  congrArg Table.freeCapacity (hf.table g.storage)

theorem scale_map (g : Growable C) : (g.map f).scale = g.scale := by
  rw [scale, scale, hf.capacity_map]

theorem placementHash_map (g : Growable C) (x : α) : (g.map f).placementHash (look x) = g.placementHash x := by
  have htable : (g.map f).table = g.table := hf.table g.storage
  rw [placementHash, placementHash, htable]
  congr 1
  exact hf.hashOf g.storage x

/-! ### Moving -/

theorem renewStorage (capacity : Nat) (g : Growable C) :
    Mirrors (Growable.map f) id (renewStorage capacity) (renewStorage capacity) g := by
  unfold Growable.renewStorage
  exact (mirrors_drawSeed f capacity g).bind fun seed t _ => .get_bind (.liftM_bind (hf.renew ..) fun _ _ => rfl)

theorem reset (g : Growable C) : Mirrors (Growable.map f) id reset reset g := by
  unfold Growable.reset
  refine .get_bind ?_
  rw [hf.capacity_map]
  exact (mirrors_record f _ g).bind fun _ t _ => hf.renewStorage 0 t

theorem reinsert (h : U.Keeps c g.storage m) (hroom : m.length < c) (x : α) :
    Mirrors (Growable.map f) id (reinsert (look x)) (reinsert x) g := by
  unfold Growable.reinsert
  refine .get_bind ?_
  rw [hf.placementHash_map]
  exact (mirrors_onStorage (hf.insertNew h hroom x _)).bind fun _ _ _ => rfl

/-- The elements are entered one after the other, each into storage that has room for it. -/
theorem forM_reinsert (entries : List α) : ∀ {g : Growable C} {m : List α}, U.Keeps c g.storage m →
    entries.length + m.length ≤ c →
    Mirrors (Growable.map f) id ((entries.map look).forM Growable.reinsert) (entries.forM Growable.reinsert) g := by
  induction entries with
  | nil => exact fun _ _ => rfl
  | cons x entries ih =>
    intro g m h hroom
    rw [List.length_cons] at hroom
    obtain ⟨u, hreinsert, -, hkeeps⟩ := runOn_reinsert h (by omega) fun y _ => hf.apart x y
    refine (hf.reinsert h (by omega) x).bind fun _ t hrun => ?_
    cases hreinsert.symm.trans hrun
    exact ih hkeeps (by rw [List.length_cons]; omega)

theorem resize (h : U.Stores c g.storage m) {required : Nat} (hlength : m.length ≤ required) :
    Mirrors (Growable.map f) id (resize required) (resize required) g := by
  unfold Growable.resize
  refine .same_bind fun c' hfitting => .get_bind ?_
  have hfits := Scale.fits_of_fitting hfitting
  obtain ⟨u, hrenew, -, hnil⟩ := runOn_renewStorage h hfits.onSequence.le_limit
  refine (hf.renewStorage c' g).bind fun _ t hrun => ?_
  cases hrenew.symm.trans hrun
  rw [hf.capacity_map, hf.size_map]
  refine (mirrors_record f _ u).bind fun _ v hrecord => .liftM_bind (hf.elements h) fun listed hlisted => ?_
  cases hrecord
  obtain ⟨_, hlisted', hperm⟩ := U.elements h
  cases hlisted'.symm.trans hlisted
  have hle := hfits.le
  exact hf.forM_reinsert listed hnil (by rw [List.length_nil, hperm.length_eq]; omega)

/-! ### Making room -/

theorem ensureFree (h : U.Held g m) (n : Nat) : Mirrors (Growable.map f) id (ensureFree n) (ensureFree n) g := by
  unfold Growable.ensureFree
  refine .get_bind ?_
  rw [hf.freeCapacity_map, hf.size_map]
  split
  · rfl
  · refine .same_bind fun required htotal => ?_
    refine (hf.resize (U.stores h.keeps) ?_).bind fun _ _ _ => rfl
    rw [Scale.eq_of_total htotal, h.size]
    exact Nat.le_add_right ..

theorem reserve (h : U.Held g m) (n : Nat) : Mirrors (Growable.map f) id (reserve n) (reserve n) g := by
  unfold Growable.reserve
  exact (hf.ensureFree h n).bind fun _ _ _ => rfl

theorem insertAbsent (h : U.Held g m) (x : α) (hash : UInt64) :
    Mirrors (Growable.map f) id (insertAbsent (look x) hash) (insertAbsent x hash) g := by
  unfold Growable.insertAbsent
  refine (hf.ensureFree h 1).bind fun replaced t hrun => .get_bind ?_
  obtain ⟨-, u, _, hmade, -, hheld, hroom⟩ | ⟨-, hfull⟩ := h.ensureFree 1
  · cases hmade.symm.trans hrun
    rw [hf.placementHash_map]
    exact mirrors_onStorage (hf.insertNew hheld.keeps hroom.le x _)
  · cases hfull.symm.trans hrun

/-! ### Shrinking -/

theorem shrinkToFit (h : U.Held g m) : Mirrors (Growable.map f) id shrinkToFit shrinkToFit g := by
  unfold Growable.shrinkToFit
  refine .get_bind ?_
  rw [hf.size_map, hf.scale_map]
  refine .same_bind fun fit _ => .same_bind fun scale _ => ?_
  split
  · exact hf.resize (U.stores h.keeps) h.size.ge
  · rfl

/-- Both remove, or both abandon and move what is left. -/
theorem takeOut {φ : β → β'} {remove abandon : Action C β} {remove' abandon' : Action C' β'}
    (hremove : Mirrors f φ remove' remove g.storage) (habandon : Mirrors f φ abandon' abandon g.storage)
    (hafter : ∃ x t m', abandon.runOn g.storage = (.ok x, t) ∧ U.Stores c t m') :
    Mirrors (Growable.map f) φ (takeOut remove' abandon') (takeOut remove abandon) g := by
  unfold Growable.takeOut
  refine .get_bind ?_
  rw [hf.size_map, hf.scale_map]
  refine .same_bind fun scale _ => ?_
  split
  · exact mirrors_onStorage hremove
  · refine (mirrors_onStorage habandon).bind fun x t hrun => .get_bind ?_
    obtain ⟨y, storage, m', habandoned, hstores⟩ := hafter
    rw [runOn_onStorage habandoned] at hrun
    cases hrun
    rw [hf.size_map]
    exact (hf.resize hstores (U.count hstores).ge).bind fun _ _ _ => rfl

/-! ### Taking over a storage -/

theorem adopt {storage : C} (h : U.Keeps c storage m) (seeds : Seeds) :
    Growable.adopt (f storage) seeds = Growable.map f <$> Growable.adopt storage seeds := by
  have hcap : (⟨storage, seeds, []⟩ : Growable C).capacity = c := U.capacity (U.stores h)
  have hcap' : (⟨f storage, seeds, []⟩ : Growable C').capacity = c := (hf.capacity_map ⟨storage, seeds, []⟩).trans hcap
  have hscale : (⟨f storage, seeds, []⟩ : Growable C').scale = (⟨storage, seeds, []⟩ : Growable C).scale :=
    hf.scale_map ⟨storage, seeds, []⟩
  have hmoves : (Growable.resize c).runOn (⟨f storage, seeds, []⟩ : Growable C') = _ :=
    hf.resize (g := ⟨storage, seeds, []⟩) (U.stores h) (U.length_le (U.stores h))
  rw [Growable.adopt, Growable.adopt, hscale, hcap, hcap']
  cases (⟨storage, seeds, []⟩ : Growable C).scale with
  | error fault => rfl
  | ok scale =>
    by_cases hseq : Scale.capacity scale = c
    · simp only [bind, Except.bind, hseq, if_true]
      rfl
    · simp only [bind, Except.bind, hseq, if_false, hmoves]
      obtain ⟨outcome, t⟩ := (Growable.resize c).runOn (⟨storage, seeds, []⟩ : Growable C)
      cases outcome <;> rfl

end Upkeep.Reflects

end RobinHood
