import RobinHood.Growable.Policy
import RobinHood.Proofs.Ledger.Basic
import RobinHood.Proofs.Scale

/-!
# What growing and shrinking do

The growth policy asks little of the storage it replaces: that it keeps elements, enters what it has room
for, and can list what it stores even when searches have been given up. From that alone it follows what
each operation of the policy keeps, to which capacity it moves the elements, and what it records.
-/

namespace RobinHood

open RobinHood.Action RobinHood.Ledger

/-- A way of keeping elements in storage of fixed capacity, from which the growth policy can be followed. -/
structure Upkeep (C α : Type) [Backing C α] where
  /-- Storage of the given capacity keeps the elements. -/
  Keeps : Nat → C → List α → Prop
  /-- Storage of the given capacity has the elements, but searches may miss them. -/
  Stores : Nat → C → List α → Prop
  Holds : C → Nat → α → Prop
  /-- The elements may be kept together. -/
  Apart : α → α → Prop
  /-- What full storage answers. -/
  refusal : Fault
  stores : ∀ {c s m}, Keeps c s m → Stores c s m
  perm : ∀ {c s m m'}, Keeps c s m → m.Perm m' → Keeps c s m'
  apart : ∀ {c s m}, Stores c s m → m.Pairwise Apart
  apart_symm : ∀ {x y}, Apart x y → Apart y x
  count : ∀ {c s m}, Stores c s m → (Backing.table s).count = m.length
  capacity : ∀ {c s m}, Stores c s m → (Backing.table s).capacity = c
  length_le : ∀ {c s m}, Stores c s m → m.length ≤ c
  elements : ∀ {c s m}, Stores c s m → ∃ listed, Backing.elements s = .ok listed ∧ listed.Perm m
  renew : ∀ {c s m c'} (seed : UInt64), Stores c s m → c' ≤ Scale.limit →
    ∃ t, Backing.renew s c' seed = .ok t ∧ Keeps c' t []
  insertNew : ∀ {c s m x}, Keeps c s m → (∀ y ∈ m, Apart x y) →
    Enters (Keeps c) Holds ⟨c, refusal⟩
      (Backing.insertNew x (if (Backing.table s).isDense then 0 else Backing.hashOf s x)) s m x

namespace Growable

variable {C α β : Type} [Backing C α]

/-- The storage was not replaced, and nothing was recorded. -/
structure Stays (g t : Growable C) : Prop where
  capacity : t.capacity = g.capacity
  seeds : t.seeds = g.seeds
  journal : t.journal = g.journal

/-- All elements, `count` of them, moved into storage of the least capacity that is at least `required`. -/
structure Moves (required count : Nat) (g t : Growable C) : Prop where
  fits : Scale.Fits required t.capacity
  journal : t.journal = g.journal ++ [.resized g.capacity t.capacity count]

/-- Storage that was too small for `required` elements was replaced when there were `count`. -/
inductive MakesRoom (required count : Nat) (g t : Growable C) : Prop
  | stays (hroom : required ≤ g.capacity) (hstays : Stays g t)
  | moves (hfull : g.capacity < required) (hmoves : Moves required count g t)

theorem Stays.refl (g : Growable C) : Stays g g :=
  ⟨rfl, rfl, rfl⟩

theorem Stays.trans {g u t : Growable C} (h : Stays g u) (h' : Stays u t) : Stays g t :=
  ⟨h'.capacity.trans h.capacity, h'.seeds.trans h.seeds, h'.journal.trans h.journal⟩

theorem Moves.trans_stays {required count : Nat} {g u t : Growable C} (h : Moves required count g u)
    (hstays : Stays u t) : Moves required count g t :=
  ⟨by rw [hstays.capacity]; exact h.fits, by rw [hstays.journal, hstays.capacity]; exact h.journal⟩

theorem MakesRoom.trans_stays {required count : Nat} {g u t : Growable C} (h : MakesRoom required count g u)
    (hstays : Stays u t) : MakesRoom required count g t := by
  cases h with
  | stays hroom hsame => exact .stays hroom (hsame.trans hstays)
  | moves hfull hmoves => exact .moves hfull (hmoves.trans_stays hstays)

theorem MakesRoom.le {required count : Nat} {g t : Growable C} (h : MakesRoom required count g t) :
    required ≤ t.capacity := by
  cases h with
  | stays hroom hstays => rwa [hstays.capacity]
  | moves _ hmoves => exact hmoves.fits.le

/-- The capacity after room was made depends on nothing but the one before. -/
theorem MakesRoom.capacity_eq {C' α' : Type} [Backing C' α'] {required count count' : Nat} {g t : Growable C}
    {g' t' : Growable C'} (h : MakesRoom required count g t) (h' : MakesRoom required count' g' t')
    (hcapacity : g.capacity = g'.capacity) : t.capacity = t'.capacity := by
  cases h with
  | stays hroom hstays =>
    cases h' with
    | stays _ hstays' => rw [hstays.capacity, hstays'.capacity, hcapacity]
    | moves hfull _ => omega
  | moves hfull hmoves =>
    cases h' with
    | stays hroom _ => omega
    | moves _ hmoves' => exact hmoves.fits.eq_of_fits hmoves'.fits

omit [Backing C α] in
theorem runOn_onStorage {action : Action C β} {g : Growable C} {outcome : Except Fault β} {storage : C}
    (h : action.runOn g.storage = (outcome, storage)) : (onStorage action).runOn g = (outcome, { g with storage }) := by
  rw [onStorage, runOn_within, h]

omit [Backing C α] in
theorem exists_of_onStorage {action : Action C β} {g t : Growable C} {y : β}
    (h : (onStorage action).runOn g = (.ok y, t)) :
    ∃ storage, action.runOn g.storage = (.ok y, storage) ∧ t = { g with storage } := by
  rw [onStorage, runOn_within] at h
  obtain ⟨houtcome, rfl⟩ := Prod.mk.inj h
  exact ⟨_, Prod.ext houtcome rfl, rfl⟩

end Growable

namespace Upkeep

open Growable

variable {C α β : Type} [Backing C α] {U : Upkeep C α} {c n : Nat} {g : Growable C} {m : List α} {x : α}

/-- The storage keeps the elements, and its capacity is one of the growth sequence. -/
def Held (U : Upkeep C α) (g : Growable C) (m : List α) : Prop :=
  ∃ c, Scale.OnSequence c ∧ U.Keeps c g.storage m

theorem Held.size (h : U.Held g m) : g.size = m.length := by
  obtain ⟨c, -, hkeeps⟩ := h
  exact U.count (U.stores hkeeps)

theorem Held.onSequence (h : U.Held g m) : Scale.OnSequence g.capacity := by
  obtain ⟨c, hseq, hkeeps⟩ := h
  rwa [Growable.capacity, table, U.capacity (U.stores hkeeps)]

theorem Held.keeps (h : U.Held g m) : U.Keeps g.capacity g.storage m := by
  obtain ⟨c, -, hkeeps⟩ := h
  rwa [Growable.capacity, table, U.capacity (U.stores hkeeps)]

theorem Held.length_le (h : U.Held g m) : m.length ≤ g.capacity :=
  U.length_le (U.stores h.keeps)

theorem Held.scale (h : U.Held g m) : ∃ s, g.scale = .ok s ∧ Scale.capacity s = g.capacity := by
  obtain ⟨s, hs, hcap⟩ := h.onSequence
  exact ⟨s, by rw [Growable.scale, ← hcap, Scale.ofCapacity_capacity hs], hcap⟩

theorem held_nil {minimum : Nat} {seeds : Seeds} {make : Nat → UInt64 → Except Fault C}
    (hmake : ∀ c seed s, make c seed = .ok s → U.Keeps c s [])
    (hvacant : (do
      let capacity ← Scale.fitting minimum
      let (seed, seeds) := if capacity ≤ Table.denseLimit then (0, seeds) else seeds.draw
      return { storage := ← make capacity seed, seeds, journal := [] }) = Except.ok g) :
    U.Held g [] ∧ g.journal = [] := by
  cases hfitting : Scale.fitting minimum with
  | error fault =>
    rw [hfitting] at hvacant
    cases hvacant
  | ok c =>
    cases hdraw : (if c ≤ Table.denseLimit then (0, seeds) else seeds.draw) with
    | mk seed rest =>
      cases hstorage : make c seed with
      | error fault =>
        simp only [hfitting, hdraw, hstorage, bind, Except.bind] at hvacant
        cases hvacant
      | ok storage =>
        simp only [hfitting, hdraw, hstorage, bind, Except.bind] at hvacant
        obtain rfl := Except.ok.inj hvacant
        exact ⟨⟨c, (Scale.fits_of_fitting hfitting).onSequence, hmake c seed storage hstorage⟩, rfl⟩

/-! ### Moving -/

omit [Backing C α] in
theorem runOn_drawSeed (g : Growable C) (capacity : Nat) :
    ∃ seed seeds, (drawSeed capacity).runOn g = (.ok seed, { g with seeds }) := by
  rw [drawSeed]
  split
  · exact ⟨0, g.seeds, rfl⟩
  · exact ⟨g.seeds.draw.1, g.seeds.draw.2, rfl⟩

theorem runOn_renewStorage (h : U.Stores c g.storage m) (hn : n ≤ Scale.limit) :
    ∃ t, (renewStorage n).runOn g = (.ok ⟨⟩, t) ∧ t.journal = g.journal ∧ U.Keeps n t.storage [] := by
  obtain ⟨seed, seeds, hdraw⟩ := runOn_drawSeed g n
  obtain ⟨storage, hrenew, hkeeps⟩ := U.renew seed h hn
  refine ⟨{ g with seeds, storage }, ?_, rfl, hkeeps⟩
  rw [renewStorage, runOn_bind_ok hdraw, runOn_get_bind]
  simp only [hrenew, runOn_ok_bind, runOn_set]

theorem Held.reset (h : U.Held g m) :
    ∃ t, (reset : Action (Growable C) Unit).runOn g = (.ok (), t) ∧ U.Held t [] ∧ t.capacity = 0 ∧
      t.journal = g.journal ++ [.reset g.capacity] := by
  obtain ⟨t, hrun, hjournal, hnil⟩ := runOn_renewStorage
    (g := { g with journal := g.journal ++ [.reset g.capacity] }) (U.stores h.keeps) (Nat.zero_le _)
  exact ⟨t, by rw [Growable.reset, runOn_get_bind, record, runOn_bind_ok (runOn_modify _ g), hrun],
    ⟨0, Scale.onSequence_zero, hnil⟩, U.capacity (U.stores hnil), hjournal⟩

theorem runOn_reinsert (h : U.Keeps c g.storage m) (hroom : m.length < c) (hapart : ∀ y ∈ m, U.Apart x y) :
    ∃ t, (reinsert x).runOn g = (.ok ⟨⟩, t) ∧ t.journal = g.journal ∧ U.Keeps c t.storage (x :: m) := by
  have henters := U.insertNew h hapart
  rw [Enters, if_pos hroom] at henters
  obtain ⟨storage, bucket, hrun, hkeeps, -⟩ := henters
  have hplaced : (onStorage (Backing.insertNew x (g.placementHash x))).runOn g = _ := runOn_onStorage hrun
  exact ⟨{ g with storage }, by rw [reinsert, runOn_get_bind, runOn_bind_ok hplaced]; rfl, rfl, hkeeps⟩

theorem runOn_forM_reinsert (entries : List α) : ∀ {g : Growable C} {m : List α},
    U.Keeps c g.storage m → entries.length + m.length ≤ c → (entries ++ m).Pairwise U.Apart →
    ∃ t, ActionT.runOn (entries.forM reinsert) g = (.ok ⟨⟩, t) ∧ t.journal = g.journal ∧
      U.Keeps c t.storage (entries.reverse ++ m) := by
  induction entries with
  | nil => exact fun h _ _ => ⟨_, rfl, rfl, h⟩
  | cons x entries ih =>
    intro g m h hroom hapart
    rw [List.length_cons] at hroom
    -- `x` passes from those to come to those that are kept, and stays apart from both.
    have hmiddle : (x :: entries ++ m).Perm (entries ++ x :: m) := List.perm_middle.symm
    have hlater := (hmiddle.pairwise_iff U.apart_symm).mp hapart
    have hhere := List.pairwise_cons.mp (hlater.sublist (List.sublist_append_right ..))
    obtain ⟨t, hrun, hjournal, hkeeps⟩ := runOn_reinsert h (by omega) hhere.1
    obtain ⟨t', hrest, hjournal', hall⟩ := ih hkeeps (by rw [List.length_cons]; omega) hlater
    refine ⟨t', ?_, hjournal'.trans hjournal, ?_⟩
    · rw [List.forM, runOn_bind_ok hrun, hrest]
    · rwa [List.reverse_cons, List.append_assoc]

theorem runOn_resize {required : Nat} (h : U.Stores c g.storage m) (hlength : m.length ≤ required)
    (hlimit : required ≤ Scale.limit) :
    ∃ t, (resize required).runOn g = (.ok ⟨⟩, t) ∧ U.Held t m ∧ Moves required m.length g t := by
  obtain ⟨c', hfitting, hfits⟩ := Scale.exists_fitting hlimit
  obtain ⟨t, hrenew, hkept, hnil⟩ := runOn_renewStorage h hfits.onSequence.le_limit
  obtain ⟨listed, hlisted, hperm⟩ := U.elements h
  have hroom := hfits.le
  obtain ⟨t', hrun, hjournal, hall⟩ := runOn_forM_reinsert
    (g := { t with journal := t.journal ++ [.resized g.capacity c' g.size] }) listed hnil
    (by rw [List.length_nil, hperm.length_eq]; omega)
    (by rw [List.append_nil]; exact (hperm.pairwise_iff U.apart_symm).mpr (U.apart h))
  rw [List.append_nil] at hall
  have hkeeps := U.perm hall ((List.reverse_perm listed).trans hperm)
  have hcap : t'.capacity = c' := U.capacity (U.stores hkeeps)
  have hsize : g.size = m.length := U.count h
  refine ⟨t', ?_, ⟨c', hfits.onSequence, hkeeps⟩, ?_, ?_⟩
  · rw [resize, hfitting, runOn_ok_bind, runOn_get_bind, runOn_bind_ok hrenew, record,
      runOn_bind_ok (runOn_modify _ t), hlisted, runOn_ok_bind]
    exact hrun
  · rwa [hcap]
  · rw [hjournal, hcap, hkept, hsize]

theorem runOn_resize_overflow {required : Nat} (hlimit : Scale.limit < required) :
    (resize required).runOn g = (.error .capacityOverflow, g) := by
  rw [resize, Scale.fitting_of_limit_lt hlimit, runOn_error_bind]

/-! ### Making room -/

theorem runOn_ensureFree_of_room (hroom : n ≤ g.freeCapacity) : (ensureFree n).runOn g = (.ok false, g) := by
  rw [ensureFree, runOn_get_bind, if_pos hroom]
  rfl

theorem Held.freeCapacity (h : U.Held g m) : g.freeCapacity = g.capacity - m.length := by
  rw [Growable.freeCapacity, Table.freeCapacity, ← h.size]
  rfl

theorem Held.ensureFree_moves (h : U.Held g m) (hfull : g.freeCapacity < n) (hlimit : m.length + n ≤ Scale.limit) :
    ∃ t, (Growable.ensureFree n).runOn g = (.ok true, t) ∧ U.Held t m ∧ Moves (m.length + n) m.length g t := by
  obtain ⟨t, hrun, hheld, hmoves⟩ := runOn_resize (U.stores h.keeps) (Nat.le_add_right _ n) hlimit
  refine ⟨t, ?_, hheld, hmoves⟩
  rw [Growable.ensureFree, runOn_get_bind, if_neg (Nat.not_le.mpr hfull), h.size, Scale.total_of_le hlimit,
    runOn_ok_bind, runOn_bind_ok hrun]
  rfl

/-- Nothing is replaced if there would be too many elements for any storage. -/
theorem runOn_ensureFree_of_limit_lt (hfull : g.freeCapacity < n) (hlimit : Scale.limit < g.size + n) :
    (ensureFree n).runOn g = (.error .capacityOverflow, g) := by
  rw [ensureFree, runOn_get_bind, if_neg (Nat.not_le.mpr hfull), Scale.total]
  split
  · rw [runOn_ok_bind, runOn_bind_error (runOn_resize_overflow hlimit)]
  · rw [runOn_error_bind]

/-- Room is made unless there would be too many elements; where there is room already, nothing changes. -/
theorem Held.ensureFree (h : U.Held g m) (n : Nat) :
    (m.length + n ≤ Scale.limit ∧ ∃ t replaced, (ensureFree n).runOn g = (.ok replaced, t) ∧
      (replaced = false → t = g) ∧ U.Held t m ∧ MakesRoom (m.length + n) m.length g t) ∨
    (Scale.limit < m.length + n ∧ (ensureFree n).runOn g = (.error .capacityOverflow, g)) := by
  have hlength := h.length_le
  have hlimit := h.onSequence.le_limit
  have hfree := h.freeCapacity
  by_cases hroom : n ≤ g.freeCapacity
  · left
    exact ⟨by omega, g, false, runOn_ensureFree_of_room hroom, fun _ => rfl, h, .stays (by omega) (.refl g)⟩
  · by_cases htotal : m.length + n ≤ Scale.limit
    · left
      obtain ⟨t, hrun, hheld, hmoves⟩ := h.ensureFree_moves (Nat.not_le.mp hroom) htotal
      exact ⟨htotal, t, true, hrun, nofun, hheld, .moves (by omega) hmoves⟩
    · right
      exact ⟨by omega, runOn_ensureFree_of_limit_lt (Nat.not_le.mp hroom) (by rw [h.size]; omega)⟩

theorem Held.reserve (h : U.Held g m) (n : Nat) :
    (m.length + n ≤ Scale.limit ∧ ∃ t, (reserve n).runOn g = (.ok ⟨⟩, t) ∧ U.Held t m ∧
      MakesRoom (m.length + n) m.length g t) ∨
    (Scale.limit < m.length + n ∧ (reserve n).runOn g = (.error .capacityOverflow, g)) := by
  rw [Growable.reserve]
  obtain ⟨hlimit, t, replaced, hrun, -, hheld, hroom⟩ | ⟨hlimit, hrun⟩ := h.ensureFree n
  · exact .inl ⟨hlimit, t, by rw [runOn_bind_ok hrun]; rfl, hheld, hroom⟩
  · exact .inr ⟨hlimit, runOn_bind_error hrun⟩

/-- An element that may be kept together with the others is entered, in storage that has room for it. -/
theorem Held.insertAbsent (h : U.Held g m) (hapart : ∀ y ∈ m, U.Apart x y) :
    (m.length < Scale.limit ∧ ∃ t bucket, (insertAbsent x (g.placementHash x)).runOn g = (.ok bucket, t) ∧
      U.Held t (x :: m) ∧ U.Holds t.storage bucket x ∧ MakesRoom (m.length + 1) m.length g t) ∨
    (Scale.limit ≤ m.length ∧
      (insertAbsent x (g.placementHash x)).runOn g = (.error .capacityOverflow, g)) := by
  obtain ⟨hlimit, t, replaced, hrun, hsame, hheld, hroom⟩ | ⟨hlimit, hrun⟩ := h.ensureFree 1
  · left
    have henters := U.insertNew hheld.keeps hapart
    rw [Enters, if_pos (show m.length < t.capacity from hroom.le)] at henters
    obtain ⟨storage, bucket, hinsert, hkeeps, hholds⟩ := henters
    -- The hash of the search is good for the storage that was searched, and only for that.
    have hhash : (if replaced = true then t.placementHash x else g.placementHash x) = t.placementHash x := by
      cases replaced with
      | true => rfl
      | false => rw [hsame rfl]; rfl
    refine ⟨hlimit, { t with storage }, bucket, ?_, ⟨_, hheld.onSequence, hkeeps⟩, hholds,
      hroom.trans_stays ⟨U.capacity (U.stores hkeeps), rfl, rfl⟩⟩
    rw [Growable.insertAbsent, runOn_bind_ok hrun, runOn_get_bind, hhash]
    exact runOn_onStorage hinsert
  · right
    refine ⟨Nat.le_of_lt_succ hlimit, ?_⟩
    rw [Growable.insertAbsent, runOn_bind_error hrun]

/-! ### Shrinking -/

/-- Shrinking moves the elements only to a smaller capacity. -/
theorem Held.shrinkToFit (h : U.Held g m) :
    ∃ t, (shrinkToFit : Action (Growable C) Unit).runOn g = (.ok (), t) ∧ U.Held t m ∧
      (Scale.Fits m.length g.capacity ∧ t = g ∨
        t.capacity < g.capacity ∧ Moves m.length m.length g t) := by
  obtain ⟨s, hs, hcap⟩ := h.scale
  have hlimit := Nat.le_trans h.length_le h.onSequence.le_limit
  obtain ⟨fit, hfit⟩ := Scale.exists_ofCapacity hlimit
  have hfits := Scale.fits_of_ofCapacity hfit
  rw [Growable.shrinkToFit, runOn_get_bind, h.size, hfit, runOn_ok_bind, hs, runOn_ok_bind]
  by_cases hless : fit < s
  · obtain ⟨t, hrun, hheld, hmoves⟩ := runOn_resize (U.stores h.keeps) (le_refl _) hlimit
    rw [if_pos hless, hrun]
    refine ⟨t, rfl, hheld, .inr ⟨?_, hmoves⟩⟩
    rw [hmoves.fits.eq_of_fits hfits, ← hcap]
    exact Scale.capacity_strictMono hless
  · rw [if_neg hless]
    refine ⟨g, rfl, h, .inl ⟨?_, rfl⟩⟩
    have hle := hfits.least g.capacity h.onSequence h.length_le
    have hge : Scale.capacity s ≤ Scale.capacity fit := Scale.capacity_strictMono.monotone (Nat.not_lt.mp hless)
    rw [hcap] at hge
    rwa [Nat.le_antisymm hge hle]

/-- Taking an element out keeps the others, whether the storage removes it in order or is replaced. The
storage may have been touched before, as long as its table was not. -/
theorem Held.takeOut {remove abandon : Action C β} {storage : C} {removed : β} {s : Nat} {P : List α → Prop}
    (h : U.Held g m) (hs : g.scale = .ok s) (htable : Backing.table storage = Backing.table g.storage)
    (hremove : ∃ t m', remove.runOn storage = (.ok removed, t) ∧ U.Keeps g.capacity t m' ∧ P m')
    (habandon : ∃ t m', abandon.runOn storage = (.ok removed, t) ∧ U.Stores g.capacity t m' ∧ P m') :
    ∃ t m', (takeOut remove abandon).runOn { g with storage } = (.ok removed, t) ∧ U.Held t m' ∧ P m' ∧
      (Scale.lowWater s < m.length ∧ Stays g t ∨
        m.length ≤ Scale.lowWater s ∧ Moves m'.length m'.length g t) := by
  have hcap : ({ g with storage } : Growable C).capacity = g.capacity := by
    rw [Growable.capacity, Growable.capacity, table, table, htable]
  have hsize : ({ g with storage } : Growable C).size = m.length := by
    rw [← h.size, Growable.size, Growable.size, table, table, htable]
  have hs' : ({ g with storage } : Growable C).scale = .ok s := by
    rw [Growable.scale, hcap, ← hs, Growable.scale]
  rw [Growable.takeOut, runOn_get_bind, hs', runOn_ok_bind, hsize]
  by_cases hkeep : Scale.lowWater s < m.length
  · obtain ⟨t, m', hrun, hkeeps, hafter⟩ := hremove
    refine ⟨{ g with storage := t }, m', ?_, ⟨_, h.onSequence, hkeeps⟩, hafter, .inl ⟨hkeep, ?_, rfl, rfl⟩⟩
    · rw [if_pos hkeep, runOn_onStorage hrun]
    · exact U.capacity (U.stores hkeeps)
  · obtain ⟨t, m', hrun, hstores, hafter⟩ := habandon
    have hlimit := Nat.le_trans (U.length_le hstores) h.onSequence.le_limit
    obtain ⟨t', hresize, hheld, hmoves⟩ := runOn_resize (g := { g with storage := t }) hstores (le_refl _) hlimit
    have hcount : ({ g with storage := t } : Growable C).size = m'.length := U.count hstores
    have habandoned : (onStorage abandon).runOn { g with storage } = _ := runOn_onStorage hrun
    refine ⟨t', m', ?_, hheld, hafter, .inr ⟨Nat.not_lt.mp hkeep, hmoves.fits, ?_⟩⟩
    · rw [if_neg hkeep, runOn_bind_ok habandoned, runOn_get_bind, hcount, runOn_bind_ok hresize]
      rfl
    · have hbefore : ({ g with storage := t } : Growable C).capacity = g.capacity := U.capacity hstores
      rw [hmoves.journal, hbefore]

/-- The storage may have been touched in different ways: if removing undoes the difference, so does taking out. -/
theorem Held.takeOut_uniform {ι : Type} {remove abandon : Action C β} {storage : ι → C} {removed : ι → β} {u v : C}
    {m' : List α} (h : U.Held g m) (htable : ∀ i, Backing.table (storage i) = Backing.table g.storage)
    (hremove : ∀ i, remove.runOn (storage i) = (.ok (removed i), u))
    (habandon : ∀ i, abandon.runOn (storage i) = (.ok (removed i), v)) (hstores : U.Stores g.capacity v m') :
    ∃ t, ∀ i, (Growable.takeOut remove abandon).runOn { g with storage := storage i } = (.ok (removed i), t) := by
  obtain ⟨s, hs, -⟩ := h.scale
  have hscale : ∀ i, ({ g with storage := storage i } : Growable C).scale = .ok s := fun i => by
    rw [← hs, Growable.scale, Growable.scale, Growable.capacity, Growable.capacity, table, table, htable]
  have hsize : ∀ i, ({ g with storage := storage i } : Growable C).size = g.size := fun i => by
    rw [Growable.size, Growable.size, table, table, htable]
  by_cases hkeep : Scale.lowWater s < g.size
  · refine ⟨{ g with storage := u }, fun i => ?_⟩
    rw [Growable.takeOut, runOn_get_bind, hscale, runOn_ok_bind, hsize, if_pos hkeep, runOn_onStorage (hremove i)]
  · have hlimit := Nat.le_trans (U.length_le hstores) h.onSequence.le_limit
    obtain ⟨t, hresize, -⟩ := runOn_resize (g := { g with storage := v }) hstores (le_refl _) hlimit
    have hcount : ({ g with storage := v } : Growable C).size = m'.length := U.count hstores
    refine ⟨t, fun i => ?_⟩
    have habandoned : (onStorage abandon).runOn { g with storage := storage i } = _ := runOn_onStorage (habandon i)
    rw [Growable.takeOut, runOn_get_bind, hscale, runOn_ok_bind, hsize, if_neg hkeep, runOn_bind_ok habandoned, runOn_get_bind,
      hcount, runOn_bind_ok hresize]
    rfl

/-! ### Taking over a storage -/

/-- A storage is taken over as it is if its capacity is one of the growth sequence, and else its elements
move. -/
theorem runOn_adopt {storage : C} (h : U.Keeps c storage m) (hlimit : c ≤ Scale.limit) (seeds : Seeds) :
    ∃ t, Growable.adopt storage seeds = .ok t ∧ U.Held t m ∧
      (Scale.OnSequence c ∧ t = ⟨storage, seeds, []⟩ ∨
        ¬ Scale.OnSequence c ∧ Moves c m.length ⟨storage, seeds, []⟩ t) := by
  have hstores := U.stores h
  have hcap : (⟨storage, seeds, []⟩ : Growable C).capacity = c := U.capacity hstores
  obtain ⟨s, hs⟩ := Scale.exists_ofCapacity hlimit
  have hfits := Scale.fits_of_ofCapacity hs
  rw [Growable.adopt]
  simp only [Growable.scale, hcap, hs, bind, Except.bind]
  by_cases hseq : Scale.OnSequence c
  · have heq : Scale.capacity s = c := hfits.eq_of_fits hseq.fits
    rw [if_pos heq]
    exact ⟨_, rfl, ⟨c, hseq, h⟩, .inl ⟨hseq, rfl⟩⟩
  · have hne : Scale.capacity s ≠ c := fun heq => hseq (heq ▸ hfits.onSequence)
    obtain ⟨t, hrun, hheld, hmoves⟩ :=
      runOn_resize (g := ⟨storage, seeds, []⟩) hstores (U.length_le hstores) hlimit
    rw [if_neg hne, hrun]
    exact ⟨t, rfl, hheld, .inr ⟨hseq, hmoves⟩⟩

end Upkeep

end RobinHood
