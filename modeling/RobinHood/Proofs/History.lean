import RobinHood.Proofs.Reachable
import RobinHood.Proofs.Table.Layout

/-!
# Layouts do not tell their history

With hashes and the number of buckets fixed, which buckets of a probed set are occupied, and the home of the
member in each, depends only on the members. The order in which they came, and others that came and went,
leave no trace but in the order of members that share a home.
-/

namespace RobinHood

open Cyclic (home)

variable {α K : Type}

def Slots.homes (slots : Slots α) (homeOf : α → Nat) : Cyclic.Homes :=
  fun b => (slots.occupant b).map homeOf

theorem Slots.homes_of_occupant {slots : Slots α} {b : Nat} {x : α} (hx : slots.occupant b = some x)
    (homeOf : α → Nat) : slots.homes homeOf b = some (homeOf x) := by
  rw [homes, hx]
  rfl

theorem Slots.tally_homes (slots : Slots α) (homeOf : α → Nat) (p : Nat → Bool) :
    (slots.homes homeOf).tally slots.size p = slots.elements.countP fun x => p (homeOf x) := by
  have hfilter : (slots.homes homeOf).tally slots.size p =
      ((List.range slots.size).filter fun b => (slots.homes homeOf b).any p).length := by
    simp only [Cyclic.Homes.tally, Finset.card, Finset.filter_val, Finset.range_val, Multiset.range,
      Multiset.filter_coe, Multiset.coe_card, Bool.decide_eq_true]
  rw [hfilter, elements_eq_filterMap, List.countP_filterMap, List.countP_eq_length_filter]
  congr 2
  funext b
  rw [homes]
  cases slots.occupant b <;> rfl

namespace Seating

variable {hashOf hashOf' : α → UInt64} {s t : Seating α}

def homeOf (s : Seating α) (hashOf : α → UInt64) (x : α) : Nat :=
  home s.table.bucketCount (hashOf x)

theorem Orderly.sound (h : s.Orderly hashOf) (hprobed : s.table.isDense = false) :
    (s.slots.homes (s.homeOf hashOf)).Sound s.table.bucketCount where
  lt b u hu := by
    obtain ⟨x, hx, rfl⟩ := Option.map_eq_some_iff.mp hu
    have hb := Slots.lt_size_of_occupant hx
    rw [h.size_slots] at hb
    exact ⟨hb, Cyclic.home_lt (Nat.zero_lt_of_lt hb) _⟩
  inOrder := by
    have hprofile : (s.slots.homes (s.homeOf hashOf)).profile s.slots.size = s.slots.profile hashOf := by
      funext b
      rw [Cyclic.Homes.profile, Slots.homes, Slots.profile, Option.map_map, h.size_slots]
      rfl
    rw [← h.size_slots, hprofile]
    exact h.inOrder hprobed

theorem InStep.exists_homeless (h : s.InStep) (hprobed : s.table.isDense = false) (homeOf : α → Nat) :
    ∃ b < s.table.bucketCount, s.slots.homes homeOf b = none := by
  obtain ⟨b, hb, hnone⟩ := Slots.exists_vacant (h.length_lt hprobed)
  exact ⟨b, h.size_slots ▸ hb, Option.map_eq_none_iff.mpr hnone⟩

/-- Probed seatings of one size are arranged alike, if each home is that of as many elements in one as in the
other. -/
theorem Orderly.homes_eq (hs : s.Orderly hashOf) (ht : t.Orderly hashOf')
    (hbuckets : t.table.bucketCount = s.table.bucketCount) (hlarge : Table.denseLimit < s.table.bucketCount)
    (hsame : ∀ p : Nat → Bool, s.slots.elements.countP (fun x => p (s.homeOf hashOf x)) =
      t.slots.elements.countP fun x => p (t.homeOf hashOf' x)) :
    s.slots.homes (s.homeOf hashOf) = t.slots.homes (t.homeOf hashOf') := by
  have hprobed := hs.shaped.probed_of_lt hlarge
  have hprobed' := ht.shaped.probed_of_lt (hbuckets ▸ hlarge)
  -- Both arrangements are on a circle of as many buckets as `s` has.
  have hsound := ht.sound hprobed'
  have hroom := ht.exists_homeless hprobed' (t.homeOf hashOf')
  rw [hbuckets] at hsound hroom
  refine (hs.sound hprobed).eq_of_tally hsound (fun p => ?_) (hs.exists_homeless hprobed _) hroom
  have hleft := Slots.tally_homes s.slots (s.homeOf hashOf) p
  have hright := Slots.tally_homes t.slots (t.homeOf hashOf') p
  rw [hs.size_slots] at hleft
  rw [ht.size_slots, hbuckets] at hright
  rw [hleft, hright, hsame]

end Seating

namespace FixedSet

def homeOf (s : FixedSet K) : K → Nat :=
  s.toSeating.homeOf s.hashOf

variable [BEq K] {hasher : Hasher K} {c c' : Nat} {s t : FixedSet K} {m m' : List K}

theorem Keeps.homeOf_congr (hs : Keeps hasher c s m) (hlawful : hasher.Lawful) {x y : K} (hxy : (x == y) = true) :
    s.homeOf x = s.homeOf y := by
  rw [homeOf, Seating.homeOf, Seating.homeOf, FixedSet.hashOf, FixedSet.hashOf, hs.hashes, hlawful _ x y hxy]

theorem Keeps.homeOf_eq (hs : Keeps hasher c s m) (ht : Keeps hasher c' t m') (hseed : t.table.seed = s.table.seed)
    (hbuckets : t.table.bucketCount = s.table.bucketCount) : t.homeOf = s.homeOf := by
  funext key
  rw [homeOf, homeOf, Seating.homeOf, Seating.homeOf, FixedSet.hashOf, FixedSet.hashOf, hs.hashes, ht.hashes, hseed,
    hbuckets]

variable [EquivBEq K]

theorem Keeps.exists_counterpart (hs : Keeps hasher c s m) (ht : Keeps hasher c' t m') (hlawful : hasher.Lawful)
    (hsame : ∀ key, s.contains key = t.contains key) {x : K} (hx : x ∈ m) : ∃ y ∈ m', (y == x) = true := by
  have hin := ht.contains hlawful x
  rw [← hsame, hs.contains hlawful x, Ledger.member_of_mem hx] at hin
  obtain ⟨y, hy⟩ := Option.isSome_iff_exists.mp (Except.ok.inj hin).symm
  exact ⟨y, Ledger.mem_of_lookup hy⟩

theorem Keeps.countP_homeOf_le (hs : Keeps hasher c s m) (ht : Keeps hasher c' t m') (hlawful : hasher.Lawful)
    (hhome : t.homeOf = s.homeOf) (hsame : ∀ key, s.contains key = t.contains key) (p : Nat → Bool) :
    s.slots.elements.countP (fun x => p (s.homeOf x)) ≤ t.slots.elements.countP fun x => p (t.homeOf x) := by
  rw [hhome, hs.seating.elements.countP_eq, ht.seating.elements.countP_eq]
  exact hs.seating.distinct.countP_le (fun _ _ hxy => congrArg p (hs.homeOf_congr hlawful hxy))
    fun x hx => hs.exists_counterpart ht hlawful hsame hx

theorem Keeps.homes_eq (hs : Keeps hasher c s m) (ht : Keeps hasher c' t m') (hlawful : hasher.Lawful)
    (hseed : t.table.seed = s.table.seed) (hbuckets : t.table.bucketCount = s.table.bucketCount)
    (hlarge : Table.denseLimit < s.table.bucketCount) (hsame : ∀ key, s.contains key = t.contains key) :
    s.slots.homes s.homeOf = t.slots.homes t.homeOf := by
  have hhome := hs.homeOf_eq ht hseed hbuckets
  have heq := hs.seating.orderly.homes_eq ht.seating.orderly hbuckets hlarge
  rw [← hs.hashOf, ← ht.hashOf] at heq
  refine heq fun p => Nat.le_antisymm ?_ ?_
  · exact hs.countP_homeOf_le ht hlawful hhome hsame p
  · exact ht.countP_homeOf_le hs hlawful hhome.symm (fun key => (hsame key).symm) p

end FixedSet

variable [BEq K] [EquivBEq K] {hasher : Hasher K} {s t : FixedSet K}

/-- However two sets with the same seed and many buckets came to have the same members, they have them in the
same buckets, but for the order of members that share a home. -/
theorem layout_determined (hlawful : hasher.Lawful) (hs : AnySet.Reachable hasher (.fixed s))
    (ht : AnySet.Reachable hasher (.fixed t)) (hseed : t.table.seed = s.table.seed)
    (hbuckets : t.table.bucketCount = s.table.bucketCount) (hlarge : Table.denseLimit < s.table.bucketCount)
    (hsame : ∀ key, s.contains key = t.contains key) :
    (∀ b, s.table.isOccupied b = t.table.isOccupied b) ∧
    (∀ b x y, s.slots.occupant b = some x → t.slots.occupant b = some y → s.homeOf x = t.homeOf y) ∧
    ((∀ b b' x x', s.slots.occupant b = some x → s.slots.occupant b' = some x' → s.homeOf x = s.homeOf x' → b = b') →
      ∀ b x y, s.slots.occupant b = some x → t.slots.occupant b = some y → (x == y) = true) := by
  obtain ⟨c, m, hs⟩ := hs.lawful hlawful
  obtain ⟨c', m', ht⟩ := ht.lawful hlawful
  have hhomes : ∀ b, (s.slots.occupant b).map s.homeOf = (t.slots.occupant b).map t.homeOf :=
    congrFun (hs.homes_eq ht hlawful hseed hbuckets hlarge hsame)
  have halike : ∀ b x y, s.slots.occupant b = some x → t.slots.occupant b = some y → s.homeOf x = t.homeOf y := by
    intro b x y hx hy
    have hb := hhomes b
    rw [hx, hy] at hb
    exact Option.some.inj hb
  refine ⟨fun b => ?_, halike, fun hinj b x y hx hy => ?_⟩
  · rw [hs.seating.orderly.occupied, ht.seating.orderly.occupied, ← Option.isSome_map (f := s.homeOf), hhomes,
      Option.isSome_map]
  · -- The counterpart of `y` in `s` has the home of `x`, so it is `x`.
    have hy' : y ∈ m' := ht.seating.elements.mem_iff.mp (Slots.mem_elements.mpr ⟨b, hy⟩)
    obtain ⟨z, hz, hzy⟩ := ht.exists_counterpart hs hlawful (fun key => (hsame key).symm) hy'
    obtain ⟨b', hz'⟩ := Slots.mem_elements.mp (hs.seating.elements.mem_iff.mpr hz)
    have hhome : s.homeOf z = s.homeOf x := by
      rw [hs.homeOf_congr hlawful hzy, halike b x y hx hy, hs.homeOf_eq ht hseed hbuckets]
    obtain rfl := hinj b' b z x hz' hx hhome
    cases hz'.symm.trans hx
    exact hzy

/-- A set is given two keys. Another is given a third first, which takes the home of one of them, and is removed
again. -/
theorem layout_determined_after_removal : ∃ s t : FixedSet (Fin 3),
    AnySet.Reachable (fun _ key => if key = 1 then 2 else 1) (.fixed s) ∧
    AnySet.Reachable (fun _ key => if key = 1 then 2 else 1) (.fixed t) ∧
    s.slots.occupant 1 = some 0 ∧ s.slots.occupant 2 = some 1 ∧
    (∀ b, s.table.isOccupied b = t.table.isOccupied b) ∧
    (∀ b x y, s.slots.occupant b = some x → t.slots.occupant b = some y → s.homeOf x = t.homeOf y) ∧
    ∀ b x y, s.slots.occupant b = some x → t.slots.occupant b = some y → (x == y) = true := by
  have hnew : AnySet.Reachable (fun _ (key : Fin 3) => if key = 1 then 2 else 1)
      (.fixed ⟨⟨⟨.probed (.zeros 32), 16, 0, 0⟩, .vacant 32⟩, _⟩) :=
    .fixed (rfl : FixedSet.vacant 16 _ 0 = .ok _)
  have hzero := hnew.callFixed (.member (.insert 0) : FixedSet.Call (Fin 3) Empty)
  have hs := hzero.callFixed (.member (.insert 1) : FixedSet.Call (Fin 3) Empty)
  have htwo := hnew.callFixed (.member (.insert 2) : FixedSet.Call (Fin 3) Empty)
  have hone := htwo.callFixed (.member (.insert 1) : FixedSet.Call (Fin 3) Empty)
  have hall := hone.callFixed (.member (.insert 0) : FixedSet.Call (Fin 3) Empty)
  have ht := hall.callFixed (.member (.remove 2) : FixedSet.Call (Fin 3) Empty)
  have hplaced : ∀ b < 32, ∀ x : Fin 3,
      (((Slots.vacant 32).assign 1 (some 0)).assign 2 (some 1)).occupant b = some x →
        home 32 (if x = 1 then 2 else 1) = b := by decide
  obtain ⟨hoccupied, halike, hequal⟩ := layout_determined (fun _ a b hab => by rw [eq_of_beq hab]) hs ht rfl rfl
    (by decide) fun | 0 => rfl | 1 => rfl | 2 => rfl
  refine ⟨_, _, hs, ht, rfl, rfl, hoccupied, halike, hequal ?_⟩
  intro b b' x x' hx hx' hhome
  exact (hplaced b (Slots.lt_size_of_occupant hx) x hx).symm.trans
    (hhome.trans (hplaced b' (Slots.lt_size_of_occupant hx') x' hx'))

end RobinHood
