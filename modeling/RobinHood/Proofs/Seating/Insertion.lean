import RobinHood.Proofs.Seating.Basic

/-!
# Seating a new element

The element in hand changes as residents are displaced, but it always comes closer to the first free
bucket, which the last one fills: what is seated in the end are the old elements and the new one, whatever
their hashes. In an orderly seating two more facts stay true of whoever is in hand: it has come as far past
its home as is counted, and the bucket it is at would support it there. So the order is kept.
-/

namespace RobinHood

open Cyclic (ahead next displacement)

variable {α : Type} {hashOf : α → UInt64}

/-- The slots differ by a new element `x`, for which the vacant slot `free` was filled. -/
structure Slots.Gains (before after : Slots α) (x : α) (free : Nat) : Prop where
  size : after.size = before.size
  elements : after.elements.Perm (x :: before.elements)
  filled : ∀ i, (after.occupant i).isSome = if i = free then true else (before.occupant i).isSome

theorem Slots.gains_assign {slots : Slots α} {b : Nat} (hb : b < slots.size)
    (hnone : slots.occupant b = none) (x : α) : slots.Gains (slots.assign b (some x)) x b where
  size := size_assign ..
  elements := elements_assign_some hb hnone x
  filled := isSome_assign hb (some x)

/-- Exchanging a resident for the element in hand first, and then gaining the resident, is to gain the
element. -/
theorem Slots.Gains.of_swap {slots after : Slots α} {b free : Nat} {x y : α}
    (hy : slots.occupant b = some y) (h : (slots.assign b (some x)).Gains after y free) :
    slots.Gains after x free where
  size := h.size.trans (size_assign ..)
  elements := h.elements.trans (elements_replace hy x)
  filled i := by
    rw [h.filled, occupant_assign (lt_size_of_occupant hy), Function.update_apply]
    by_cases hib : i = b
    · rw [hib, if_pos rfl, hy]
      rfl
    · rw [if_neg hib]

/-! ### Steps of the walk -/

namespace Bitmap

variable {occupancy : Bitmap} {hashAt : Nat → Except Fault UInt64} {n fuel b distance free : Nat}
  {hash : UInt64} {moves : List Move}

theorem displace_gap (hn : occupancy.size = n) (hb : b < n) (hbit : occupancy.bit b = false) :
    occupancy.displace hashAt (fuel + 1) b distance = .ok ([.settle b], b) := by
  subst hn
  rw [displace, isSet_of_lt hb, hbit]
  rfl

theorem displace_closer (hn : occupancy.size = n) (hb : b < n) (hbit : occupancy.bit b = true)
    (hhash : hashAt b = .ok hash) (hlt : displacement n hash b < distance)
    (hrest : occupancy.displace hashAt fuel (next n b) (displacement n hash b + 1) = .ok (moves, free)) :
    occupancy.displace hashAt (fuel + 1) b distance = .ok (.swap b :: moves, free) := by
  subst hn
  rw [displace, isSet_of_lt hb, hbit, hhash]
  simp [bind, Except.bind, pure, Except.pure, hlt, hrest]

theorem displace_farther (hn : occupancy.size = n) (hb : b < n) (hbit : occupancy.bit b = true)
    (hhash : hashAt b = .ok hash) (hle : distance ≤ displacement n hash b) :
    occupancy.displace hashAt (fuel + 1) b distance =
      occupancy.displace hashAt fuel (next n b) (distance + 1) := by
  subst hn
  rw [displace, isSet_of_lt hb, hbit, hhash]
  simp [bind, Except.bind, Nat.not_lt.mpr hle]

end Bitmap

namespace Seating

variable {s : Seating α} {occupancy : Bitmap} {hashAt : Nat → Except Fault UInt64} {slots : Slots α}
  {hand y : α} {b k distance : Nat}

/-- An insertion is at bucket `b`, `k` buckets before the first free one. The bitmap and the hashes are
those of the table before the insertion, the slots those of this moment. -/
private structure Approach (hashOf : α → UInt64) (occupancy : Bitmap) (hashAt : Nat → Except Fault UInt64)
    (slots : Slots α) (b k : Nat) : Prop where
  lt : b < slots.size
  size : occupancy.size = slots.size
  bit : ∀ j ≤ k, occupancy.bit (ahead slots.size b j) = (slots.occupant (ahead slots.size b j)).isSome
  run : ∀ j < k, ∃ x, slots.occupant (ahead slots.size b j) = some x ∧
    hashAt (ahead slots.size b j) = .ok (hashOf x)
  gap : slots.occupant (ahead slots.size b k) = none
  room : k < slots.size

/-- With `hand` in hand, `distance` buckets past its home, an insertion at `b` keeps the order. -/
private structure Fits (hashOf : α → UInt64) (slots : Slots α) (hand : α) (distance b k : Nat) : Prop where
  inOrder : (slots.profile hashOf).InOrder slots.size
  away : displacement slots.size (hashOf hand) b = distance
  supports : (slots.profile hashOf).Supports slots.size b distance
  room : distance + k < slots.size

private theorem Approach.ahead_ne (h : Approach hashOf occupancy hashAt slots b (k + 1)) {j : Nat}
    (hj : j ≤ k) : ahead slots.size (next slots.size b) j ≠ b := by
  have hroom := h.room
  rw [Cyclic.ahead_next]
  exact Cyclic.ahead_ne_self h.lt (Nat.succ_pos j) (by omega)

private theorem Approach.resident (h : Approach hashOf occupancy hashAt slots b (k + 1)) :
    ∃ y, slots.occupant b = some y ∧ hashAt b = .ok (hashOf y) ∧ occupancy.bit b = true := by
  have hhere := h.run 0 (Nat.succ_pos k)
  have hbit := h.bit 0 (Nat.zero_le _)
  rw [Cyclic.ahead_zero h.lt] at hhere hbit
  obtain ⟨y, hy, hhash⟩ := hhere
  exact ⟨y, hy, hhash, by rw [hbit, hy]; rfl⟩

/-- One bucket on, only the slot left behind may have changed. -/
private theorem Approach.advance {slots' : Slots α} (h : Approach hashOf occupancy hashAt slots b (k + 1))
    (hsize : slots'.size = slots.size) (hkeep : ∀ i, i ≠ b → slots'.occupant i = slots.occupant i) :
    Approach hashOf occupancy hashAt slots' (next slots.size b) k := by
  have hpast : ∀ j ≤ k, slots'.occupant (ahead slots.size (next slots.size b) j) =
      slots.occupant (ahead slots.size b (j + 1)) := by
    intro j hj
    rw [hkeep _ (h.ahead_ne hj), Cyclic.ahead_next]
  constructor
  · rw [hsize]
    exact Cyclic.next_lt (Nat.zero_lt_of_lt h.lt) b
  · rw [hsize, h.size]
  · intro j hj
    rw [hsize, hpast j hj, Cyclic.ahead_next]
    exact h.bit _ (by omega)
  · intro j hj
    rw [hsize, hpast j (by omega), Cyclic.ahead_next]
    exact h.run _ (by omega)
  · rw [hsize, hpast k (le_refl k)]
    exact h.gap
  · rw [hsize]
    exact Nat.lt_of_succ_lt h.room

private theorem Fits.swap (h : Fits hashOf slots hand distance b (k + 1)) (hb : b < slots.size)
    (hy : slots.occupant b = some y) (hlt : displacement slots.size (hashOf y) b < distance) :
    Fits hashOf (slots.assign b (some hand)) y (displacement slots.size (hashOf y) b + 1)
      (next slots.size b) k := by
  have hroom := h.room
  have hprofile : slots.profile hashOf b = some (displacement slots.size (hashOf y) b) := by
    rw [Slots.profile, hy]
    rfl
  constructor
  · rw [Slots.profile_assign hb, Slots.size_assign, Option.map_some, h.away]
    exact h.inOrder.swap hprofile hlt h.supports
  · rw [Slots.size_assign]
    exact Cyclic.displacement_next (hashOf y) hb (by omega)
  · rw [Slots.profile_assign hb, Slots.size_assign, Option.map_some, h.away]
    exact Cyclic.Profile.supports_next hb (Function.update_self ..) (Nat.succ_le_succ (Nat.le_of_lt hlt))
  · rw [Slots.size_assign]
    omega

private theorem Fits.pass (h : Fits hashOf slots hand distance b (k + 1)) (hb : b < slots.size)
    (hy : slots.occupant b = some y) (hle : distance ≤ displacement slots.size (hashOf y) b) :
    Fits hashOf slots hand (distance + 1) (next slots.size b) k := by
  have hroom := h.room
  have hprofile : slots.profile hashOf b = some (displacement slots.size (hashOf y) b) := by
    rw [Slots.profile, hy]
    rfl
  constructor
  · exact h.inOrder
  · rw [Cyclic.displacement_next (hashOf hand) hb (by rw [h.away]; omega), h.away]
  · exact Cyclic.Profile.supports_next hb hprofile (by omega)
  · omega

/-- What an insertion at `b` comes to: the moves `m :: moves`, which seat `hand` and leave the slots
`after` with `free` filled, untouched but for the `k + 1` buckets from `b` on, and in order if `hand`
fits. -/
private structure Lands (hashOf : α → UInt64) (slots : Slots α) (hand : α) (distance b k : Nat) (m : Move)
    (moves : List Move) (after : Slots α) : Prop where
  performed : slots.perform (some hand) (m :: moves) = .ok after
  gains : slots.Gains after hand (ahead slots.size b k)
  landed : after.occupant m.target = some hand
  frame : ∀ i, (∀ j ≤ k, i ≠ ahead slots.size b j) → after.occupant i = slots.occupant i
  inOrder : Fits hashOf slots hand distance b k → (after.profile hashOf).InOrder slots.size

private theorem Approach.lands {k : Nat} :
    ∀ {fuel b : Nat} {slots : Slots α} (hand : α) (distance : Nat), k < fuel →
      Approach hashOf occupancy hashAt slots b k →
      ∃ m moves after,
        occupancy.displace hashAt fuel b distance = .ok (m :: moves, ahead slots.size b k) ∧
        Lands hashOf slots hand distance b k m moves after := by
  induction k with
  | zero =>
    intro fuel b slots hand distance hfuel h
    obtain ⟨fuel, rfl⟩ : ∃ m, fuel = m + 1 := ⟨fuel - 1, by omega⟩
    have hb := h.lt
    have hbit := h.bit 0 (le_refl 0)
    have hgap := h.gap
    rw [Cyclic.ahead_zero hb] at hgap hbit
    refine ⟨.settle b, [], slots.assign b (some hand), ?_, ?_, ?_, ?_, ?_, fun hfits => ?_⟩
    · rw [Cyclic.ahead_zero hb]
      exact Bitmap.displace_gap h.size hb (by rw [hbit, hgap]; rfl)
    · rw [Slots.perform_settle hb, Slots.perform_nil]
    · rw [Cyclic.ahead_zero hb]
      exact Slots.gains_assign hb hgap hand
    · rw [Move.target, Slots.occupant_assign hb, Function.update_self]
    · intro i hi
      have hib := hi 0 (le_refl 0)
      rw [Cyclic.ahead_zero hb] at hib
      rw [Slots.occupant_assign hb, Function.update_of_ne hib]
    · rw [Slots.profile_assign hb, Option.map_some, hfits.away]
      exact hfits.inOrder.settle (Slots.profile_eq_none.mpr hgap) hfits.supports
  | succ k ih =>
    intro fuel b slots hand distance hfuel h
    obtain ⟨fuel, rfl⟩ : ∃ m, fuel = m + 1 := ⟨fuel - 1, by omega⟩
    have hb := h.lt
    obtain ⟨y, hy, hhash, hbit⟩ := h.resident
    by_cases hcloser : displacement slots.size (hashOf y) b < distance
    · have hnext := h.advance (Slots.size_assign slots b (some hand)) fun i hi => by
        rw [Slots.occupant_assign hb, Function.update_of_ne hi]
      obtain ⟨m, moves, after, hwalk, hlands⟩ := ih y (displacement slots.size (hashOf y) b + 1) (by omega : k < fuel) hnext
      rw [Slots.size_assign, Cyclic.ahead_next] at hwalk
      obtain ⟨hperformed, hgains, -, hframe, horder⟩ := hlands
      rw [Slots.size_assign] at hgains horder hframe
      refine ⟨.swap b, m :: moves, after, Bitmap.displace_closer h.size hb hbit hhash hcloser hwalk, ?_, ?_, ?_, ?_,
        fun hfits => horder (hfits.swap hb hy hcloser)⟩
      · rw [Slots.perform_swap hy, hperformed]
      · rw [Cyclic.ahead_next] at hgains
        exact hgains.of_swap hy
      · rw [Move.target, hframe b fun j hj => (h.ahead_ne hj).symm, Slots.occupant_assign hb,
          Function.update_self]
      · intro i hi
        have hib := hi 0 (Nat.zero_le _)
        rw [Cyclic.ahead_zero hb] at hib
        rw [hframe i fun j hj => by rw [Cyclic.ahead_next]; exact hi _ (by omega), Slots.occupant_assign hb,
          Function.update_of_ne hib]
    · rw [Nat.not_lt] at hcloser
      obtain ⟨m, moves, after, hwalk, hperformed, hgains, hlanded, hframe, horder⟩ :=
        ih hand (distance + 1) (by omega : k < fuel) (h.advance rfl fun _ _ => rfl)
      rw [Cyclic.ahead_next] at hwalk hgains
      refine ⟨m, moves, after, ?_, hperformed, hgains, hlanded, fun i hi => ?_,
        fun hfits => horder (hfits.pass hb hy hcloser)⟩
      · rw [Bitmap.displace_farther h.size hb hbit hhash hcloser, hwalk]
      · exact hframe i fun j hj => by rw [Cyclic.ahead_next]; exact hi _ (by omega)

/-! ### The whole insertion -/

structure Seats (s : Seating α) (x : α) (seated : Seated α) : Prop where
  inStep : seated.seating.InStep
  like : seated.seating.table.Like s.table
  elements : seated.seating.slots.elements.Perm (x :: s.slots.elements)
  landed : seated.seating.slots.occupant seated.landed = some x
  performed : s.slots.perform (some x) seated.moves = .ok seated.seating.slots

private theorem InStep.seat_dense (h : s.InStep) (hdense : s.table.layout = .dense)
    (hroom : s.table.count < s.table.capacity) (hashOf : α → UInt64) (x : α) (hash : UInt64) :
    ∃ seated, s.seat hashOf x hash = .ok seated ∧ Seats s x seated ∧
      seated.seating.table.layout = .dense := by
  have hb : s.table.count < s.slots.size := by
    rwa [h.size_slots, Table.bucketCount, hdense]
  have hnone : s.slots.occupant s.table.count = none := by
    by_contra hsome
    exact Nat.lt_irrefl _ ((h.lt_count_iff hdense).mpr hsome)
  have hgains := Slots.gains_assign hb hnone x
  have hperformed : s.slots.perform (some x) [.settle s.table.count] =
      .ok (s.slots.assign s.table.count (some x)) := by
    rw [Slots.perform_settle hb, Slots.perform_nil]
  refine ⟨⟨⟨{ s.table with count := s.table.count + 1 }, s.slots.assign s.table.count (some x)⟩,
    [.settle s.table.count], s.table.count⟩, ?_, ⟨?_, ⟨rfl, rfl⟩, hgains.elements, ?_, hperformed⟩, hdense⟩
  · rw [seat, Table.place]
    simp only [hdense, hperformed, bind, Except.bind, pure, Except.pure]
  · refine h.of_prefix hdense hgains.size (fun i => ?_) ?_ hroom
    · rw [hgains.filled, Bool.eq_iff_iff, decide_eq_true_iff]
      by_cases hi : i = s.table.count
      · rw [if_pos hi]
        exact iff_of_true (by omega) rfl
      · rw [if_neg hi, Option.isSome_iff_ne_none, ← h.lt_count_iff hdense]
        omega
    · rw [hgains.elements.length_eq, List.length_cons, h.count]
  · rw [Slots.occupant_assign hb, Function.update_self]

private theorem InStep.seat_probed {occupancy : Bitmap} (h : s.InStep)
    (hprobed : s.table.layout = .probed occupancy) (hroom : s.table.count < s.table.capacity)
    (hashOf : α → UInt64) (x : α) (hash : UInt64) :
    ∃ seated, s.seat hashOf x hash = .ok seated ∧ Seats s x seated ∧
      (s.Orderly hashOf → hash = hashOf x → seated.seating.Orderly hashOf) := by
  have hdense := not_isDense_of_layout hprobed
  have hmarks := h.marks hprobed
  have hn : 0 < s.slots.size := Nat.zero_lt_of_lt (h.one_lt_size hdense)
  have hhome := Cyclic.home_lt hn hash
  obtain ⟨k, hk, hgap, hrun⟩ := Slots.exists_gap s.slots (h.length_lt hdense) hhome
  have happroach : Approach hashOf occupancy (fun bucket => hashOf <$> s.slots.get bucket) s.slots
      (Cyclic.home s.slots.size hash) k := {
    lt := hhome
    size := hmarks.size
    bit := fun j _ => hmarks.bit _
    run := fun j hj => by
      obtain ⟨y, hy⟩ := Option.ne_none_iff_exists'.mp (hrun j hj)
      exact ⟨y, hy, by rw [Slots.get_of_occupant hy]; rfl⟩
    gap := hgap
    room := hk }
  obtain ⟨m, moves, after, hwalk, hperformed, hgains, hlanded, -, horder⟩ :=
    happroach.lands x 0 hk
  obtain ⟨raised, hset, hraised⟩ := hmarks.set (Cyclic.ahead_lt hn _ _) hgains.size hgains.filled
  have hstep : InStep ⟨{ s.table with layout := .probed raised, count := s.table.count + 1 }, after⟩ := by
    refine h.of_marks hprobed hgains.size hraised ?_ hroom
    rw [hgains.elements.length_eq, List.length_cons, h.count]
  refine ⟨⟨⟨{ s.table with layout := .probed raised, count := s.table.count + 1 }, after⟩,
    m :: moves, m.target⟩, ?_, ⟨hstep, ⟨rfl, rfl⟩, hgains.elements, hlanded, hperformed⟩, ?_⟩
  · rw [seat, Table.place, hprobed]
    simp only [hmarks.size, hwalk, hset, hperformed, bind, Except.bind, pure, Except.pure, List.head?_cons,
      Option.map_some, Option.getD_some]
  · rintro horderly rfl
    refine ⟨hstep, fun _ => ?_⟩
    change (after.profile hashOf).InOrder after.size
    rw [hgains.size]
    exact horder ⟨horderly.inOrder hdense, Cyclic.displacement_home hn _, .inl rfl, by rwa [Nat.zero_add]⟩

/-- As long as there is room, a new element can be seated, whatever the hashes are. -/
theorem InStep.seat (h : s.InStep) (hroom : s.table.count < s.table.capacity) (hashOf : α → UInt64) (x : α)
    (hash : UInt64) : ∃ seated, s.seat hashOf x hash = .ok seated ∧ Seats s x seated := by
  cases hlayout : s.table.layout with
  | dense =>
    obtain ⟨seated, hok, hseats, -⟩ := h.seat_dense hlayout hroom hashOf x hash
    exact ⟨seated, hok, hseats⟩
  | probed occupancy =>
    obtain ⟨seated, hok, hseats, -⟩ := h.seat_probed hlayout hroom hashOf x hash
    exact ⟨seated, hok, hseats⟩

/-- With the hash of the new element, every element stays where a search finds it. -/
theorem Orderly.seat (h : s.Orderly hashOf) (hroom : s.table.count < s.table.capacity) (x : α)
    {hash : UInt64} (hhash : s.table.isDense = false → hash = hashOf x) :
    ∃ seated, s.seat hashOf x hash = .ok seated ∧ Seats s x seated ∧ seated.seating.Orderly hashOf := by
  cases hlayout : s.table.layout with
  | dense =>
    obtain ⟨seated, hok, hseats, hdense⟩ := h.seat_dense hlayout hroom hashOf x hash
    refine ⟨seated, hok, hseats, hseats.inStep, fun hprobed => ?_⟩
    cases (isDense_of_layout hdense).symm.trans hprobed
  | probed occupancy =>
    obtain ⟨seated, hok, hseats, horder⟩ := h.seat_probed hlayout hroom hashOf x hash
    exact ⟨seated, hok, hseats, horder h (hhash (not_isDense_of_layout hlayout))⟩

end Seating

end RobinHood
