import RobinHood.Proofs.Seating.Insertion
import RobinHood.Proofs.Seating.Removal

/-!
# Seatings that can come about

Starting without occupants, elements are seated while there is room, taken out of occupied buckets, and
removed all at once. Every seating that comes about this way is orderly, whatever the hashes are. For a
probed table this module spells out what that means for the bitmap and for searches, along runs that
wrap past the last bucket as well.
-/

namespace RobinHood.Seating

open Cyclic (ahead home previous displacement)

variable {α : Type} {hashOf : α → UInt64} {capacity : Nat} {seed : UInt64} {s : Seating α}

/-- The seatings that a table of the given capacity goes through. -/
inductive Reached (hashOf : α → UInt64) (capacity : Nat) (seed : UInt64) : Seating α → Prop
  | start {s : Seating α} (hvacant : vacant capacity seed = .ok s) : Reached hashOf capacity seed s
  | seat {s : Seating α} {x : α} {seated : Seated α} (h : Reached hashOf capacity seed s)
      (hroom : s.table.count < s.table.capacity) (hseat : s.seat hashOf x (hashOf x) = .ok seated) :
      Reached hashOf capacity seed seated.seating
  | unseat {s : Seating α} {bucket : Nat} {unseated : Unseated α} (h : Reached hashOf capacity seed s)
      (hoccupied : s.table.isOccupied bucket = true) (hunseat : s.unseat hashOf bucket = .ok unseated) :
      Reached hashOf capacity seed unseated.seating
  | clear {s : Seating α} (h : Reached hashOf capacity seed s) : Reached hashOf capacity seed s.clear

theorem Orderly.exists_occupant (h : s.Orderly hashOf) {bucket : Nat}
    (hoccupied : s.table.isOccupied bucket = true) : ∃ x, s.slots.occupant bucket = some x := by
  rwa [h.occupied, Option.isSome_iff_exists] at hoccupied

theorem Reached.orderly (h : Reached hashOf capacity seed s) :
    s.Orderly hashOf ∧ s.table.capacity = capacity := by
  induction h with
  | start hvacant =>
    obtain ⟨horderly, -, hcap⟩ := vacant_eq_ok hvacant hashOf
    exact ⟨horderly, hcap⟩
  | seat _ hroom hseat ih =>
    obtain ⟨horderly, hcap⟩ := ih
    obtain ⟨seated, hok, hseats, hafter⟩ := horderly.seat hroom _ fun _ => rfl
    cases hseat.symm.trans hok
    exact ⟨hafter, hseats.like.capacity.trans hcap⟩
  | unseat _ hoccupied hunseat ih =>
    obtain ⟨horderly, hcap⟩ := ih
    obtain ⟨x, hx⟩ := horderly.exists_occupant hoccupied
    obtain ⟨unseated, hok, hunseats, hafter⟩ := horderly.unseat hx
    cases hunseat.symm.trans hok
    exact ⟨hafter, hunseats.like.capacity.trans hcap⟩
  | clear _ ih =>
    obtain ⟨horderly, hcap⟩ := ih
    exact ⟨horderly.clear hashOf, (Table.capacity_clear _).trans hcap⟩

/-- What holds between the occupancy bitmap of a probed table and its occupants. -/
structure Chained (hashOf : α → UInt64) (s : Seating α) (occupancy : Bitmap) : Prop where
  probed : s.table.layout = .probed occupancy
  /-- The set bits are those of the buckets with an occupant. -/
  occupied : ∀ p, occupancy.bit p = true ↔ ∃ x, s.slots.occupant p = some x
  count : s.table.count = (List.range occupancy.size).countP occupancy.bit
  count_le : s.table.count ≤ s.table.capacity
  capacity_lt : s.table.capacity < occupancy.size
  spare : ∀ p, occupancy.size ≤ p → occupancy.bit p = false
  /-- Before an occupant that is not at home comes one that is at most one step closer to its home. -/
  ordered : ∀ p x, s.slots.occupant p = some x → 0 < displacement occupancy.size (hashOf x) p →
    ∃ y, s.slots.occupant (previous occupancy.size p) = some y ∧
      displacement occupancy.size (hashOf x) p ≤
        displacement occupancy.size (hashOf y) (previous occupancy.size p) + 1
  /-- No free bucket lies between the home of an occupant and its bucket. -/
  reachable : ∀ p x, s.slots.occupant p = some x → ∀ i ≤ displacement occupancy.size (hashOf x) p,
    occupancy.bit (ahead occupancy.size (home occupancy.size (hashOf x)) i) = true

theorem Orderly.chained {occupancy : Bitmap} (h : s.Orderly hashOf)
    (hprobed : s.table.layout = .probed occupancy) : s.Chained hashOf occupancy := by
  have hdense := not_isDense_of_layout hprobed
  have hmarks := h.marks hprobed
  have hn : 0 < s.slots.size := Nat.zero_lt_of_lt (h.one_lt_size hdense)
  have horder := h.inOrder hdense
  constructor
  · exact hprobed
  · intro p
    rw [hmarks.bit, Option.isSome_iff_exists]
  · rw [h.count, Slots.length_elements_eq_countP, hmarks.size]
    exact List.countP_congr fun i _ => by rw [hmarks.bit]
  · exact h.count_le
  · rw [hmarks.size, h.size_slots]
    exact (h.shaped.lt_bucketCount hdense).1
  · exact hmarks.tidy
  · intro p x hx hpos
    rw [hmarks.size] at hpos ⊢
    have hp : s.slots.profile hashOf p = some (displacement s.slots.size (hashOf x) p) := by
      rw [Slots.profile, hx]
      rfl
    obtain hzero | ⟨f, hf, hle⟩ := horder p (Slots.lt_size_of_occupant hx) _ hp
    · omega
    · obtain ⟨y, hy, rfl⟩ := Option.map_eq_some_iff.mp hf
      exact ⟨y, hy, hle⟩
  · intro p x hx i hi
    rw [hmarks.size] at hi ⊢
    have hplace := Cyclic.ahead_displacement (Slots.lt_size_of_occupant hx) (hashOf x)
    have hp : s.slots.profile hashOf (ahead s.slots.size (home s.slots.size (hashOf x))
        (displacement s.slots.size (hashOf x) p)) = some (displacement s.slots.size (hashOf x) p) := by
      rw [hplace, Slots.profile, hx]
      rfl
    obtain ⟨g, hg, -⟩ := horder.reach hn hp (le_refl _) hi
    obtain ⟨y, hy, -⟩ := Option.map_eq_some_iff.mp hg
    rw [hmarks.bit, hy]
    rfl

/-- However a probed table of more than `denseLimit` elements came about, its occupants are chained, and it
can be changed further: a new element can be seated if there is room, and every occupant can be taken
out. -/
theorem Reached.robin_hood (hlarge : Table.denseLimit < capacity) (h : Reached hashOf capacity seed s) :
    s.table.capacity = capacity ∧ (∃ occupancy, s.Chained hashOf occupancy) ∧
      (s.table.count < capacity → ∀ x, ∃ seated, s.seat hashOf x (hashOf x) = .ok seated) ∧
      ∀ bucket, s.table.isOccupied bucket = true → ∃ unseated, s.unseat hashOf bucket = .ok unseated := by
  obtain ⟨horderly, hcap⟩ := h.orderly
  refine ⟨hcap, ?_, fun hroom x => ?_, fun bucket hoccupied => ?_⟩
  · cases hlayout : s.table.layout with
    | dense =>
      have hle := horderly.shaped.dense_iff.mp (isDense_of_layout hlayout)
      omega
    | probed occupancy => exact ⟨occupancy, horderly.chained hlayout⟩
  · obtain ⟨seated, hok, -⟩ := horderly.seat (by omega) x fun _ => rfl
    exact ⟨seated, hok⟩
  · obtain ⟨x, hx⟩ := horderly.exists_occupant hoccupied
    obtain ⟨unseated, hok, -⟩ := horderly.unseat hx
    exact ⟨unseated, hok⟩

/-- Two elements have their home in the last of 32 buckets. Once the first is taken out, the second moves
back across the end. -/
theorem robin_hood_wrapped : ∃ s : Seating Nat, Table.denseLimit < 16 ∧ Reached (fun _ => 31) 16 0 s ∧
    s.slots.occupant 31 = some 2 ∧ s.slots.occupant 0 = none ∧
    s.table.capacity = 16 ∧ (∃ occupancy, s.Chained (fun _ => 31) occupancy) ∧
    (s.table.count < 16 → ∀ x, ∃ seated, s.seat (fun _ => 31) x 31 = .ok seated) ∧
    ∀ bucket, s.table.isOccupied bucket = true →
      ∃ unseated, s.unseat (fun _ => 31) bucket = .ok unseated := by
  have hempty : Reached (fun _ : Nat => 31) 16 0 ⟨⟨.probed (.zeros 32), 16, 0, 0⟩, .vacant 32⟩ := .start rfl
  have hone := hempty.seat (by decide) (rfl : seat _ _ 1 _ = .ok ⟨⟨⟨.probed ⟨#[0x80000000], 32, rfl⟩, 16, 1, 0⟩,
    (Slots.vacant 32).assign 31 (some 1)⟩, [.settle 31], 31⟩)
  have htwo := hone.seat (by decide) (rfl : seat _ _ 2 _ = .ok ⟨⟨⟨.probed ⟨#[0x80000001], 32, rfl⟩, 16, 2, 0⟩,
    ((Slots.vacant 32).assign 31 (some 1)).assign 0 (some 2)⟩, [.settle 0], 0⟩)
  have hback := htwo.unseat (by decide) (rfl : unseat _ _ 31 = .ok ⟨⟨⟨.probed ⟨#[0x80000000], 32, rfl⟩, 16, 1, 0⟩,
    (Slots.vacant 32).assign 31 (some 2)⟩, [.shift 0 31], 1⟩)
  exact ⟨_, by decide, hback, rfl, rfl, hback.robin_hood (by decide)⟩

end RobinHood.Seating
