import RobinHood.Proofs.Slots
import RobinHood.Proofs.Table.Order
import RobinHood.Proofs.Table.Shape
import RobinHood.Table.Seating

/-!
# Sound seatings

A seating is in step when the table and the slots agree on which buckets are occupied and how many
there are. It is orderly when, in addition, a probed table has its occupants in Robin Hood order. A
seating from which an element was taken without closing the gap is still in step; all other
operations keep seatings orderly.
-/

namespace RobinHood

variable {α : Type} {hashOf : α → UInt64}

def Slots.profile (slots : Slots α) (hashOf : α → UInt64) : Cyclic.Profile :=
  fun b => (slots.occupant b).map fun x => Cyclic.displacement slots.size (hashOf x) b

theorem Slots.profile_assign {slots : Slots α} {b : Nat} (hb : b < slots.size) (c : Option α) :
    (slots.assign b c).profile hashOf = Function.update (slots.profile hashOf) b
      (c.map fun x => Cyclic.displacement slots.size (hashOf x) b) := by
  funext i
  rw [profile, occupant_assign hb, size_assign]
  by_cases hib : i = b
  · subst hib
    rw [Function.update_self, Function.update_self]
  · rw [Function.update_of_ne hib, Function.update_of_ne hib, profile]

theorem Slots.profile_eq_none {slots : Slots α} {i : Nat} :
    slots.profile hashOf i = none ↔ slots.occupant i = none :=
  Option.map_eq_none_iff

/-- Walking on from a bucket of slots that are not all filled, one meets a vacant one within a turn. -/
theorem Slots.exists_gap (slots : Slots α) (hroom : slots.elements.length < slots.size) {b : Nat}
    (hb : b < slots.size) :
    ∃ k < slots.size, slots.occupant (Cyclic.ahead slots.size b k) = none ∧
      ∀ j < k, slots.occupant (Cyclic.ahead slots.size b j) ≠ none := by
  obtain ⟨i, hi, hnone⟩ := exists_vacant hroom
  obtain ⟨steps, hsteps, rfl⟩ := Cyclic.exists_ahead hb hi
  clear hi
  induction steps using Nat.strongRecOn with
  | ind steps ih =>
    by_cases hearlier : ∃ j < steps, slots.occupant (Cyclic.ahead slots.size b j) = none
    · obtain ⟨j, hj, hfree⟩ := hearlier
      exact ih j hj (by omega) hfree
    · exact ⟨steps, hsteps, hnone, fun j hj hfree => hearlier ⟨j, hj, hfree⟩⟩

/-! ### Bitmaps of filled slots -/

/-- The bitmap records which slots are filled. -/
structure Bitmap.Marks (occupancy : Bitmap) (slots : Slots α) : Prop where
  size : occupancy.size = slots.size
  bit : ∀ i, occupancy.bit i = (slots.occupant i).isSome

namespace Bitmap.Marks

variable {occupancy : Bitmap} {slots after : Slots α} {b : Nat}

theorem tidy (h : occupancy.Marks slots) : occupancy.Tidy := by
  intro i hi
  rw [h.bit, Slots.occupant_of_size_le (by rwa [← h.size])]
  rfl

theorem set (h : occupancy.Marks slots) (hb : b < slots.size) (hsize : after.size = slots.size)
    (hfilled : ∀ i, (after.occupant i).isSome = if i = b then true else (slots.occupant i).isSome) :
    ∃ raised, occupancy.set b = .ok raised ∧ raised.Marks after := by
  obtain ⟨raised, hset, hkeep, hbit⟩ := set_of_lt (h.size.symm ▸ hb : b < occupancy.size)
  refine ⟨raised, hset, by rw [hkeep, h.size, hsize], fun i => ?_⟩
  rw [hbit, hfilled, h.bit]

theorem clear (h : occupancy.Marks slots) (hb : b < slots.size) (hsize : after.size = slots.size)
    (hfilled : ∀ i, (after.occupant i).isSome = if i = b then false else (slots.occupant i).isSome) :
    ∃ lowered, occupancy.clear b = .ok lowered ∧ lowered.Marks after := by
  obtain ⟨lowered, hclear, hkeep, hbit⟩ := clear_of_lt (h.size.symm ▸ hb : b < occupancy.size)
  refine ⟨lowered, hclear, by rw [hkeep, h.size, hsize], fun i => ?_⟩
  rw [hbit, hfilled, h.bit]

end Bitmap.Marks

namespace Seating

variable {s : Seating α}

/-- The table and the slots agree on which buckets are occupied, and on their number. -/
structure InStep (s : Seating α) : Prop where
  shaped : s.table.Shaped
  size_slots : s.slots.size = s.table.bucketCount
  occupied : ∀ i, s.table.isOccupied i = (s.slots.occupant i).isSome
  count : s.table.count = s.slots.elements.length
  count_le : s.table.count ≤ s.table.capacity

/-- A seating in step, whose occupants are in Robin Hood order unless the layout is dense. -/
structure Orderly (hashOf : α → UInt64) (s : Seating α) : Prop extends InStep s where
  inOrder : s.table.isDense = false → (s.slots.profile hashOf).InOrder s.slots.size

theorem InStep.length_lt (h : s.InStep) (hprobed : s.table.isDense = false) :
    s.slots.elements.length < s.slots.size := by
  have hlt := (h.shaped.lt_bucketCount hprobed).1
  have hle := h.count_le
  rw [h.count] at hle
  rw [h.size_slots]
  omega

theorem InStep.one_lt_size (h : s.InStep) (hprobed : s.table.isDense = false) : 1 < s.slots.size := by
  rw [h.size_slots]
  exact (h.shaped.lt_bucketCount hprobed).2

theorem InStep.lt_count_iff (h : s.InStep) (hdense : s.table.layout = .dense) {i : Nat} :
    i < s.table.count ↔ s.slots.occupant i ≠ none := by
  have hocc := h.occupied i
  rw [← Option.isSome_iff_ne_none, ← hocc]
  simp only [Table.isOccupied, hdense, decide_eq_true_eq]

theorem InStep.marks {occupancy : Bitmap} (h : s.InStep) (hprobed : s.table.layout = .probed occupancy) :
    occupancy.Marks s.slots where
  size := by rw [h.size_slots, Table.bucketCount, hprobed]
  bit i := by
    rw [← h.occupied i]
    simp only [Table.isOccupied, hprobed]
    by_cases hi : i < occupancy.size
    · simp [hi]
    · simp [hi, h.shaped.tidy occupancy hprobed i (Nat.le_of_not_lt hi)]

theorem isDense_of_layout (hdense : s.table.layout = .dense) : s.table.isDense = true := by
  rw [Table.isDense, hdense]

theorem layout_of_isDense {table : Table} (hdense : table.isDense = true) : table.layout = .dense := by
  cases hlayout : table.layout with
  | dense => rfl
  | probed occupancy =>
    rw [Table.isDense, hlayout] at hdense
    cases hdense

theorem not_isDense_of_layout {occupancy : Bitmap} (hprobed : s.table.layout = .probed occupancy) :
    s.table.isDense = false := by
  rw [Table.isDense, hprobed]

theorem InStep.of_marks {occupancy changed : Bitmap} {slots : Slots α} {count : Nat} (h : s.InStep)
    (hprobed : s.table.layout = .probed occupancy) (hsize : slots.size = s.slots.size)
    (hmarks : changed.Marks slots) (hcount : count = slots.elements.length) (hle : count ≤ s.table.capacity) :
    InStep ⟨{ s.table with layout := .probed changed, count }, slots⟩ where
  shaped := {
    dense_iff := by
      have hold := h.shaped.dense_iff
      rw [not_isDense_of_layout hprobed] at hold
      exact hold
    buckets := by
      have hold := h.shaped.buckets
      rw [← h.size_slots, ← hsize, ← hmarks.size] at hold
      exact hold
    tidy := by
      rintro _ ⟨⟩
      exact hmarks.tidy
    seedless := nofun }
  size_slots := hmarks.size.symm
  occupied i := by
    simp only [Table.isOccupied, hmarks.bit]
    by_cases hi : i < changed.size
    · rw [decide_eq_true hi, Bool.true_and]
    · rw [decide_eq_false hi, Slots.occupant_of_size_le (by rw [← hmarks.size]; omega)]
      rfl
  count := hcount
  count_le := hle

/-- A change of a dense seating that leaves a run of as many occupants as it counts keeps it in step. -/
theorem InStep.of_prefix {slots : Slots α} {count : Nat} (h : s.InStep) (hdense : s.table.layout = .dense)
    (hsize : slots.size = s.slots.size) (hleading : ∀ i, decide (i < count) = (slots.occupant i).isSome)
    (hcount : count = slots.elements.length) (hle : count ≤ s.table.capacity) :
    InStep ⟨{ s.table with count }, slots⟩ where
  shaped := {
    dense_iff := h.shaped.dense_iff
    buckets := by
      have hold := h.shaped.buckets
      rw [Table.bucketCount, hdense] at hold ⊢
      exact hold
    tidy := by
      intro occupancy hprobed
      rw [show s.table.layout = .probed occupancy from hprobed] at hdense
      cases hdense
    seedless := h.shaped.seedless }
  size_slots := by
    rw [hsize, h.size_slots, Table.bucketCount, Table.bucketCount, hdense]
  occupied i := by
    simp only [Table.isOccupied, hdense, hleading]
  count := hcount
  count_le := hle

theorem InStep.replace (h : s.InStep) {b : Nat} {x : α} (hx : s.slots.occupant b = some x) (y : α) :
    InStep ⟨s.table, s.slots.assign b (some y)⟩ where
  shaped := h.shaped
  size_slots := (Slots.size_assign ..).trans h.size_slots
  occupied i := by
    rw [Slots.isSome_assign (Slots.lt_size_of_occupant hx), h.occupied]
    by_cases hi : i = b
    · rw [if_pos hi, hi, hx]
      rfl
    · rw [if_neg hi]
  count := by
    have hlength := (Slots.elements_replace hx y).length_eq
    rw [List.length_cons, List.length_cons] at hlength
    rw [h.count, Nat.succ.inj hlength]
  count_le := h.count_le

theorem Orderly.replace (h : s.Orderly hashOf) {b : Nat} {x y : α} (hx : s.slots.occupant b = some x)
    (hy : hashOf y = hashOf x) : Orderly hashOf ⟨s.table, s.slots.assign b (some y)⟩ where
  toInStep := h.toInStep.replace hx y
  inOrder hprobed := by
    have hself : s.slots.profile hashOf b = some (Cyclic.displacement s.slots.size (hashOf x) b) := by
      rw [Slots.profile, hx]
      rfl
    rw [Slots.profile_assign (Slots.lt_size_of_occupant hx), Option.map_some, hy, ← hself,
      Function.update_eq_self, Slots.size_assign]
    exact h.inOrder hprobed

/-! ### Nobody seated -/

theorem vacant_eq_ok {capacity : Nat} {seed : UInt64} (h : vacant capacity seed = .ok s)
    (hashOf : α → UInt64) : s.Orderly hashOf ∧ s.slots.elements = [] ∧ s.table.capacity = capacity := by
  rw [vacant] at h
  cases htable : Table.vacant capacity seed with
  | error fault =>
    rw [htable] at h
    cases h
  | ok table =>
    rw [htable] at h
    obtain rfl : s = ⟨table, .vacant table.bucketCount⟩ := (Except.ok.inj h).symm
    obtain ⟨hshaped, hcap, hcount, hfree⟩ := Table.vacant_eq_ok htable
    have hnil : (Slots.vacant table.bucketCount : Slots α).elements = [] :=
      Slots.elements_eq_nil (Slots.occupant_vacant _)
    refine ⟨⟨⟨hshaped, Slots.size_vacant _, ?_, ?_, ?_⟩, ?_⟩, hnil, hcap⟩
    · intro i
      rw [hfree, Slots.occupant_vacant]
      rfl
    · rw [hcount, hnil]
      rfl
    · rw [hcount]
      exact Nat.zero_le _
    · intro _ b _ e he
      simp [Slots.profile] at he

theorem exists_vacant {capacity : Nat} (seed : UInt64) (hle : capacity ≤ Scale.limit) :
    ∃ s : Seating α, vacant capacity seed = .ok s := by
  obtain ⟨table, htable⟩ := Table.exists_vacant seed hle
  exact ⟨⟨table, .vacant table.bucketCount⟩, by rw [vacant, htable]; rfl⟩

theorem vacant_of_limit_lt {capacity : Nat} (seed : UInt64) (hlt : Scale.limit < capacity) :
    (vacant capacity seed : Except Fault (Seating α)) = .error .capacityOverflow := by
  rw [vacant, Table.vacant_of_limit_lt seed hlt]
  rfl

theorem InStep.vacant_eq (h : s.InStep) (hcount : s.table.count = 0) :
    vacant s.table.capacity s.table.seed = .ok s := by
  have hnone : ∀ i, s.slots.occupant i = none := by
    have hnil : s.slots.elements = [] := List.length_eq_zero_iff.mp (h.count.symm.trans hcount)
    intro i
    by_contra hsome
    obtain ⟨x, hx⟩ := Option.ne_none_iff_exists'.mp hsome
    exact List.not_mem_nil (hnil ▸ Slots.mem_elements.mpr ⟨i, hx⟩)
  have hfree : ∀ i, s.table.isOccupied i = false := fun i => by rw [h.occupied, hnone, Option.isSome_none]
  have hslots : Slots.vacant s.table.bucketCount = s.slots := by
    rw [← h.size_slots]
    exact (Slots.eq_vacant hnone).symm
  rw [vacant, h.shaped.vacant_eq hcount hfree]
  exact congrArg (fun slots => Except.ok (Seating.mk s.table slots)) hslots

theorem elements_clear (s : Seating α) : s.clear.slots.elements = [] :=
  Slots.elements_eq_nil (Slots.occupant_clear s.slots)

/-- Clearing leaves an orderly seating, even where searches had been given up. -/
theorem InStep.clear (h : s.InStep) (hashOf : α → UInt64) : s.clear.Orderly hashOf where
  shaped := h.shaped.clear
  size_slots := by
    change s.slots.clear.size = s.table.clear.bucketCount
    rw [Slots.size_clear, Table.bucketCount_clear, h.size_slots]
  occupied i := by
    change s.table.clear.isOccupied i = (s.slots.clear.occupant i).isSome
    rw [Table.isOccupied_clear, Slots.occupant_clear]
    rfl
  count := by
    change s.table.clear.count = _
    rw [Table.count_clear, elements_clear]
    rfl
  count_le := by
    change s.table.clear.count ≤ s.table.clear.capacity
    rw [Table.count_clear]
    exact Nat.zero_le _
  inOrder _ b _ e he := by
    simp [Seating.clear, Slots.profile] at he

end Seating

end RobinHood
