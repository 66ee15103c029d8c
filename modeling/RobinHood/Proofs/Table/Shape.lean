import RobinHood.Proofs.Bitmap
import RobinHood.Proofs.Scale
import RobinHood.Table.Basic

/-!
# The shape of a table

The capacity of a table fixes its layout and its number of buckets, and neither ever changes. A probed
table has more buckets than it may fill, so that every search meets a free one.
-/

namespace RobinHood.Table

variable {table other : Table} {capacity buckets : Nat}

theorem exists_eq_of_bucketsFor (hlarge : denseLimit < capacity) (hbuckets : bucketsFor capacity = .ok buckets) :
    ∃ k, Scale.ofCapacity capacity = .ok (k + 4) ∧ buckets = 8 * 2 ^ k := by
  rw [bucketsFor, if_neg (Nat.not_le.mpr hlarge)] at hbuckets
  cases hscale : Scale.ofCapacity capacity with
  | error fault =>
    rw [hscale] at hbuckets
    cases hbuckets
  | ok s =>
    rw [hscale] at hbuckets
    obtain rfl : 1 <<< (s - 1) = buckets := Except.ok.inj hbuckets
    obtain ⟨_, hle, _⟩ := Scale.ofCapacity_eq_ok_iff.mp hscale
    have hfour : 4 < s := by
      by_contra hs
      have hcap : Scale.capacity s ≤ Scale.capacity 4 := Scale.capacity_strictMono.monotone (by omega)
      have hseven : Scale.capacity 4 = 7 := by decide
      have : 15 < capacity := hlarge
      omega
    obtain ⟨k, rfl⟩ : ∃ k, s = k + 4 := ⟨s - 4, by omega⟩
    refine ⟨k, rfl, ?_⟩
    rw [Nat.one_shiftLeft, show k + 4 - 1 = k + 3 by omega, Nat.pow_add, Nat.mul_comm]

/-- More buckets than elements that fit, and more than one, unless the layout is dense. -/
theorem lt_of_bucketsFor (hlarge : denseLimit < capacity) (hbuckets : bucketsFor capacity = .ok buckets) :
    capacity < buckets ∧ 1 < buckets := by
  obtain ⟨k, hscale, rfl⟩ := exists_eq_of_bucketsFor hlarge hbuckets
  obtain ⟨_, hle, _⟩ := Scale.ofCapacity_eq_ok_iff.mp hscale
  rw [Scale.capacity_add_four] at hle
  have hpos : 0 < 2 ^ k := Nat.two_pow_pos k
  omega

theorem exists_bucketsFor (hle : capacity ≤ Scale.limit) : ∃ buckets, bucketsFor capacity = .ok buckets := by
  by_cases hdense : capacity ≤ denseLimit
  · exact ⟨capacity, by rw [bucketsFor, if_pos hdense]⟩
  · obtain ⟨s, hs⟩ := Scale.exists_ofCapacity hle
    exact ⟨1 <<< (s - 1), by rw [bucketsFor, if_neg hdense, hs]; rfl⟩

/-- The layout and the number of buckets are those of the capacity, no spare bit is set, and only a probed table has a
seed. -/
structure Shaped (table : Table) : Prop where
  dense_iff : table.isDense = true ↔ table.capacity ≤ denseLimit
  buckets : bucketsFor table.capacity = .ok table.bucketCount
  tidy : ∀ occupancy, table.layout = .probed occupancy → occupancy.Tidy
  seedless : table.layout = .dense → table.seed = 0

theorem Shaped.lt_bucketCount (h : table.Shaped) (hprobed : table.isDense = false) :
    table.capacity < table.bucketCount ∧ 1 < table.bucketCount := by
  refine lt_of_bucketsFor (Nat.not_le.mp fun hle => ?_) h.buckets
  rw [← h.dense_iff, hprobed] at hle
  cases hle

theorem Shaped.probed_of_large (h : table.Shaped) (hlarge : denseLimit < table.capacity) : table.isDense = false := by
  rw [← Bool.not_eq_true, h.dense_iff]
  exact Nat.not_le.mpr hlarge

theorem Shaped.probed_of_lt (h : table.Shaped) (hlarge : denseLimit < table.bucketCount) : table.isDense = false := by
  cases hlayout : table.layout with
  | dense =>
    have hle := h.dense_iff.mp (by rw [isDense, hlayout])
    rw [bucketCount, hlayout] at hlarge
    exact absurd hle (Nat.not_le.mpr hlarge)
  | probed occupancy => rw [isDense, hlayout]

theorem exists_vacant (seed : UInt64) (hle : capacity ≤ Scale.limit) :
    ∃ table, vacant capacity seed = .ok table := by
  obtain ⟨buckets, hbuckets⟩ := exists_bucketsFor hle
  rw [vacant, hbuckets]
  by_cases hdense : capacity ≤ denseLimit
  · exact ⟨_, by simp only [if_pos hdense]; rfl⟩
  · exact ⟨_, by simp only [if_neg hdense]; rfl⟩

theorem vacant_of_limit_lt (seed : UInt64) (hlt : Scale.limit < capacity) :
    vacant capacity seed = .error .capacityOverflow := by
  have hlarge : denseLimit < Scale.limit := by decide
  rw [vacant, bucketsFor, if_neg (by omega), Scale.ofCapacity_of_limit_lt hlt]
  rfl

theorem Shaped.capacity_le_limit (h : table.Shaped) : table.capacity ≤ Scale.limit := by
  by_contra hover
  have hlarge : denseLimit < Scale.limit := by decide
  have hbuckets := h.buckets
  rw [bucketsFor, if_neg (by omega), Scale.ofCapacity_of_limit_lt (Nat.not_le.mp hover)] at hbuckets
  cases hbuckets

theorem vacant_eq_ok {seed : UInt64} (h : vacant capacity seed = .ok table) :
    table.Shaped ∧ table.capacity = capacity ∧ table.count = 0 ∧ ∀ i, table.isOccupied i = false := by
  rw [vacant] at h
  cases hbuckets : bucketsFor capacity with
  | error fault =>
    rw [hbuckets] at h
    cases h
  | ok buckets =>
    rw [hbuckets] at h
    by_cases hdense : capacity ≤ denseLimit
    · obtain rfl : table = ⟨.dense, capacity, 0, 0⟩ := by
        simp only [if_pos hdense] at h
        exact (Except.ok.inj h).symm
      refine ⟨⟨iff_of_true rfl hdense, ?_, nofun, fun _ => rfl⟩, rfl, rfl, fun i => ?_⟩
      · rw [bucketsFor, if_pos hdense]
        rfl
      · exact decide_eq_false (Nat.not_lt_zero i)
    · obtain rfl : table = ⟨.probed (.zeros buckets), capacity, 0, seed⟩ := by
        simp only [if_neg hdense] at h
        exact (Except.ok.inj h).symm
      refine ⟨⟨iff_of_false nofun hdense, hbuckets, ?_, nofun⟩, rfl, rfl, fun i => ?_⟩
      · rintro _ ⟨⟩
        exact Bitmap.tidy_zeros buckets
      · simp only [isOccupied, Bitmap.bit_zeros, Bool.and_false]

/-- The tables differ at most in which buckets are occupied. -/
structure Like (table other : Table) : Prop where
  capacity : table.capacity = other.capacity
  seed : table.seed = other.seed

/-! ### Clearing -/

@[simp] theorem capacity_clear (table : Table) : table.clear.capacity = table.capacity := by
  rw [clear]
  split <;> rfl

@[simp] theorem seed_clear (table : Table) : table.clear.seed = table.seed := by
  rw [clear]
  split <;> rfl

@[simp] theorem count_clear (table : Table) : table.clear.count = 0 := by
  rw [clear]
  split <;> rfl

@[simp] theorem bucketCount_clear (table : Table) : table.clear.bucketCount = table.bucketCount := by
  rw [clear, bucketCount, bucketCount]
  cases table.layout <;> rfl

@[simp] theorem isDense_clear (table : Table) : table.clear.isDense = table.isDense := by
  rw [clear, isDense, isDense]
  cases table.layout <;> rfl

@[simp] theorem isOccupied_clear (table : Table) (i : Nat) : table.clear.isOccupied i = false := by
  rw [clear, isOccupied]
  cases table.layout with
  | dense => exact decide_eq_false (Nat.not_lt_zero i)
  | probed occupancy => simp only [Bitmap.bit_clearAll, Bool.and_false]

theorem Shaped.clear (h : table.Shaped) : table.clear.Shaped where
  dense_iff := by rw [isDense_clear, capacity_clear, h.dense_iff]
  buckets := by rw [capacity_clear, bucketCount_clear, h.buckets]
  tidy occupancy hlayout := by
    rw [Table.clear] at hlayout
    cases hold : table.layout with
    | dense =>
      simp only [hold] at hlayout
      cases hlayout
    | probed before =>
      simp only [hold] at hlayout
      obtain rfl : before.clearAll = occupancy := Layout.probed.inj hlayout
      exact Bitmap.tidy_clearAll before
  seedless hlayout := by
    rw [seed_clear]
    rw [Table.clear] at hlayout
    cases hold : table.layout with
    | dense => exact h.seedless hold
    | probed before =>
      simp only [hold] at hlayout
      cases hlayout

theorem Shaped.vacant_eq (h : table.Shaped) (hcount : table.count = 0) (hfree : ∀ i, table.isOccupied i = false) :
    vacant table.capacity table.seed = .ok table := by
  obtain ⟨layout, capacity, count, seed⟩ := table
  obtain rfl : count = 0 := hcount
  rw [vacant, h.buckets]
  cases layout with
  | dense =>
    have hdense : capacity ≤ denseLimit := h.dense_iff.mp rfl
    obtain rfl : seed = 0 := h.seedless rfl
    simp only [if_pos hdense]
    rfl
  | probed occupancy =>
    have hlarge : ¬ capacity ≤ denseLimit := fun hle => Bool.noConfusion (h.dense_iff.mpr hle)
    have hbits : ∀ i, occupancy.bit i = false := by
      intro i
      by_cases hi : i < occupancy.size
      · simpa only [isOccupied, decide_eq_true hi, Bool.true_and] using hfree i
      · exact h.tidy occupancy rfl i (Nat.not_lt.mp hi)
    simp only [if_neg hlarge]
    exact congrArg (fun map => Except.ok (Table.mk (.probed map) capacity 0 seed)) (Bitmap.eq_zeros hbits).symm

end RobinHood.Table
