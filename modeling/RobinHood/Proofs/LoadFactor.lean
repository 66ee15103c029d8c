import Mathlib.Order.Bounds.Defs
import RobinHood.Proofs.Reachable
import RobinHood.Proofs.Scale.Words

/-!
# Scales, buckets and the load of a table

The search for a scale is exact on all capacities: it finds the least scale that is large enough, and is refused
exactly past the largest capacity. So the buckets of a table are as few as the load allows: as many as the capacity
where that is small, and otherwise the least power of two of which seven eighths are enough. The last eighth stays
free, however full the table gets.
-/

namespace RobinHood

variable {K : Type}

namespace Scale

theorem ofCapacity_eq_error_iff {required : Nat} :
    ofCapacity required = .error .capacityOverflow ↔ limit < required := by
  constructor
  · intro hrefused
    by_contra hle
    obtain ⟨s, hs⟩ := exists_ofCapacity (Nat.not_lt.mp hle)
    rw [hs] at hrefused
    cases hrefused
  · exact ofCapacity_of_limit_lt

/-- A scale is large enough exactly from the one on that the search finds. -/
theorem le_capacity_iff_of_ofCapacity {required s : Nat} (h : ofCapacity required = .ok s) (t : Nat) :
    required ≤ capacity t ↔ s ≤ t := by
  obtain ⟨-, hle, hmin⟩ := ofCapacity_eq_ok_iff.mp h
  constructor
  · intro ht
    by_contra hlt
    exact absurd ht (Nat.not_le.mpr (hmin t (Nat.not_le.mp hlt)))
  · exact fun hst => Nat.le_trans hle (capacity_strictMono.monotone hst)

end Scale

namespace Table

variable {table : Table} {capacity buckets : Nat} {seed : UInt64}

theorem vacant_eq_error_iff : vacant capacity seed = .error .capacityOverflow ↔ Scale.limit < capacity := by
  constructor
  · intro hrefused
    by_contra hle
    obtain ⟨table, hmade⟩ := exists_vacant seed (Nat.not_lt.mp hle)
    rw [hmade] at hrefused
    cases hrefused
  · exact vacant_of_limit_lt seed

theorem four_le_of_bucketsFor (hlarge : denseLimit < capacity) (hbuckets : bucketsFor capacity = .ok buckets) :
    4 ≤ buckets / 8 ∧ capacity ≤ buckets - buckets / 8 := by
  obtain ⟨k, hscale, rfl⟩ := exists_eq_of_bucketsFor hlarge hbuckets
  obtain ⟨-, hle, -⟩ := Scale.ofCapacity_eq_ok_iff.mp hscale
  rw [Scale.capacity_add_four] at hle
  have htwo : 2 ≤ k := by
    by_contra hk
    have hpow : 2 ^ k ≤ 2 ^ 1 := Nat.pow_le_pow_right (by decide) (by omega)
    have : 15 < capacity := hlarge
    omega
  have hfour : 2 ^ 2 ≤ 2 ^ k := Nat.pow_le_pow_right (by decide) htwo
  omega

/-- No smaller power of two leaves an eighth of its buckets free. -/
theorem le_of_bucketsFor {j : Nat} (hlarge : denseLimit < capacity) (hbuckets : bucketsFor capacity = .ok buckets)
    (henough : capacity ≤ 2 ^ j - 2 ^ j / 8) : buckets ≤ 2 ^ j := by
  obtain ⟨k, hscale, rfl⟩ := exists_eq_of_bucketsFor hlarge hbuckets
  have hthree : 3 ≤ j := by
    by_contra hj
    have hpow : 2 ^ j ≤ 2 ^ 2 := Nat.pow_le_pow_right (by decide) (by omega)
    have : 15 < capacity := hlarge
    omega
  obtain ⟨t, rfl⟩ : ∃ t, j = t + 3 := ⟨j - 3, by omega⟩
  have hpow : 2 ^ (t + 3) = 8 * 2 ^ t := by rw [Nat.pow_add, Nat.mul_comm]
  have hcap : capacity ≤ Scale.capacity (t + 4) := by
    rw [Scale.capacity_add_four]
    omega
  have hkt : k + 4 ≤ t + 4 := (Scale.le_capacity_iff_of_ofCapacity hscale _).mp hcap
  rw [hpow]
  exact Nat.mul_le_mul_left 8 (Nat.pow_le_pow_right (by decide) (by omega))

theorem isLeast_bucketsFor (hlarge : denseLimit < capacity) (hbuckets : bucketsFor capacity = .ok buckets) :
    IsLeast {b | (∃ k, b = 2 ^ k) ∧ capacity ≤ b - b / 8} buckets := by
  refine ⟨⟨?_, (four_le_of_bucketsFor hlarge hbuckets).2⟩, ?_⟩
  · obtain ⟨k, -, rfl⟩ := exists_eq_of_bucketsFor hlarge hbuckets
    exact ⟨k + 3, by rw [Nat.pow_add, Nat.mul_comm]⟩
  · rintro _ ⟨⟨j, rfl⟩, henough⟩
    exact le_of_bucketsFor hlarge hbuckets henough

def freeBuckets (table : Table) : Nat :=
  (List.range table.bucketCount).countP fun i => !table.isOccupied i

end Table

theorem Seating.InStep.freeBuckets_add_count {s : Seating K} (h : s.InStep) :
    s.table.freeBuckets + s.table.count = s.table.bucketCount := by
  have hcount : s.table.count = (List.range s.table.bucketCount).countP s.table.isOccupied := by
    rw [h.count, Slots.length_elements_eq_countP, h.size_slots]
    exact congrArg (List.countP · _) (funext fun i => (h.occupied i).symm)
  have hsplit : s.table.bucketCount = s.table.count + s.table.freeBuckets := by
    have hlength : (List.range s.table.bucketCount).length = _ := List.length_eq_countP_add_countP s.table.isOccupied
    simpa only [List.length_range, Bool.not_eq_true, Bool.decide_eq_false, ← hcount, Table.freeBuckets] using hlength
  omega

theorem Seating.InStep.div_le_freeBuckets {s : Seating K} (h : s.InStep)
    (hlarge : Table.denseLimit < s.table.capacity) :
    4 ≤ s.table.bucketCount / 8 ∧ s.table.bucketCount / 8 ≤ s.table.freeBuckets := by
  obtain ⟨hfour, hload⟩ := Table.four_le_of_bucketsFor hlarge h.shaped.buckets
  have hsum := h.freeBuckets_add_count
  have hle := h.count_le
  omega

/-- The search for a scale is refused exactly past the largest capacity and otherwise finds the least scale; it
undoes the capacities of the sequence, and no step of it wraps around. A table has as many buckets as its capacity
if that is at most 15, and otherwise the least power of two of which seven eighths are enough; so at least an eighth
of the buckets, and never fewer than four, is free in every table that can come about, be it full. -/
theorem scales_and_buckets_least [BEq K] (hasher : Hasher K) :
    (∀ c, Scale.climb c 0 = .exact (Scale.ofCapacity c) ∧
      (Scale.ofCapacity c = .error .capacityOverflow ↔ 7 * 2 ^ 59 < c) ∧
      (c ≤ 7 * 2 ^ 59 → ∃ s ≤ 63, Scale.ofCapacity c = .ok s ∧ IsLeast {t | c ≤ Scale.capacity t} s ∧
        ∀ t ≤ 63, c ≤ Scale.capacity t ↔ s ≤ t)) ∧
    (∀ s ≤ 63, Scale.capacityInWords s = .exact (.ok (Scale.capacity s)) ∧
      Scale.ofCapacity (Scale.capacity s) = .ok s) ∧
    (∀ c seed, Table.bucketsInWords c = .exact (Table.bucketsFor c) ∧
      (Table.vacant c seed = .error .capacityOverflow ↔ 7 * 2 ^ 59 < c) ∧
      (c ≤ 7 * 2 ^ 59 → ∃ table, Table.vacant c seed = .ok table ∧ table.capacity = c ∧
        (c ≤ 15 → table.bucketCount = c) ∧
        (15 < c → IsLeast {b | (∃ k, b = 2 ^ k) ∧ c ≤ b - b / 8} table.bucketCount))) ∧
    (∀ s : FixedSet K, AnySet.Reachable hasher (.fixed s) → 15 < s.capacity →
      4 ≤ s.table.bucketCount / 8 ∧ s.table.bucketCount / 8 ≤ s.table.freeBuckets) ∧
    Fault.capacityOverflow.message = "capacity overflow" := by
  refine ⟨fun c => ⟨Scale.climb_zero c, Scale.ofCapacity_eq_error_iff, fun hle => ?_⟩, fun s hs => ?_,
    fun c seed => ⟨Table.bucketsInWords_eq c, Table.vacant_eq_error_iff, fun hle => ?_⟩, fun s hs hlarge => ?_, rfl⟩
  · obtain ⟨s, hfound⟩ := Scale.exists_ofCapacity hle
    have hiff := Scale.le_capacity_iff_of_ofCapacity hfound
    have hs : s < Scale.wordBits := (Scale.ofCapacity_eq_ok_iff.mp hfound).1
    exact ⟨s, Nat.le_of_lt_succ hs, hfound, ⟨(hiff s).mpr (Nat.le_refl s), fun t => (hiff t).mp⟩, fun t _ => hiff t⟩
  · have hlt : s < Scale.wordBits := Nat.lt_succ_of_le hs
    exact ⟨Scale.capacityInWords_eq hlt, Scale.ofCapacity_capacity hlt⟩
  · obtain ⟨table, hmade⟩ := Table.exists_vacant seed hle
    obtain ⟨hshaped, rfl, -, -⟩ := Table.vacant_eq_ok hmade
    refine ⟨table, hmade, rfl, fun hsmall => ?_, fun hlarge => Table.isLeast_bucketsFor hlarge hshaped.buckets⟩
    have hbuckets := hshaped.buckets
    rw [Table.bucketsFor, if_pos (show table.capacity ≤ Table.denseLimit from hsmall)] at hbuckets
    exact (Except.ok.inj hbuckets).symm
  · obtain ⟨c, m, hsteady⟩ := hs.steady
    exact hsteady.inStep.div_le_freeBuckets hlarge

/-- Twenty-eight keys fill a table of 32 buckets, of which an eighth is free; the largest capacity has the last
scale, and the next larger number none. -/
theorem scales_and_buckets_least_full : ∃ s : FixedSet Nat,
    AnySet.Reachable (fun _ key => key.toUInt64) (.fixed s) ∧ s.isFull = true ∧ s.table.bucketCount = 32 ∧
    4 ≤ 32 / 8 ∧ 32 / 8 ≤ s.table.freeBuckets ∧ Scale.ofCapacity (7 * 2 ^ 59) = .ok 63 ∧
    Scale.ofCapacity (7 * 2 ^ 59 + 1) = .error .capacityOverflow := by
  have hnew : AnySet.Reachable (fun _ (key : Nat) => key.toUInt64) (.fixed ⟨_, _⟩) :=
    .fixed (rfl : FixedSet.vacant 28 _ 0 = .ok _)
  have hfilled := hnew.callFixed (.extend (List.range 28) : FixedSet.Call Nat Empty)
  obtain ⟨s, hs, hfull, hlarge, hbuckets⟩ : ∃ s : FixedSet Nat,
      AnySet.Reachable (fun _ key => key.toUInt64) (.fixed s) ∧ s.isFull = true ∧ 15 < s.capacity ∧
      s.table.bucketCount = 32 :=
    ⟨_, hfilled, by decide +kernel, by decide +kernel, by decide +kernel⟩
  obtain ⟨hsearch, hinverse, -, hfree, -⟩ := scales_and_buckets_least fun _ (key : Nat) => key.toUInt64
  obtain ⟨hfour, heighth⟩ := hbuckets ▸ hfree s hs hlarge
  exact ⟨s, hs, hfull, hbuckets, hfour, heighth, (hinverse 63 (by decide)).2, (hsearch _).2.1.mpr (by decide)⟩

end RobinHood
