import Mathlib.Algebra.Group.Nat.Defs
import Mathlib.Order.Monotone.Basic
import RobinHood.Scale

/-!
# The growth sequence rises

From the fourth scale on the capacities are seven times a power of two, and before it they are
`0, 1, 2, 4`; so they rise strictly, and a search among the scales finds the least one that is large
enough exactly when the largest capacity is.
-/

namespace RobinHood.Scale

/-- The largest capacity of the growth sequence. -/
def limit : Nat := 7 * 2 ^ 59

theorem capacity_add_four (k : Nat) : capacity (k + 4) = 7 * 2 ^ k := by
  have hpow : (1 <<< (k + 3) : Nat) = 8 * 2 ^ k := by
    rw [Nat.one_shiftLeft, Nat.pow_add, Nat.mul_comm]
  have hpos : 0 < 2 ^ k := Nat.two_pow_pos k
  change load (1 <<< (k + 3)) = 7 * 2 ^ k
  rw [hpow, load, if_neg (by omega)]
  omega

theorem capacity_lt_succ (s : Nat) : capacity s < capacity (s + 1) := by
  match s with
  | 0 => decide
  | 1 => decide
  | 2 => decide
  | 3 => decide
  | k + 4 =>
    rw [capacity_add_four, show k + 4 + 1 = k + 1 + 4 by omega, capacity_add_four, Nat.pow_succ]
    have hpos : 0 < 2 ^ k := Nat.two_pow_pos k
    omega

/-- Each capacity is about twice the one before: not by more than one off, which the first ones need. -/
theorem capacity_succ_le (s : Nat) : capacity (s + 1) ≤ 2 * capacity s + 1 ∧ 2 * capacity s ≤ capacity (s + 1) + 1 := by
  match s with
  | 0 => decide
  | 1 => decide
  | 2 => decide
  | 3 => decide
  | k + 4 =>
    rw [show k + 4 + 1 = k + 1 + 4 by omega, capacity_add_four, capacity_add_four, Nat.pow_succ]
    omega

theorem capacity_strictMono : StrictMono capacity :=
  strictMono_nat_of_lt_succ capacity_lt_succ

theorem capacity_le_limit {s : Nat} (hs : s < wordBits) : capacity s ≤ limit := by
  have hle : capacity s ≤ capacity (59 + 4) := capacity_strictMono.monotone (by unfold wordBits at hs; omega)
  rwa [capacity_add_four] at hle

theorem ofCapacity_eq_ok_iff {required s : Nat} :
    ofCapacity required = .ok s ↔
      s < wordBits ∧ required ≤ capacity s ∧ ∀ t < s, capacity t < required := by
  rw [ofCapacity]
  cases hfind : (List.range wordBits).find? fun s => decide (required ≤ capacity s) with
  | none =>
    rw [List.find?_eq_none] at hfind
    refine ⟨nofun, fun ⟨hs, hle, _⟩ => ?_⟩
    exact absurd (decide_eq_true hle) (hfind s (List.mem_range.mpr hs))
  | some t =>
    rw [List.find?_range_eq_some] at hfind
    obtain ⟨hle, ht, hmin⟩ := hfind
    simp only [decide_eq_true_eq, Bool.not_eq_true', decide_eq_false_iff_not, Nat.not_le] at hle hmin
    rw [List.mem_range] at ht
    constructor
    · rintro ⟨⟩
      exact ⟨ht, hle, hmin⟩
    · rintro ⟨_, hle', hmin'⟩
      obtain hlt | rfl | hgt := Nat.lt_trichotomy s t
      · exact absurd hle' (Nat.not_le.mpr (hmin s hlt))
      · rfl
      · exact absurd hle (Nat.not_le.mpr (hmin' t hgt))

theorem exists_ofCapacity {required : Nat} (hle : required ≤ limit) :
    ∃ s, ofCapacity required = .ok s := by
  cases hof : ofCapacity required with
  | ok s => exact ⟨s, rfl⟩
  | error fault =>
    have hlast : required ≤ capacity (59 + 4) := by rwa [capacity_add_four]
    rw [ofCapacity] at hof
    cases hfind : (List.range wordBits).find? fun s => decide (required ≤ capacity s) with
    | some t =>
      rw [hfind] at hof
      cases hof
    | none =>
      rw [List.find?_eq_none] at hfind
      exact absurd (decide_eq_true hlast) (hfind 63 (by decide))

theorem ofCapacity_of_limit_lt {required : Nat} (hlt : limit < required) :
    ofCapacity required = .error .capacityOverflow := by
  cases hof : ofCapacity required with
  | ok s =>
    obtain ⟨hs, hle, _⟩ := ofCapacity_eq_ok_iff.mp hof
    have := capacity_le_limit hs
    omega
  | error fault =>
    rw [ofCapacity] at hof
    split at hof
    · cases hof
    · exact hof.symm

theorem ofCapacity_capacity {s : Nat} (hs : s < wordBits) : ofCapacity (capacity s) = .ok s :=
  ofCapacity_eq_ok_iff.mpr ⟨hs, le_refl _, fun _ ht => capacity_strictMono ht⟩

def OnSequence (capacity : Nat) : Prop :=
  ∃ s < wordBits, Scale.capacity s = capacity

theorem OnSequence.le_limit {c : Nat} (h : OnSequence c) : c ≤ limit := by
  obtain ⟨s, hs, rfl⟩ := h
  exact capacity_le_limit hs

theorem onSequence_zero : OnSequence 0 := ⟨0, by decide, rfl⟩

/-- The least capacity of the growth sequence that is at least `required`. -/
structure Fits (required capacity : Nat) : Prop where
  onSequence : OnSequence capacity
  le : required ≤ capacity
  least : ∀ c, OnSequence c → required ≤ c → capacity ≤ c

theorem OnSequence.fits {c : Nat} (h : OnSequence c) : Fits c c :=
  ⟨h, le_refl c, fun _ _ hle => hle⟩

/-- A capacity that fits a count fits every larger count that it has room for. -/
theorem Fits.raise {required required' c : Nat} (h : Fits required c) (hmore : required ≤ required')
    (hroom : required' ≤ c) : Fits required' c :=
  ⟨h.onSequence, hroom, fun c' hseq hle => h.least c' hseq (Nat.le_trans hmore hle)⟩

theorem Fits.eq_of_fits {required c c' : Nat} (h : Fits required c) (h' : Fits required c') : c = c' :=
  Nat.le_antisymm (h.least c' h'.onSequence h'.le) (h'.least c h.onSequence h.le)

theorem Fits.eq_next {s c : Nat} (h : Fits (capacity s + 1) c) : c = capacity (s + 1) := by
  obtain ⟨t, ht, rfl⟩ := h.onSequence
  have hst : s < t := capacity_strictMono.lt_iff_lt.mp h.le
  apply Nat.le_antisymm
  · exact h.least _ ⟨s + 1, by omega, rfl⟩ (capacity_lt_succ s)
  · exact capacity_strictMono.monotone hst

theorem Fits.le_double {required c : Nat} (h : Fits required c) : c ≤ 2 * required := by
  obtain ⟨s, hs, rfl⟩ := h.onSequence
  match s with
  | 0 => exact Nat.zero_le _
  | s + 1 =>
    have hbelow : capacity s < required := by
      by_contra hle
      exact absurd (h.least _ ⟨s, by omega, rfl⟩ (Nat.not_lt.mp hle)) (Nat.not_le.mpr (capacity_lt_succ s))
    have hnext := (capacity_succ_le s).1
    omega

theorem fits_of_ofCapacity {required s : Nat} (h : ofCapacity required = .ok s) :
    Fits required (capacity s) := by
  obtain ⟨hs, hle, hleast⟩ := ofCapacity_eq_ok_iff.mp h
  refine ⟨⟨s, hs, rfl⟩, hle, ?_⟩
  rintro _ ⟨t, ht, rfl⟩ hle'
  apply capacity_strictMono.monotone
  by_contra hlt
  have := hleast t (Nat.not_le.mp hlt)
  omega

theorem fits_of_fitting {required c : Nat} (h : fitting required = .ok c) : Fits required c := by
  rw [fitting] at h
  cases hscale : ofCapacity required with
  | error fault =>
    rw [hscale] at h
    cases h
  | ok s =>
    rw [hscale] at h
    obtain rfl : capacity s = c := Except.ok.inj h
    exact fits_of_ofCapacity hscale

theorem exists_fitting {required : Nat} (hle : required ≤ limit) :
    ∃ c, fitting required = .ok c ∧ Fits required c := by
  obtain ⟨s, hs⟩ := exists_ofCapacity hle
  have hfitting : fitting required = .ok (capacity s) := by
    rw [fitting, hs]
    rfl
  exact ⟨capacity s, hfitting, fits_of_fitting hfitting⟩

theorem OnSequence.fitting {c : Nat} (h : OnSequence c) : fitting c = .ok c := by
  obtain ⟨c', hfitting, hfits⟩ := exists_fitting h.le_limit
  rw [hfitting, hfits.eq_of_fits h.fits]

theorem fitting_of_limit_lt {required : Nat} (hlt : limit < required) :
    fitting required = .error .capacityOverflow := by
  rw [fitting, ofCapacity_of_limit_lt hlt]
  rfl

theorem lowWater_le_of_ofCapacity {count s : Nat} (h : ofCapacity count = .ok s) : lowWater s ≤ count := by
  rw [lowWater]
  split
  · exact Nat.zero_le count
  · have hbelow := (ofCapacity_eq_ok_iff.mp h).2.2 (s - 1) (by omega)
    omega

/-- A count below the low-water mark of a scale fits a smaller one. -/
theorem lt_of_lt_lowWater {count s t : Nat} (hlow : count < lowWater s) (h : ofCapacity count = .ok t) : t < s := by
  by_contra hle
  rw [lowWater] at hlow
  split at hlow
  · omega
  · have hbelow := (ofCapacity_eq_ok_iff.mp h).2.2 (s - 1) (by omega)
    omega

/-- A count at the low-water mark is at most a quarter of the capacity, but for the first capacities. -/
theorem quadruple_le_of_le_lowWater {count s : Nat} (hpos : 0 < count) (hlow : count ≤ lowWater s) :
    4 * count ≤ capacity s + 1 := by
  rw [lowWater] at hlow
  split at hlow
  · omega
  · obtain ⟨t, rfl⟩ : ∃ t, s = t + 1 := ⟨s - 1, by omega⟩
    have hnext := (capacity_succ_le t).2
    rw [Nat.add_sub_cancel] at hlow
    omega

theorem total_of_le {count additional : Nat} (hle : count + additional ≤ limit) :
    total count additional = .ok (count + additional) := by
  have hlimit : limit < 1 <<< wordBits := by decide
  rw [total, if_pos (by omega)]

theorem eq_of_total {count additional sum : Nat} (h : total count additional = .ok sum) : sum = count + additional := by
  rw [total] at h
  split at h
  · exact (Except.ok.inj h).symm
  · cases h

end RobinHood.Scale
