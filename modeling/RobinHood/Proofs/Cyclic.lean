import Mathlib.Data.Nat.ModEq
import RobinHood.Cyclic

/-!
# Walking around the circle

Every bucket of a circle of `n` is some number of steps ahead of any other, and below `n` that number
is unique: it is the distance. The rest of the theory speaks of buckets only as so many steps ahead
of a home or a hole, and meets remainders nowhere else.
-/

namespace RobinHood.Cyclic

variable {n : Nat}

def ahead (n bucket steps : Nat) : Nat :=
  (bucket + steps) % n

def previous (n bucket : Nat) : Nat :=
  ahead n bucket (n - 1)

theorem ahead_lt (hn : 0 < n) (bucket steps : Nat) : ahead n bucket steps < n :=
  Nat.mod_lt _ hn

theorem ahead_zero {bucket : Nat} (hbucket : bucket < n) : ahead n bucket 0 = bucket :=
  Nat.mod_eq_of_lt hbucket

theorem ahead_ahead (bucket i j : Nat) : ahead n (ahead n bucket i) j = ahead n bucket (i + j) := by
  rw [ahead, ahead, ahead, Nat.mod_add_mod, Nat.add_assoc]

theorem next_eq_ahead (bucket : Nat) : next n bucket = ahead n bucket 1 := rfl

theorem next_lt (hn : 0 < n) (bucket : Nat) : next n bucket < n :=
  Nat.mod_lt _ hn

theorem next_ahead (bucket steps : Nat) : next n (ahead n bucket steps) = ahead n bucket (steps + 1) := by
  rw [next_eq_ahead, ahead_ahead]

theorem ahead_next (bucket steps : Nat) : ahead n (next n bucket) steps = ahead n bucket (steps + 1) := by
  rw [next_eq_ahead, ahead_ahead, Nat.add_comm]

theorem ahead_add_self (bucket steps : Nat) : ahead n bucket (steps + n) = ahead n bucket steps := by
  rw [ahead, ahead, ← Nat.add_assoc, Nat.add_mod_right]

theorem previous_ahead_succ (hn : 0 < n) (bucket steps : Nat) :
    previous n (ahead n bucket (steps + 1)) = ahead n bucket steps := by
  rw [previous, ahead_ahead, show steps + 1 + (n - 1) = steps + n by omega, ahead_add_self]

theorem previous_next {bucket : Nat} (hbucket : bucket < n) : previous n (next n bucket) = bucket := by
  rw [next_eq_ahead, previous_ahead_succ (by omega), ahead_zero hbucket]

theorem next_previous {bucket : Nat} (hbucket : bucket < n) : next n (previous n bucket) = bucket := by
  rw [previous, next_ahead, show n - 1 + 1 = 0 + n by omega, ahead_add_self, ahead_zero hbucket]

theorem ahead_inj {bucket i j : Nat} (hi : i < n) (hj : j < n)
    (heq : ahead n bucket i = ahead n bucket j) : i = j := by
  have hmod : i ≡ j [MOD n] := Nat.ModEq.add_left_cancel' bucket heq
  exact hmod.eq_of_lt_of_lt hi hj

theorem ahead_ne {bucket i j : Nat} (hi : i < n) (hj : j < n) (hne : i ≠ j) :
    ahead n bucket i ≠ ahead n bucket j :=
  fun heq => hne (ahead_inj hi hj heq)

theorem ahead_ne_self {bucket steps : Nat} (hbucket : bucket < n) (hpos : 0 < steps) (hsteps : steps < n) :
    ahead n bucket steps ≠ bucket := by
  have hne : ahead n bucket steps ≠ ahead n bucket 0 := ahead_ne hsteps (by omega) hpos.ne'
  rwa [ahead_zero hbucket] at hne

theorem ahead_ne_next {bucket steps : Nat} (hfar : 1 < steps) (hsteps : steps < n) :
    ahead n bucket steps ≠ next n bucket :=
  ahead_ne hsteps (by omega) hfar.ne'

/-! ### Distances -/

theorem distance_lt (hn : 0 < n) (source target : Nat) : distance n source target < n :=
  Nat.mod_lt _ hn

theorem distance_ahead {source steps : Nat} (hsource : source < n) (hsteps : steps < n) :
    distance n source (ahead n source steps) = steps := by
  rw [distance, ahead]
  by_cases hwrap : source + steps < n
  · rw [Nat.mod_eq_of_lt hwrap, show source + steps + n - source = steps + n by omega,
      Nat.add_mod_right, Nat.mod_eq_of_lt hsteps]
  · have hmod : (source + steps) % n = source + steps - n := by
      rw [Nat.mod_eq_sub_mod (by omega), Nat.mod_eq_of_lt (by omega)]
    rw [hmod, show source + steps - n + n - source = steps by omega, Nat.mod_eq_of_lt hsteps]

theorem exists_ahead {source target : Nat} (hsource : source < n) (htarget : target < n) :
    ∃ steps < n, ahead n source steps = target := by
  by_cases hle : source ≤ target
  · refine ⟨target - source, by omega, ?_⟩
    rw [ahead, show source + (target - source) = target by omega, Nat.mod_eq_of_lt htarget]
  · refine ⟨target + n - source, by omega, ?_⟩
    rw [ahead, show source + (target + n - source) = target + n by omega, Nat.add_mod_right,
      Nat.mod_eq_of_lt htarget]

theorem ahead_distance {source target : Nat} (hsource : source < n) (htarget : target < n) :
    ahead n source (distance n source target) = target := by
  obtain ⟨steps, hsteps, rfl⟩ := exists_ahead hsource htarget
  rw [distance_ahead hsource hsteps]

theorem distance_self {source : Nat} (hsource : source < n) : distance n source source = 0 := by
  have h := distance_ahead hsource (by omega : 0 < n)
  rwa [ahead_zero hsource] at h

theorem distance_next {source target : Nat} (hsource : source < n) (htarget : target < n)
    (hroom : distance n source target + 1 < n) :
    distance n source (next n target) = distance n source target + 1 := by
  obtain ⟨steps, hsteps, rfl⟩ := exists_ahead hsource htarget
  rw [distance_ahead hsource hsteps] at hroom ⊢
  rw [next_ahead, distance_ahead hsource hroom]

theorem distance_back_of_le {source bucket steps : Nat} (hsource : source < n) (hbucket : bucket < n)
    (hle : steps ≤ distance n source (ahead n bucket steps)) :
    distance n source bucket = distance n source (ahead n bucket steps) - steps := by
  have hn : 0 < n := by omega
  have hlt := distance_lt hn source (ahead n bucket steps)
  obtain ⟨i, hi, rfl⟩ := exists_ahead hsource hbucket
  rw [ahead_ahead] at hle hlt ⊢
  rw [distance_ahead hsource hi]
  by_cases hwrap : i + steps < n
  · rw [distance_ahead hsource hwrap]
    omega
  · obtain ⟨r, hr⟩ : ∃ r, i + steps = r + n := ⟨i + steps - n, by omega⟩
    rw [hr, ahead_add_self] at hle hlt
    rw [distance_ahead hsource (by omega : r < n)] at hle
    omega

theorem distance_back_of_lt {source bucket steps : Nat} (hsource : source < n) (hbucket : bucket < n)
    (hsteps : steps < n) (hlt : distance n source (ahead n bucket steps) < steps) :
    distance n source bucket = n + distance n source (ahead n bucket steps) - steps := by
  obtain ⟨i, hi, rfl⟩ := exists_ahead hsource hbucket
  rw [ahead_ahead] at hlt ⊢
  rw [distance_ahead hsource hi]
  by_cases hwrap : i + steps < n
  · rw [distance_ahead hsource hwrap] at hlt
    omega
  · obtain ⟨r, hr⟩ : ∃ r, i + steps = r + n := ⟨i + steps - n, by omega⟩
    rw [hr, ahead_add_self, distance_ahead hsource (by omega : r < n)]
    omega

/-! ### Homes -/

theorem home_lt (hn : 0 < n) (hash : UInt64) : home n hash < n :=
  Nat.mod_lt _ hn

theorem displacement_home (hn : 0 < n) (hash : UInt64) : displacement n hash (home n hash) = 0 :=
  distance_self (home_lt hn hash)

theorem ahead_displacement {bucket : Nat} (hbucket : bucket < n) (hash : UInt64) :
    ahead n (home n hash) (displacement n hash bucket) = bucket :=
  ahead_distance (home_lt (by omega) hash) hbucket

theorem displacement_next {bucket : Nat} (hash : UInt64) (hbucket : bucket < n)
    (hroom : displacement n hash bucket + 1 < n) :
    displacement n hash (next n bucket) = displacement n hash bucket + 1 :=
  distance_next (home_lt (by omega) hash) hbucket hroom

end RobinHood.Cyclic
