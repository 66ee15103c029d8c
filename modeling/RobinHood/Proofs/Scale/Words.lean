import RobinHood.Proofs.Table.Shape

/-!
# The growth sequence in machine words

Sizes and capacities are machine words, and scales count their bits. Here the arithmetic of the growth sequence is
done step by step on words, and comes to no answer once a difference falls below zero or a shift is by a whole word or
more. The search for a scale is the loop that steps up and tests each scale before its capacity is computed. All of it
comes to the exact answer, so no step ever wraps around.
-/

namespace RobinHood

/-- A computation on machine words. It may be refused, and has no answer at all if a step wraps around. -/
abbrev Checked := ExceptT Fault Option

namespace Checked

variable {α β : Type}

/-- No step wraps around, and the answer is a given one. -/
def exact (answer : Except Fault α) : Checked α :=
  ExceptT.mk (some answer)

@[simp] theorem exact_ok_bind (a : α) (f : α → Checked β) : (exact (.ok a) >>= f) = f a := rfl

@[simp] theorem exact_error_bind (fault : Fault) (f : α → Checked β) :
    (exact (.error fault) >>= f) = exact (.error fault) := rfl

def sub (a b : Nat) : Checked Nat :=
  if b ≤ a then pure (a - b) else ExceptT.mk none

def bit (k : Nat) : Checked Nat :=
  if k < Scale.wordBits then pure (1 <<< k) else ExceptT.mk none

theorem sub_of_le {a b : Nat} (h : b ≤ a) : sub a b = exact (.ok (a - b)) :=
  if_pos h

theorem bit_of_lt {k : Nat} (h : k < Scale.wordBits) : bit k = exact (.ok (1 <<< k)) :=
  if_pos h

end Checked

open Checked

namespace Scale

def capacityInWords (scale : Nat) : Checked Nat := do
  if scale = 0 then
    return 0
  let buckets ← bit (← sub scale 1)
  if buckets ≤ 4 then
    return buckets
  else
    sub buckets (buckets / 8)

theorem capacityInWords_eq {s : Nat} (hs : s < wordBits) : capacityInWords s = exact (.ok (capacity s)) := by
  match s with
  | 0 => rfl
  | s + 1 =>
    have hbuckets : bit s = exact (.ok (1 <<< s)) := bit_of_lt (by omega)
    have hpart : (1 <<< s) / 8 ≤ 1 <<< s := Nat.div_le_self _ _
    rw [capacityInWords, if_neg (Nat.succ_ne_zero s), sub_of_le (by omega), exact_ok_bind, Nat.add_sub_cancel,
      hbuckets, exact_ok_bind, sub_of_le hpart, capacity, load]
    split <;> rfl

/-- The search for the scale of a capacity, from a scale on. -/
def climb (required scale : Nat) : Checked Nat := do
  if (← capacityInWords scale) < required then
    if _h : scale + 1 < wordBits then
      climb required (scale + 1)
    else
      throw .capacityOverflow
  else
    return scale
termination_by wordBits - scale

/-- Once all scales below have been found too small, what is left of the search comes to the answer. -/
theorem climb_eq {required scale : Nat} (hscale : scale < wordBits) (hsmall : ∀ t < scale, capacity t < required) :
    climb required scale = exact (ofCapacity required) := by
  rw [climb, capacityInWords_eq hscale, exact_ok_bind]
  by_cases hlt : capacity scale < required
  · have hsmall' : ∀ t < scale + 1, capacity t < required := by
      intro t ht
      obtain hbelow | rfl := Nat.lt_succ_iff_lt_or_eq.mp ht
      · exact hsmall t hbelow
      · exact hlt
    rw [if_pos hlt]
    split
    next hnext => exact climb_eq hnext hsmall'
    next hlast =>
      -- the last scale was too small as well
      have hrefused : ofCapacity required = .error .capacityOverflow := by
        apply ofCapacity_of_limit_lt
        obtain rfl : scale = 59 + 4 := by
          unfold wordBits at hscale hlast
          omega
        rwa [capacity_add_four] at hlt
      rw [hrefused]
      rfl
  · rw [if_neg hlt, ofCapacity_eq_ok_iff.mpr ⟨hscale, Nat.not_lt.mp hlt, hsmall⟩]
    rfl
termination_by wordBits - scale

theorem climb_zero (required : Nat) : climb required 0 = exact (ofCapacity required) :=
  climb_eq (by decide) nofun

end Scale

namespace Table

/-- The number of buckets for a capacity, computed on words. -/
def bucketsInWords (capacity : Nat) : Checked Nat := do
  if capacity ≤ denseLimit then
    return capacity
  else
    bit (← sub (← Scale.climb capacity 0) 1)

theorem bucketsInWords_eq (capacity : Nat) : bucketsInWords capacity = exact (bucketsFor capacity) := by
  rw [bucketsInWords, bucketsFor, Scale.climb_zero]
  by_cases hdense : capacity ≤ denseLimit
  · rw [if_pos hdense, if_pos hdense]
    rfl
  · rw [if_neg hdense, if_neg hdense]
    cases hscale : Scale.ofCapacity capacity with
    | error fault => rfl
    | ok s =>
      obtain ⟨hs, hle, -⟩ := Scale.ofCapacity_eq_ok_iff.mp hscale
      have hpos : 1 ≤ s := by
        by_contra hzero
        obtain rfl : s = 0 := by omega
        exact hdense (Nat.le_trans hle (Nat.zero_le _))
      rw [exact_ok_bind, sub_of_le hpos, exact_ok_bind, bit_of_lt (by omega)]
      rfl

end Table

end RobinHood
