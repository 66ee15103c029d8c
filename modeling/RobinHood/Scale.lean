import RobinHood.Fault

/-!
# The growth sequence

Growing containers take their capacities from `0, 1, 2, 4, 7, 14, 28, 56, ...`: a scale `s + 1`
has `2 ^ s` buckets, and from eight buckets on an eighth of them stays free. Scales are
below 64, the width of a machine word.
-/

namespace RobinHood.Scale

/-- Number of bits of a machine word, and of scales. -/
def wordBits : Nat := 64

/-- How many of `buckets` buckets may be occupied. -/
def load (buckets : Nat) : Nat :=
  if buckets ≤ 4 then buckets else buckets - buckets / 8

def capacity : Nat → Nat
  | 0 => 0
  | s + 1 => load (1 <<< s)

/-- The least scale whose capacity is at least `required`. -/
def ofCapacity (required : Nat) : Except Fault Nat :=
  match (List.range wordBits).find? fun s => required ≤ capacity s with
  | some s => .ok s
  | none => .error .capacityOverflow

/-- The least capacity of the sequence that is at least `required`. -/
def fitting (required : Nat) : Except Fault Nat :=
  return capacity (← ofCapacity required)

/-- A removal at a scale shrinks the storage when at most this many elements were present. -/
def lowWater (scale : Nat) : Nat :=
  if scale < 2 then 0 else capacity (scale - 1) / 2

/-- The sum of two counts, if it is a machine word. -/
def total (count additional : Nat) : Except Fault Nat :=
  if count + additional < 1 <<< wordBits then .ok (count + additional) else .error .capacityOverflow

end RobinHood.Scale
