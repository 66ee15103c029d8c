/-!
# Buckets in a circle

The buckets of a hashed table form a circle of `n`: the one after the last is the first. The home
of a hash is its remainder, and the distance from one bucket to another is counted forward.
-/

namespace RobinHood.Cyclic

/-- The bucket where an element with this hash belongs. -/
def home (n : Nat) (hash : UInt64) : Nat :=
  hash.toNat % n

def next (n bucket : Nat) : Nat :=
  (bucket + 1) % n

/-- The number of steps forward from `source` to `target`. -/
def distance (n source target : Nat) : Nat :=
  (target + n - source) % n

/-- How far past its home an element with this hash sits at `bucket`. -/
def displacement (n : Nat) (hash : UInt64) (bucket : Nat) : Nat :=
  distance n (home n hash) bucket

end RobinHood.Cyclic
