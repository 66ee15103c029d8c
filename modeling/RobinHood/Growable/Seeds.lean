/-!
# Seeds

Every probed table gets a seed of its own. Where seeds come from is left open: any infinite sequence
of words will do, from which they are drawn one after the other.
-/

namespace RobinHood

/-- A supply of seeds. -/
structure Seeds where
  stream : Nat → UInt64
  drawn : Nat

namespace Seeds

def draw (seeds : Seeds) : UInt64 × Seeds :=
  (seeds.stream seeds.drawn, { seeds with drawn := seeds.drawn + 1 })

def constant (seed : UInt64) : Seeds where
  stream _ := seed
  drawn := 0

end Seeds

end RobinHood
