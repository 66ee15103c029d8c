import RobinHood.Listing

/-!
# Rejected elements

A checked insertion into a full container hands the element back instead of stopping.
-/

namespace RobinHood

/-- An element handed back by a container that has no room for it. -/
structure Rejected (α : Type) where
  item : α
  deriving DecidableEq, Repr

namespace Rejected

variable {α : Type}

def message (_ : Rejected α) : String :=
  "fixed capacity exhausted"

instance [Shown α] : Shown (Rejected α) where
  shown rejected := "CapacityOverflow(" ++ shown rejected.item ++ ")"

end Rejected

instance {α β : Type} [Shown α] [Shown β] : Shown (α × β) where
  shown pair := "(" ++ shown pair.1 ++ ", " ++ shown pair.2 ++ ")"

end RobinHood
