/-!
# What a container is compared with

A container compared with itself is equal whatever its elements are, also if some of them differ
from themselves; only the caller knows whether two containers are one and the same.
-/

namespace RobinHood

/-- The other side of a comparison. -/
inductive Comparand (C : Type) where
  /-- The very same container. -/
  | itself
  /-- A container of its own, whatever its contents. -/
  | other (container : C)

end RobinHood
