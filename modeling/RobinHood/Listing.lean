/-!
# Listings

The text of a container lists its elements between braces, on one line or with a line for each.
-/

namespace RobinHood

/-- Values with a text that fits on one line. -/
class Shown (α : Type) where
  shown : α → String

export Shown (shown)

namespace Listing

def inline (items : List String) : String :=
  "\x7b" ++ ", ".intercalate items ++ "\x7d"

/-- The elements between braces, each on an indented line of its own. -/
def block (items : List String) : String :=
  if items.isEmpty then inline []
  else "\x7b\n" ++ String.join (items.map fun item => "    " ++ item ++ ",\n") ++ "\x7d"

end Listing

end RobinHood
