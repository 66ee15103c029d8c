import RobinHood.Hashing.Digest
import RobinHood.Text.Quoted
import RobinHood.Listing

/-!
# Values

The values of sample dictionaries: numbers and texts, a value without content, and one that differs
from itself.
-/

namespace RobinHood

/-- A value of a dictionary. -/
inductive Datum where
  | number (n : Int64)
  | text (s : String)
  /-- The value without content. -/
  | nothing
  /-- The value that differs from itself. -/
  | indefinite
  deriving DecidableEq

namespace Datum

/-- Equality as a dictionary's user sees it. -/
instance : BEq Datum where
  beq
    | number m, number n => m = n
    | text s, text t => s = t
    | nothing, nothing => true
    | _, _ => false

instance : Digestible Datum where
  bytes
    | number n => littleEndian n.toUInt64
    | text s => s.toUTF8.toList ++ [0xff]
    | nothing => []
    | indefinite => littleEndian 0x7ff8000000000000

instance : Shown Datum where
  shown
    | number n => toString n.toInt
    | text s => Text.Quoted.quote s
    | nothing => "()"
    | indefinite => "NaN"

/-- Whether a value comes before another or is the same: the empty one, the indefinite one, numbers,
texts by their bytes. -/
def atMost : Datum → Datum → Bool
  | nothing, _ => true
  | indefinite, nothing => false
  | indefinite, _ => true
  | number _, nothing => false
  | number _, indefinite => false
  | number m, number n => m ≤ n
  | number _, text _ => true
  | text s, text t => s ≤ t
  | text _, _ => false

/-- Whether two numbers have the same non-negative remainder by a modulus; equality for others. -/
def congruent (modulus : Int64) : Datum → Datum → Bool
  | number m, number n => m.toInt % modulus.toInt = n.toInt % modulus.toInt
  | x, y => x == y

/-- Adds to a number, wrapping around at 64 bits; other values stay. -/
def add (amount : Int64) : Datum → Datum
  | number n => number (n + amount)
  | x => x

end Datum

end RobinHood
