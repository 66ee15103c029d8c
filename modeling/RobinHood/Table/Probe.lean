import RobinHood.Cyclic
import RobinHood.Table.Basic

/-!
# Finding an occupant

A dense table is scanned in order. A probed table is searched from the home of the hash up to the
first free bucket: elements never sit past a gap.
-/

namespace RobinHood

/-- The outcome of a search. -/
structure Probe where
  /-- Where the match sits, if there is one. -/
  bucket : Option Nat
  /-- The hash searched for; zero in a dense table, which has no use for it. -/
  hash : UInt64
  deriving DecidableEq, Repr

namespace Bitmap

/-- Searches for a match from `bucket` to the next free bucket, for at most `fuel` buckets. -/
def seek (occupancy : Bitmap) (isMatch : Nat → Except Fault Bool) :
    (fuel bucket : Nat) → Except Fault (Option Nat)
  | 0, _ => throw .noFreeBucket
  | fuel + 1, bucket => do
    if !(← occupancy.isSet bucket) then
      return none
    else if ← isMatch bucket then
      return some bucket
    else
      occupancy.seek isMatch fuel (Cyclic.next occupancy.size bucket)

end Bitmap

namespace Table

/-- Searches the occupied buckets for a match of an element with the given hash. -/
def find (table : Table) (hash : UInt64) (isMatch : Nat → Except Fault Bool) :
    Except Fault Probe :=
  match table.layout with
  | .dense => return { bucket := ← (List.range table.count).findM? isMatch, hash := 0 }
  | .probed occupancy =>
    return {
      bucket := ← occupancy.seek isMatch occupancy.size (Cyclic.home occupancy.size hash)
      hash }

end Table

end RobinHood
