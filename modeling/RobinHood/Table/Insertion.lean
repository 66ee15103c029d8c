import RobinHood.Cyclic
import RobinHood.Table.Basic
import RobinHood.Table.Move

/-!
# Placing a new element

In a dense table the new element takes the first free bucket. In a probed table it probes from its
home, and takes the place of the first resident that sits closer to its own home than the new
element would; the displaced resident goes on in the same way, until one settles in a free bucket.
The hashes of residents come from the container, as the table does not know its elements.
-/

namespace RobinHood

/-- The result of placing a new element. -/
structure Placement where
  table : Table
  /-- What the slots have to perform, with the new element in hand. -/
  moves : List Move
  /-- The bucket in which the new element ends up. -/
  landed : Nat
  deriving DecidableEq

namespace Bitmap

/-- The moves that seat an element which reaches `bucket` at `distance` buckets past its home,
probing at most `fuel` buckets, and the free bucket that they fill. -/
def displace (occupancy : Bitmap) (hashAt : Nat → Except Fault UInt64) :
    (fuel bucket distance : Nat) → Except Fault (List Move × Nat)
  | 0, _, _ => throw .noFreeBucket
  | fuel + 1, bucket, distance => do
    if !(← occupancy.isSet bucket) then
      return ([.settle bucket], bucket)
    else
      let resident := Cyclic.displacement occupancy.size (← hashAt bucket) bucket
      let beyond := Cyclic.next occupancy.size bucket
      if resident < distance then
        let (moves, free) ← occupancy.displace hashAt fuel beyond (resident + 1)
        return (.swap bucket :: moves, free)
      else
        occupancy.displace hashAt fuel beyond (distance + 1)

end Bitmap

namespace Table

/-- Places a new element with the given hash, where `hashAt` gives the hash of an occupant. -/
def place (table : Table) (hash : UInt64) (hashAt : Nat → Except Fault UInt64) :
    Except Fault Placement :=
  match table.layout with
  | .dense =>
    return {
      table := { table with count := table.count + 1 }
      moves := [.settle table.count]
      landed := table.count }
  | .probed occupancy => do
    let (moves, free) ←
      occupancy.displace hashAt occupancy.size (Cyclic.home occupancy.size hash) 0
    let filled ← occupancy.set free
    return {
      table := { table with layout := .probed filled, count := table.count + 1 }
      moves
      landed := (moves.head?.map Move.target).getD free }

end Table

end RobinHood
