import RobinHood.Cyclic
import RobinHood.Table.Basic
import RobinHood.Table.Move

/-!
# Closing the gap of a removed element

Freeing a bucket leaves a gap. A dense table fills it with its last occupant. A probed table scans
on to the end of the run and moves back every occupant whose home does not lie between the gap and
its own place, the gap moving along; so no search meets the gap too early, and no marker is left
behind. When the whole table is about to be rebuilt, only the dense layout is kept compact.
-/

namespace RobinHood

namespace Bitmap

/-- Closes the gap at `hole`, scanning from `bucket` for at most `fuel` buckets: the occupancy
that results and the moves that were needed. -/
def closeGap (hashAt : Nat → Except Fault UInt64) :
    (fuel : Nat) → (occupancy : Bitmap) → (hole bucket : Nat) → Except Fault (Bitmap × List Move)
  | 0, _, _, _ => throw .noFreeBucket
  | fuel + 1, occupancy, hole, bucket => do
    if !(← occupancy.isSet bucket) then
      return (occupancy, [])
    else
      let hash ← hashAt bucket
      let beyond := Cyclic.next occupancy.size bucket
      if Cyclic.displacement occupancy.size hash hole
          < Cyclic.displacement occupancy.size hash bucket then
        let shifted ← (← occupancy.set hole).clear bucket
        let (closed, moves) ← closeGap hashAt fuel shifted bucket beyond
        return (closed, .shift bucket hole :: moves)
      else
        closeGap hashAt fuel occupancy hole beyond

end Bitmap

namespace Table

/-- Marks an occupied bucket as free, which leaves a gap. -/
def vacate (table : Table) (bucket : Nat) : Except Fault Table := do
  let layout ← match table.layout with
    | .dense => pure Layout.dense
    | .probed occupancy => Layout.probed <$> occupancy.clear bucket
  if table.count = 0 then
    throw .countUnderflow
  return { table with layout, count := table.count - 1 }

/-- The move that fills a gap with the last occupant of a dense table. -/
def fillFromEnd (table : Table) (hole : Nat) : List Move :=
  if hole = table.count then [] else [.shift table.count hole]

/-- Closes the gap at `hole`: the table that results and what the slots have to perform. -/
def close (table : Table) (hole : Nat) (hashAt : Nat → Except Fault UInt64) :
    Except Fault (Table × List Move) :=
  match table.layout with
  | .dense => return (table, table.fillFromEnd hole)
  | .probed occupancy => do
    let (closed, moves) ← Bitmap.closeGap hashAt occupancy.size occupancy hole
      (Cyclic.next occupancy.size hole)
    return ({ table with layout := .probed closed }, moves)

/-- What the slots have to perform at a gap when the whole table is about to be rebuilt: searches
in a probed table may miss elements from then on. -/
def abandon (table : Table) (hole : Nat) : List Move :=
  match table.layout with
  | .dense => table.fillFromEnd hole
  | .probed _ => []

end Table

end RobinHood
