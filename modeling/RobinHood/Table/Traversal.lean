import RobinHood.Table.Basic

/-!
# Walking the occupied buckets

A region is a maximal run of consecutive occupied buckets. One cursor steps from region to region,
another flattens the regions into buckets; both go in increasing order and see each occupied
bucket once.
-/

namespace RobinHood

/-- A run of buckets, from `start` up to but not including `stop`. -/
structure Region where
  start : Nat
  stop : Nat
  deriving DecidableEq, Repr

namespace Table

/-- The first region that begins at or after `start`, a position outside of regions or at the
beginning of one. -/
def regionFrom (table : Table) (start : Nat) : Option Region :=
  match table.layout with
  | .dense => if start < table.count then some ⟨start, table.count⟩ else none
  | .probed occupancy =>
    (occupancy.firstSetFrom start).map fun first =>
      ⟨first, (occupancy.firstClearFrom first).getD occupancy.size⟩

/-- A cursor over the regions of a table. -/
structure Regions where
  table : Table
  /-- Where the search for the next region starts. -/
  position : Nat

def regions (table : Table) : Regions where
  table
  position := 0

def Regions.next? (cursor : Regions) : Option (Region × Regions) :=
  (cursor.table.regionFrom cursor.position).map fun region =>
    (region, { cursor with position := region.stop })

/-- A cursor over the occupied buckets of a table. -/
structure Buckets where
  regions : Regions
  /-- What is left of the region at hand. -/
  current : Region

def buckets (table : Table) : Buckets where
  regions := table.regions
  current := ⟨0, 0⟩

/-- The next occupied bucket and the cursor behind it. A region is never empty, so the first
bucket of a new one is occupied. -/
def Buckets.next? (cursor : Buckets) : Option (Nat × Buckets) :=
  if cursor.current.start < cursor.current.stop then
    some (cursor.current.start,
      { cursor with current := ⟨cursor.current.start + 1, cursor.current.stop⟩ })
  else
    cursor.regions.next?.map fun (region, regions) =>
      (region.start, { regions, current := ⟨region.start + 1, region.stop⟩ })

end Table

end RobinHood
