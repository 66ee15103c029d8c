import RobinHood.Bitmap
import RobinHood.Scale

/-!
# Tables

A table keeps the books of a container: which buckets are occupied, and how many may be. It never
touches an element. Up to `denseLimit` elements the layout is dense: nothing is hashed, and the
occupied buckets are the first `count`. Beyond that the layout is probed: the buckets are a power
of two, a bitmap records the occupied ones, and an element sits at or after the home its hash
gives it.
-/

namespace RobinHood

/-- How a table assigns buckets. -/
inductive Layout where
  /-- The occupied buckets are the first ones, without hashing. -/
  | dense
  /-- The occupied buckets are found by probing from a home. -/
  | probed (occupancy : Bitmap)
  deriving DecidableEq

/-- The bookkeeping of a container of fixed capacity. -/
structure Table where
  layout : Layout
  capacity : Nat
  count : Nat
  /-- Mixed into every hash that places an element in this table. -/
  seed : UInt64
  deriving DecidableEq

namespace Table

/-- The largest capacity with the dense layout. -/
def denseLimit : Nat := 15

/-- Number of buckets for a capacity: a power of two unless the layout is dense. -/
def bucketsFor (capacity : Nat) : Except Fault Nat :=
  if capacity ≤ denseLimit then .ok capacity
  else return 1 <<< ((← Scale.ofCapacity capacity) - 1)

/-- A table without occupants. The seed is kept only by the probed layout. -/
def vacant (capacity : Nat) (seed : UInt64) : Except Fault Table := do
  let buckets ← bucketsFor capacity
  if capacity ≤ denseLimit then
    return { layout := .dense, capacity, count := 0, seed := 0 }
  else
    return { layout := .probed (.zeros buckets), capacity, count := 0, seed }

def freeCapacity (table : Table) : Nat :=
  table.capacity - table.count

def isEmpty (table : Table) : Bool :=
  table.count == 0

def isFull (table : Table) : Bool :=
  table.count == table.capacity

def isDense (table : Table) : Bool :=
  match table.layout with
  | .dense => true
  | .probed _ => false

/-- Number of slots that a container keeps for this table. -/
def bucketCount (table : Table) : Nat :=
  match table.layout with
  | .dense => table.capacity
  | .probed occupancy => occupancy.size

/-- The position past the last bucket that can be occupied now. -/
def endBucket (table : Table) : Nat :=
  match table.layout with
  | .dense => table.count
  | .probed occupancy => occupancy.size

/-- Whether a bucket is occupied. -/
def isOccupied (table : Table) (bucket : Nat) : Bool :=
  match table.layout with
  | .dense => bucket < table.count
  | .probed occupancy => bucket < occupancy.size && occupancy.bit bucket

def firstOccupiedFrom (table : Table) (start : Nat) : Option Nat :=
  match table.layout with
  | .dense => if start < table.count then some start else none
  | .probed occupancy => occupancy.firstSetFrom start

def clear (table : Table) : Table :=
  match table.layout with
  | .dense => { table with count := 0 }
  | .probed occupancy => { table with layout := .probed occupancy.clearAll, count := 0 }

end Table

end RobinHood
