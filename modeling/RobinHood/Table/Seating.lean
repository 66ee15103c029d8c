import RobinHood.Table.Insertion
import RobinHood.Table.Probe
import RobinHood.Table.Removal

/-!
# Seatings

A seating is a table together with one slot for each bucket, so that every occupied bucket has an
occupant. The hash of an occupant is a function of the occupant. Whatever changes a seating also
answers the moves that were performed, for other slots that have to follow.
-/

namespace RobinHood

/-- A table and the elements in its buckets. -/
structure Seating (α : Type) where
  table : Table
  slots : Slots α
  deriving DecidableEq

structure Seated (α : Type) where
  seating : Seating α
  moves : List Move
  /-- The bucket of the new element. -/
  landed : Nat

structure Unseated (α : Type) where
  seating : Seating α
  moves : List Move
  /-- The removed element. -/
  element : α

namespace Seating

variable {α : Type}

def vacant (capacity : Nat) (seed : UInt64) : Except Fault (Seating α) := do
  let table ← Table.vacant capacity seed
  return { table, slots := .vacant table.bucketCount }

/-- Searches for an occupant with the given hash that satisfies `isMatch`. -/
def find (s : Seating α) (hash : UInt64) (isMatch : α → Bool) : Except Fault Probe :=
  s.table.find hash fun bucket => isMatch <$> s.slots.get bucket

def seat (s : Seating α) (hashOf : α → UInt64) (x : α) (hash : UInt64) :
    Except Fault (Seated α) := do
  let placed ← s.table.place hash fun bucket => hashOf <$> s.slots.get bucket
  let slots ← s.slots.perform (some x) placed.moves
  return {
    seating := { table := placed.table, slots }
    moves := placed.moves
    landed := placed.landed }

/-- Removes the element in an occupied bucket and closes the gap. -/
def unseat (s : Seating α) (hashOf : α → UInt64) (bucket : Nat) : Except Fault (Unseated α) := do
  let table ← s.table.vacate bucket
  let (element, slots) ← s.slots.take bucket
  let (table, moves) ← table.close bucket fun i => hashOf <$> slots.get i
  let slots ← slots.perform none moves
  return { seating := { table, slots }, moves, element }

/-- Removes the element in an occupied bucket from a seating that is about to be rebuilt: searches
may miss elements from then on. -/
def abandon (s : Seating α) (bucket : Nat) : Except Fault (Unseated α) := do
  let table ← s.table.vacate bucket
  let (element, slots) ← s.slots.take bucket
  let moves := table.abandon bucket
  let slots ← slots.perform none moves
  return { seating := { table, slots }, moves, element }

def clear (s : Seating α) : Seating α where
  table := s.table.clear
  slots := s.slots.clear

end Seating

end RobinHood
