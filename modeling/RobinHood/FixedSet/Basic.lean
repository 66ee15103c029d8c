import RobinHood.Action
import RobinHood.Comparand
import RobinHood.Hashing.Digest
import RobinHood.Listing
import RobinHood.Table.Seating
import RobinHood.Traversal

/-!
# Sets of fixed capacity

A fixed set is a seating of keys and a hasher. Its capacity never changes. Keys that are equal under
`==` count as one; which of them is stored can be observed. This module holds the set and what can
be asked of it.
-/

namespace RobinHood

/-- A set of at most `table.capacity` keys. -/
structure FixedSet (K : Type) extends Seating K where
  hasher : Hasher K

namespace FixedSet

variable {K : Type}

def vacant (capacity : Nat) (hasher : Hasher K) (seed : UInt64) : Except Fault (FixedSet K) := do
  return { toSeating := ← Seating.vacant capacity seed, hasher }

def size (s : FixedSet K) : Nat :=
  s.table.count

def capacity (s : FixedSet K) : Nat :=
  s.table.capacity

def freeCapacity (s : FixedSet K) : Nat :=
  s.table.freeCapacity

def isEmpty (s : FixedSet K) : Bool :=
  s.table.isEmpty

def isFull (s : FixedSet K) : Bool :=
  s.table.isFull

def hashOf (s : FixedSet K) (key : K) : UInt64 :=
  s.hasher s.table.seed key

/-! ## Looking up a key -/

section Lookup

variable [BEq K]

def search (s : FixedSet K) (key : K) : Except Fault Probe :=
  s.find (s.hashOf key) (· == key)

def contains (s : FixedSet K) (key : K) : Except Fault Bool :=
  return (← s.search key).bucket.isSome

def get? (s : FixedSet K) (key : K) : Except Fault (Option K) := do
  (← s.search key).bucket.mapM s.slots.get

def indexOf? (s : FixedSet K) (key : K) : Except Fault (Option Nat) :=
  return (← s.search key).bucket

end Lookup

/-! ## Indices

An index is the bucket of a member. It may outlive the member: it is valid as long as its bucket is
occupied, whoever sits there. -/

/-- The index of the first member, or the end index. -/
def startIndex (s : FixedSet K) : Nat :=
  (s.table.firstOccupiedFrom 0).getD s.table.endBucket

def endIndex (s : FixedSet K) : Nat :=
  s.table.endBucket

/-- Stops unless `index` addresses a member. -/
def checkIndex (s : FixedSet K) (index : Nat) : Except Fault Unit :=
  if s.table.isOccupied index then return () else throw .indexOutOfBounds

/-- The index of the member after the one at `index`, or the end index. -/
def indexAfter (s : FixedSet K) (index : Nat) : Except Fault Nat := do
  s.checkIndex index
  return (s.table.firstOccupiedFrom (index + 1)).getD s.table.endBucket

/-- The member at `index`. -/
def memberAt (s : FixedSet K) (index : Nat) : Except Fault K := do
  s.checkIndex index
  s.slots.get index

/-- The indices from `index` on, each the one after the last, for at most `fuel` of them. -/
def walkFrom (s : FixedSet K) : (fuel index : Nat) → Except Fault (List Nat)
  | 0, _ => return []
  | fuel + 1, index => do
    if index = s.endIndex then
      return []
    else
      return index :: (← s.walkFrom fuel (← s.indexAfter index))

/-- The indices from the start index to the end index. There are no more of them than positions in
the table. -/
def walk (s : FixedSet K) : Except Fault (List Nat) :=
  s.walkFrom s.endIndex s.startIndex

/-! ## Traversals -/

def iter (s : FixedSet K) : Cursor K :=
  .start s.table s.slots.get

def indices (s : FixedSet K) : Cursor Nat :=
  .start s.table pure

def intoIter (s : FixedSet K) : OwningCursor (Slots K) K :=
  .start s.table s.slots fun bucket slots => slots.take bucket

/-! ## Comparing and digesting -/

def equals [BEq K] (s : FixedSet K) : Comparand (FixedSet K) → Except Fault Bool
  | .itself => return true
  | .other t => do
    if s.size = t.size then (← s.iter.toList).allM t.contains else return false

/-- A hash of the members that does not depend on where they sit. -/
def unorderedHash [Digestible K] (s : FixedSet K) (seed : UInt64) : Except Fault UInt64 :=
  return xorFold ((← s.iter.toList).map (Digest.member seed))

def digestInto [Digestible K] (s : FixedSet K) (digest : Digest) : Except Fault Digest :=
  digest.feedUnordered s.size s.unorderedHash

/-! ## Text -/

def shownMembers [Shown K] (s : FixedSet K) : Except Fault (List String) :=
  return (← s.iter.toList).map shown

end FixedSet

end RobinHood
