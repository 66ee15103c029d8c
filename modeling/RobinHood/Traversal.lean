import RobinHood.Table.Traversal

/-!
# Traversing a container

A cursor walks the occupied buckets and reads what a container keeps there; an owning cursor takes
the elements out as it goes. Both know how many elements are still to come.
-/

namespace RobinHood

variable {σ α : Type}

/-- At most `n` elements of a traversal whose steps are given by `next?`, and the state after
them. -/
def takeUpTo (next? : σ → Except Fault (Option (α × σ))) : Nat → σ → Except Fault (List α × σ)
  | 0, s => return ([], s)
  | n + 1, s => do
    match ← next? s with
    | none => return ([], s)
    | some (x, s) =>
      let (xs, s) ← takeUpTo next? n s
      return (x :: xs, s)

/-- A cursor over the elements in the occupied buckets of a table. -/
structure Cursor (α : Type) where
  buckets : Table.Buckets
  read : Nat → Except Fault α
  remaining : Nat

namespace Cursor

def start (table : Table) (read : Nat → Except Fault α) : Cursor α where
  buckets := table.buckets
  read
  remaining := table.count

def next? (cursor : Cursor α) : Except Fault (Option (α × Cursor α)) :=
  match cursor.buckets.next? with
  | none => return none
  | some (bucket, buckets) => do
    if cursor.remaining = 0 then
      throw .countUnderflow
    return some (← cursor.read bucket, { cursor with buckets, remaining := cursor.remaining - 1 })

def take (n : Nat) (cursor : Cursor α) : Except Fault (List α × Cursor α) :=
  takeUpTo next? n cursor

/-- All elements still to come. There are no more of them than positions in the table. -/
def toList (cursor : Cursor α) : Except Fault (List α) :=
  Prod.fst <$> cursor.take (cursor.buckets.regions.table.endBucket + 1)

end Cursor

/-- A cursor that takes the elements out of the store `σ` of a container. -/
structure OwningCursor (σ α : Type) where
  table : Table
  store : σ
  /-- Takes the element of a bucket out of the store. -/
  takeAt : Nat → σ → Except Fault (α × σ)
  /-- Where the search for the next element starts. -/
  position : Nat
  remaining : Nat

namespace OwningCursor

def start (table : Table) (store : σ) (takeAt : Nat → σ → Except Fault (α × σ)) :
    OwningCursor σ α where
  table
  store
  takeAt
  position := 0
  remaining := table.count

def next? (cursor : OwningCursor σ α) : Except Fault (Option (α × OwningCursor σ α)) :=
  match cursor.table.firstOccupiedFrom cursor.position with
  | none => return none
  | some bucket => do
    if cursor.remaining = 0 then
      throw .countUnderflow
    let (x, store) ← cursor.takeAt bucket cursor.store
    return some (x, { cursor with
      store, position := bucket + 1, remaining := cursor.remaining - 1 })

def take (n : Nat) (cursor : OwningCursor σ α) : Except Fault (List α × OwningCursor σ α) :=
  takeUpTo next? n cursor

/-- All elements still to come. There are no more of them than positions in the table. -/
def toList (cursor : OwningCursor σ α) : Except Fault (List α) :=
  Prod.fst <$> cursor.take (cursor.table.endBucket + 1)

end OwningCursor

end RobinHood
