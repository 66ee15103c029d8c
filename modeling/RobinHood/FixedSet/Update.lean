import RobinHood.FixedSet.Basic
import RobinHood.Rejected

/-!
# Changing a fixed set

Insertion keeps a member that equals the offered key, an update replaces it. Both stop with
`setFull`, and change nothing, when a new member does not fit. A removal closes the gap it leaves.
-/

namespace RobinHood.FixedSet

variable {K : Type}

/-- Places a key that is not a member, and answers its bucket. Unless the table is dense, the hash
must be that of the key in this set. -/
def insertNew (key : K) (hash : UInt64) : Action (FixedSet K) Nat := do
  let s ← get
  if s.isFull then
    throw .setFull
  let seated ← s.seat s.hashOf key hash
  set { s with toSeating := seated.seating }
  return seated.landed

/-- Inserts a key unless some member equals it, in which case the key is answered. -/
def insert [BEq K] (key : K) : Action (FixedSet K) (Option K) := do
  let probe ← (← get).search key
  if probe.bucket.isSome then
    return some key
  else
    let _ ← insertNew key probe.hash
    return none

/-- Inserts as `insert` does, but hands the key back when it does not fit. -/
def tryInsert [BEq K] (key : K) : Action (FixedSet K) (Except (Rejected K) (Option K)) := do
  let probe ← (← get).search key
  if probe.bucket.isSome then
    return .ok (some key)
  else if (← get).isFull then
    return .error ⟨key⟩
  else
    let _ ← insertNew key probe.hash
    return .ok none

/-- Exchanges the member in a bucket for `key`, and answers that member. -/
def replaceAt (bucket : Nat) (key : K) : Action (FixedSet K) K := do
  let s ← get
  let (old, slots) ← s.slots.exchange bucket key
  set { s with slots }
  return old

/-- Inserts a key; a member that equals it is replaced and answered. -/
def update [BEq K] (key : K) : Action (FixedSet K) (Option K) := do
  let probe ← (← get).search key
  match probe.bucket with
  | some bucket => return some (← replaceAt bucket key)
  | none =>
    let _ ← insertNew key probe.hash
    return none

/-- Removes the member in an occupied bucket and closes the gap. -/
def removeAt (bucket : Nat) : Action (FixedSet K) K := do
  let s ← get
  let unseated ← s.unseat s.hashOf bucket
  set { s with toSeating := unseated.seating }
  return unseated.element

/-- Removes the member in an occupied bucket from a set that is about to be rebuilt: searches may
miss members from then on. -/
def abandonAt (bucket : Nat) : Action (FixedSet K) K := do
  let s ← get
  let unseated ← s.abandon bucket
  set { s with toSeating := unseated.seating }
  return unseated.element

def remove [BEq K] (key : K) : Action (FixedSet K) (Option K) := do
  match (← (← get).search key).bucket with
  | some bucket => return some (← removeAt bucket)
  | none => return none

def removeAll : Action (FixedSet K) Unit :=
  modify fun s =>
    if s.isEmpty then s else { s with toSeating := s.toSeating.clear }

def extend [BEq K] (keys : List K) : Action (FixedSet K) Unit :=
  keys.forM fun key => do let _ ← insert key

end RobinHood.FixedSet
