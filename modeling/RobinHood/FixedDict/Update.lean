import RobinHood.FixedDict.Basic
import RobinHood.Rejected

/-!
# Changing a fixed dictionary

Every change of place that the keys' table asks for is performed on the keys and on the values.
Insertion keeps a value that is present, an update replaces the value and keeps the stored key.
Both stop with `dictionaryFull`, and change nothing, when a new entry does not fit.
-/

namespace RobinHood.FixedDict

variable {K V : Type}

/-- Places an entry whose key is not present, and answers its bucket. Unless the table is dense, the
hash must be that of the key in this dictionary. -/
def insertNew (key : K) (value : V) (hash : UInt64) : Action (FixedDict K V) Nat := do
  let d ← get
  if d.isFull then
    throw .dictionaryFull
  let seated ← (d.keys.seat d.keys.hashOf key hash).mapError Fault.ofEntry
  let values ← (d.values.perform (some value) seated.moves).mapError Fault.ofEntry
  set { d with keys := { d.keys with toSeating := seated.seating }, values }
  return seated.landed

/-- Adds a value under a key unless the key is present, in which case the value is answered. -/
def insert [BEq K] (key : K) (value : V) : Action (FixedDict K V) (Option V) := do
  let probe ← (← get).keys.search key
  if probe.bucket.isSome then
    return some value
  else
    let _ ← insertNew key value probe.hash
    return none

/-- Adds as `insert` does, but hands the entry back when it does not fit. -/
def tryInsert [BEq K] (key : K) (value : V) :
    Action (FixedDict K V) (Except (Rejected (K × V)) (Option V)) := do
  let probe ← (← get).keys.search key
  if probe.bucket.isSome then
    return .ok (some value)
  else if (← get).isFull then
    return .error ⟨(key, value)⟩
  else
    let _ ← insertNew key value probe.hash
    return .ok none

/-- Exchanges the value in a bucket for `value`, and answers the old one. -/
def replaceIn (bucket : Nat) (value : V) : Action (FixedDict K V) V := do
  let d ← get
  let (old, values) ← d.values.exchange bucket value
  set { d with values }
  return old

/-- Stores a value under a key, and answers the value it replaces. -/
def update [BEq K] (key : K) (value : V) : Action (FixedDict K V) (Option V) := do
  let probe ← (← get).keys.search key
  match probe.bucket with
  | some bucket => return some (← replaceIn bucket value)
  | none =>
    let _ ← insertNew key value probe.hash
    return none

/-- Replaces the value of a present key, and answers the old one. -/
def replace [BEq K] (key : K) (value : V) : Action (FixedDict K V) (Option V) := do
  match (← (← get).keys.search key).bucket with
  | some bucket => return some (← replaceIn bucket value)
  | none => return none

/-- Replaces the value of the entry at `index`, and answers the old one. -/
def replaceAt (index : Nat) (value : V) : Action (FixedDict K V) V := do
  (← get).keys.checkIndex index
  replaceIn index value

def takeValue (bucket : Nat) : Action (FixedDict K V) (Option V) := do
  let d ← get
  let (value, values) ← d.values.takeCell bucket
  set { d with values }
  return value

/-- Puts a value into a bucket whose value was taken out. -/
def putValue (bucket : Nat) (value : V) : Action (FixedDict K V) Unit := do
  let d ← get
  let values ← d.values.put bucket value
  set { d with values }

/-- Removes the entry in an occupied bucket and closes the gap. The value may have been taken out
before. -/
def removeAt (bucket : Nat) : Action (FixedDict K V) (K × Option V) := do
  let d ← get
  let unseated ← d.keys.unseat d.keys.hashOf bucket
  let (value, values) ← d.values.takeCell bucket
  let values ← values.perform none unseated.moves
  set { d with keys := { d.keys with toSeating := unseated.seating }, values }
  return (unseated.element, value)

/-- Removes the entry in an occupied bucket from a dictionary that is about to be rebuilt: searches
may miss entries from then on. -/
def abandonAt (bucket : Nat) : Action (FixedDict K V) (K × Option V) := do
  let d ← get
  let unseated ← d.keys.abandon bucket
  let (value, values) ← d.values.takeCell bucket
  let values ← values.perform none unseated.moves
  set { d with keys := { d.keys with toSeating := unseated.seating }, values }
  return (unseated.element, value)

/-- The entry that a removal took out, which has to have a value. -/
def removedEntry (removed : K × Option V) : Except Fault (K × V) :=
  match removed with
  | (key, some value) => return (key, value)
  | (_, none) => throw .vacantValue

def removeEntry [BEq K] (key : K) : Action (FixedDict K V) (Option (K × V)) := do
  match (← (← get).keys.search key).bucket with
  | some bucket =>
    let removed ← removeAt bucket
    return some (← removedEntry removed)
  | none => return none

def remove [BEq K] (key : K) : Action (FixedDict K V) (Option V) :=
  return (← removeEntry key).map Prod.snd

def removeAll : Action (FixedDict K V) Unit :=
  modify fun d =>
    if d.isEmpty then d
    else {
      keys := { d.keys with toSeating := d.keys.toSeating.clear }
      values := d.values.clear }

def extend [BEq K] (entries : List (K × V)) : Action (FixedDict K V) Unit :=
  entries.forM fun (key, value) => do let _ ← update key value

/-- A dictionary of the given capacity with the given entries, which all have to fit. -/
def ofList [BEq K] (capacity : Nat) (hasher : Hasher K) (seed : UInt64)
    (entries : List (K × V)) : Except Fault (FixedDict K V) := do
  let d ← vacant capacity hasher seed
  match (extend entries).runOn d with
  | (.ok _, d) => return d
  | (.error fault, _) => throw fault

end RobinHood.FixedDict
