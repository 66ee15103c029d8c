import RobinHood.FixedSet.Basic

/-!
# Dictionaries of fixed capacity

A fixed dictionary is a fixed set of keys, which alone assigns the buckets, and a second array of
slots with the values at the same buckets. A value slot holds a value exactly when the key's bucket
is occupied. This module holds the dictionary and what can be asked of it.
-/

namespace RobinHood

/-- A dictionary of at most `keys.capacity` entries. -/
structure FixedDict (K V : Type) where
  keys : FixedSet K
  values : Slots V

namespace FixedDict

variable {K V : Type}

def vacant (capacity : Nat) (hasher : Hasher K) (seed : UInt64) :
    Except Fault (FixedDict K V) := do
  let keys ← FixedSet.vacant capacity hasher seed
  return { keys, values := .vacant keys.table.bucketCount }

def table (d : FixedDict K V) : Table :=
  d.keys.table

def size (d : FixedDict K V) : Nat :=
  d.keys.size

def capacity (d : FixedDict K V) : Nat :=
  d.keys.capacity

def freeCapacity (d : FixedDict K V) : Nat :=
  d.keys.freeCapacity

def isEmpty (d : FixedDict K V) : Bool :=
  d.keys.isEmpty

def isFull (d : FixedDict K V) : Bool :=
  d.keys.isFull

def entryIn (d : FixedDict K V) (bucket : Nat) : Except Fault (K × V) :=
  return (← d.keys.slots.get bucket, ← d.values.get bucket)

/-! ## Looking up a key -/

section Lookup

variable [BEq K]

def contains (d : FixedDict K V) (key : K) : Except Fault Bool :=
  d.keys.contains key

def get? (d : FixedDict K V) (key : K) : Except Fault (Option V) := do
  (← d.keys.search key).bucket.mapM d.values.get

def indexOf? (d : FixedDict K V) (key : K) : Except Fault (Option Nat) :=
  d.keys.indexOf? key

end Lookup

/-! ## Indices

The indices are those of the keys. -/

/-- The index of the first entry, or the end index. -/
def startIndex (d : FixedDict K V) : Nat :=
  d.keys.startIndex

def endIndex (d : FixedDict K V) : Nat :=
  d.keys.endIndex

/-- The index of the entry after the one at `index`, or the end index. -/
def indexAfter (d : FixedDict K V) (index : Nat) : Except Fault Nat :=
  d.keys.indexAfter index

def entryAt (d : FixedDict K V) (index : Nat) : Except Fault (K × V) := do
  d.keys.checkIndex index
  d.entryIn index

/-! ## Traversals -/

def iter (d : FixedDict K V) : Cursor (K × V) :=
  .start d.table d.entryIn

def iterValues (d : FixedDict K V) : Cursor V :=
  .start d.table fun bucket => Prod.snd <$> d.entryIn bucket

def indices (d : FixedDict K V) : Cursor Nat :=
  d.keys.indices

def intoIter (d : FixedDict K V) : OwningCursor (Slots K × Slots V) (K × V) :=
  .start d.table (d.keys.slots, d.values) fun bucket (keys, values) => do
    let (key, keys) ← keys.take bucket
    let (value, values) ← values.take bucket
    return ((key, value), (keys, values))

/-! ## Comparing and digesting -/

/-- Whether both dictionaries have the same keys, and values that `same` accepts under each. It is
asked about one entry after the other, and no more once it has refused. -/
def equalsBy [BEq K] {m : Type → Type} [Monad m] (d : FixedDict K V)
    (same : V → V → m Bool) : Comparand (FixedDict K V) → ExceptT Fault m Bool
  | .itself => return true
  | .other e => do
    if d.size = e.size then
      (← d.iter.toList).allM fun (key, value) => do
        match (← e.keys.search key).bucket with
        | some bucket =>
          let counterpart ← e.values.get bucket
          same value counterpart
        | none => return false
    else
      return false

def equals [BEq K] [BEq V] (d : FixedDict K V) (against : Comparand (FixedDict K V)) :
    Except Fault Bool :=
  (d.equalsBy (m := Id) (fun value counterpart => pure (value == counterpart)) against).run

/-- A hash of the entries that does not depend on where they sit. -/
def unorderedHash [Digestible K] [Digestible V] (d : FixedDict K V) (seed : UInt64) :
    Except Fault UInt64 :=
  return xorFold ((← d.iter.toList).map fun (key, value) => Digest.pair seed key value)

def digestInto [Digestible K] [Digestible V] (d : FixedDict K V) (digest : Digest) :
    Except Fault Digest :=
  digest.feedUnordered d.size d.unorderedHash

/-! ## Text -/

def shownEntries [Shown K] [Shown V] (d : FixedDict K V) : Except Fault (List String) :=
  return (← d.iter.toList).map fun (key, value) => shown key ++ ": " ++ shown value

end FixedDict

end RobinHood
