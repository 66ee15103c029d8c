import RobinHood.FixedDict.Edit
import RobinHood.FixedDict.Values
import RobinHood.Growable.Policy

/-!
# Growing dictionaries

A growing dictionary keeps its entries in a fixed dictionary that it replaces as needed. It answers
queries as its storage does; this module holds what may replace the storage.
-/

namespace RobinHood

instance {K V : Type} : Backing (FixedDict K V) (K × V) where
  table d := d.table
  renew d capacity seed := FixedDict.vacant capacity d.keys.hasher seed
  hashOf d entry := d.keys.hashOf entry.1
  insertNew entry hash := FixedDict.insertNew entry.1 entry.2 hash
  elements d := d.intoIter.toList

/-- A dictionary that replaces its storage as it grows and shrinks. -/
abbrev GrowDict (K V : Type) := Growable (FixedDict K V)

namespace GrowDict

variable {K V R ε : Type} {m : Type → Type}

def describe : Event → String
  | .resized before after count =>
    "UniqueDictionary resized from " ++ toString before ++ " to " ++ toString after
      ++ " (" ++ toString count ++ " entries)"
  | .reset before => "UniqueDictionary reset from capacity " ++ toString before

/-- An empty dictionary with room for at least `minimum` entries. -/
def vacant (minimum : Nat) (hasher : Hasher K) (seeds : Seeds) :
    Except Fault (GrowDict K V) := do
  let capacity ← Scale.fitting minimum
  let (seed, seeds) := if capacity ≤ Table.denseLimit then (0, seeds) else seeds.draw
  return { storage := ← FixedDict.vacant capacity hasher seed, seeds, journal := [] }

def ofFixed (d : FixedDict K V) (seeds : Seeds) : Except Fault (GrowDict K V) :=
  Growable.adopt d seeds

def toFixed (g : GrowDict K V) : FixedDict K V :=
  g.storage

def clear : Action (GrowDict K V) Unit :=
  Growable.onStorage FixedDict.removeAll

/-- Removes the entry in an occupied bucket, whose value may have been taken out before. -/
def removeAt (bucket : Nat) : Action (GrowDict K V) (K × Option V) :=
  Growable.takeOut (FixedDict.removeAt bucket) (FixedDict.abandonAt bucket)

/-- Replaces the value of the entry at `index`, and answers the old one. -/
def replaceAt (index : Nat) (value : V) : Action (GrowDict K V) V :=
  Growable.onStorage (FixedDict.replaceAt index value)

/-- Changes the first `n` values: these values, and how many were not reached. -/
def editValues (n : Nat) (edit : Nat → V → V) : Action (GrowDict K V) (List V × Nat) :=
  Growable.onStorage (FixedDict.editValues n edit)

/-- Changes the values of the first `n` entries: these entries, and how many were not reached. -/
def editEntries (n : Nat) (edit : Nat → V → V) : Action (GrowDict K V) (List (K × V) × Nat) :=
  Growable.onStorage (FixedDict.editEntries n edit)

variable [BEq K]

/-- Adds a value under a key unless the key is present, in which case the value is answered. -/
def insert (key : K) (value : V) : Action (GrowDict K V) (Option V) := do
  let probe ← (← get).storage.keys.search key
  if probe.bucket.isSome then
    return some value
  else
    let _ ← Growable.insertAbsent (key, value) probe.hash
    return none

/-- Stores a value under a key, and answers the value it replaces. -/
def update (key : K) (value : V) : Action (GrowDict K V) (Option V) := do
  let probe ← (← get).storage.keys.search key
  match probe.bucket with
  | some bucket => return some (← Growable.onStorage (FixedDict.replaceIn bucket value))
  | none =>
    let _ ← Growable.insertAbsent (key, value) probe.hash
    return none

/-- Replaces the value of a present key, and answers the old one. -/
def replace (key : K) (value : V) : Action (GrowDict K V) (Option V) :=
  Growable.onStorage (FixedDict.replace key value)

def removeEntry (key : K) : Action (GrowDict K V) (Option (K × V)) := do
  match (← (← get).storage.keys.search key).bucket with
  | some bucket =>
    let removed ← removeAt bucket
    return some (← FixedDict.removedEntry removed)
  | none => return none

def remove (key : K) : Action (GrowDict K V) (Option V) :=
  return (← removeEntry key).map Prod.snd

/-- Stores entries one after the other, first making room for as many as `hint` announces. -/
def extend (entries : List (K × V)) (hint : Nat) : Action (GrowDict K V) Unit := do
  Growable.reserve hint
  entries.forM fun (key, value) => do let _ ← update key value

/-- The dictionary with the given entries, of which `hint` are announced. -/
def ofList (hasher : Hasher K) (seeds : Seeds) (entries : List (K × V)) (hint : Nat) :
    Except Fault (GrowDict K V) := do
  let g ← vacant 0 hasher seeds
  match (extend entries hint).runOn g with
  | (.ok _, g) => return g
  | (.error fault, _) => throw fault

/-! ## Values made by the caller -/

section Callbacks

variable [Monad m]

/-- The value under `key`; if it is absent, the one that `compute` makes is stored first. Nothing
is stored, and no room is made, when `compute` fails or gives up. -/
def tryMemoize (key : K) (compute : K → m (Except Fault (Except ε V))) :
    ActionT (GrowDict K V) m (Except ε V) := do
  let probe ← (← get).storage.keys.search key
  match probe.bucket with
  | some bucket => return .ok (← (← get).storage.values.get bucket)
  | none =>
    let reply : Except Fault _ ← (compute key : m _)
    match ← reply with
    | .error e => return .error e
    | .ok value =>
      let bucket ← Action.lift (Growable.insertAbsent (key, value) probe.hash)
      return .ok (← (← get).storage.values.get bucket)

/-- The value under `key`, computed as in `tryMemoize` by a function that cannot fail. -/
def memoize (key : K) (compute : K → m (Except Fault V)) : ActionT (GrowDict K V) m V := do
  match ← tryMemoize (ε := Empty) key fun key => (Except.map Except.ok) <$> compute key with
  | .ok value => return value

/-- Hands the value under `key`, or its absence, to `f`. A value that it leaves behind is stored,
and the key inserted if it was absent; otherwise the entry is removed, which may shrink the storage.
If `f` gives up on an absent key, nothing is stored. -/
def edit (key : K) (f : Option V → m (Edited V R)) : ActionT (GrowDict K V) m R := do
  let probe ← (← get).storage.keys.search key
  match probe.bucket with
  | none =>
    let edited ← (f none : m _)
    let answer ← edited.answer
    if let some value := edited.left then
      let _ ← Action.lift (Growable.insertAbsent (key, value) probe.hash)
    return answer
  | some bucket =>
    let value ← Action.lift (Growable.onStorage (FixedDict.takeValue bucket))
    let edited ← (f value : m _)
    match edited.left with
    | some value =>
      Action.lift (Growable.onStorage (FixedDict.putValue bucket value))
    | none => let _ ← Action.lift (removeAt bucket)
    edited.answer

end Callbacks

end GrowDict

end RobinHood
