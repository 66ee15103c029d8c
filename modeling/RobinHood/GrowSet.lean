import RobinHood.FixedSet.Batch
import RobinHood.Growable.Policy

/-!
# Growing sets

A growing set keeps its members in a fixed set that it replaces as needed. It answers queries as its
storage does; this module holds what may replace the storage.
-/

namespace RobinHood

instance {K : Type} : Backing (FixedSet K) K where
  table s := s.table
  renew s capacity seed := FixedSet.vacant capacity s.hasher seed
  hashOf := FixedSet.hashOf
  insertNew := FixedSet.insertNew
  elements s := s.intoIter.toList

/-- A set that replaces its storage as it grows and shrinks. -/
abbrev GrowSet (K : Type) := Growable (FixedSet K)

namespace GrowSet

variable {K ε : Type} {m : Type → Type}

def describe : Event → String
  | .resized before after count =>
    "UniqueSet resized from " ++ toString before ++ " to " ++ toString after
      ++ " (" ++ toString count ++ " members)"
  | .reset before => "UniqueSet reset from capacity " ++ toString before

/-- An empty set with room for at least `minimum` members. -/
def vacant (minimum : Nat) (hasher : Hasher K) (seeds : Seeds) : Except Fault (GrowSet K) := do
  let capacity ← Scale.fitting minimum
  let (seed, seeds) := if capacity ≤ Table.denseLimit then (0, seeds) else seeds.draw
  return { storage := ← FixedSet.vacant capacity hasher seed, seeds, journal := [] }

def ofFixed (s : FixedSet K) (seeds : Seeds) : Except Fault (GrowSet K) :=
  Growable.adopt s seeds

def toFixed (g : GrowSet K) : FixedSet K :=
  g.storage

def clear : Action (GrowSet K) Unit :=
  Growable.onStorage FixedSet.removeAll

variable [BEq K]

/-- Inserts a key unless some member equals it, in which case the key is answered. -/
def insert (key : K) : Action (GrowSet K) (Option K) := do
  let probe ← (← get).storage.search key
  if probe.bucket.isSome then
    return some key
  else
    let _ ← Growable.insertAbsent key probe.hash
    return none

/-- Inserts a key; a member that equals it is replaced and answered. -/
def update (key : K) : Action (GrowSet K) (Option K) := do
  let probe ← (← get).storage.search key
  match probe.bucket with
  | some bucket => return some (← Growable.onStorage (FixedSet.replaceAt bucket key))
  | none =>
    let _ ← Growable.insertAbsent key probe.hash
    return none

def remove (key : K) : Action (GrowSet K) (Option K) := do
  match (← (← get).storage.search key).bucket with
  | some bucket =>
    return some (← Growable.takeOut (FixedSet.removeAt bucket) (FixedSet.abandonAt bucket))
  | none => return none

/-- Inserts keys one after the other, first making room for as many as `hint` announces. -/
def extend (keys : List K) (hint : Nat) : Action (GrowSet K) Unit := do
  Growable.reserve hint
  keys.forM fun key => do let _ ← insert key

/-- Makes room for `maximum` more members, and inserts what a producer stages in chunks. -/
def insertBatch [Monad m] (maximum : Nat) (produce : Producer K ε m) :
    ActionT (GrowSet K) m (Except ε Unit) := do
  let _ ← Action.lift (Growable.ensureFree maximum)
  Growable.onStorage (FixedSet.insertBatch maximum produce)

/-- The set with the given members, of which `hint` are announced. -/
def ofList (hasher : Hasher K) (seeds : Seeds) (keys : List K) (hint : Nat) :
    Except Fault (GrowSet K) := do
  let g ← vacant 0 hasher seeds
  match (extend keys hint).runOn g with
  | (.ok _, g) => return g
  | (.error fault, _) => throw fault

end GrowSet

end RobinHood
