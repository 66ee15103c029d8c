import RobinHood.Action
import RobinHood.Growable.Seeds
import RobinHood.Table.Basic

/-!
# Growing and shrinking

A growable container owns a container of fixed capacity and replaces it by a larger or smaller one
when needed, always with a capacity of the growth sequence. The policy is the same for sets and
dictionaries: grow to the least capacity that has room; shrink to the least capacity that holds
what is left, when a removal finds the storage no fuller than the low-water mark of its scale. Every
replacement moves all elements into a freshly seeded table and is recorded in a journal.
-/

namespace RobinHood

/-- What a growable container records. -/
inductive Event where
  /-- All `count` elements moved from one capacity to another. -/
  | resized (before after count : Nat)
  /-- The storage was given up together with its elements. -/
  | reset (before : Nat)
  deriving DecidableEq, Repr

/-- Storage of fixed capacity with elements of type `α`, as the growth policy sees it. -/
class Backing (C : Type) (α : outParam Type) where
  table : C → Table
  /-- An empty storage with the hasher of a given one. -/
  renew : C → (capacity : Nat) → (seed : UInt64) → Except Fault C
  /-- The hash of an element in the table of a storage. -/
  hashOf : C → α → UInt64
  /-- Places an element that is not present, given its hash. -/
  insertNew : α → UInt64 → Action C Nat
  /-- All elements, in the order in which they are taken out. -/
  elements : C → Except Fault (List α)

/-- A container that replaces its storage `C` as it grows and shrinks. -/
structure Growable (C : Type) where
  storage : C
  /-- Where the seeds of new tables come from. -/
  seeds : Seeds
  /-- What happened to the storage so far, the oldest event first. -/
  journal : List Event

namespace Growable

variable {C α β : Type} {m : Type → Type}

/-- Lets an action on the storage act on the container. -/
def onStorage [Monad m] (action : ActionT C m β) : ActionT (Growable C) m β :=
  action.within storage fun storage g => { g with storage }

def record (event : Event) : Action (Growable C) Unit :=
  modify fun g => { g with journal := g.journal ++ [event] }

/-- The seed of a new table, which only a probed one draws. -/
def drawSeed (capacity : Nat) : Action (Growable C) UInt64 := do
  if capacity ≤ Table.denseLimit then
    return 0
  else
    let g ← get
    let (seed, seeds) := g.seeds.draw
    set { g with seeds }
    return seed

section Policy

variable [Backing C α]

def table (g : Growable C) : Table :=
  Backing.table g.storage

def size (g : Growable C) : Nat :=
  g.table.count

def capacity (g : Growable C) : Nat :=
  g.table.capacity

def freeCapacity (g : Growable C) : Nat :=
  g.table.freeCapacity

/-- The scale of the capacity. -/
def scale (g : Growable C) : Except Fault Nat :=
  Scale.ofCapacity g.capacity

/-- The hash that places an element; a dense table has no use for one. -/
def placementHash (g : Growable C) (x : α) : UInt64 :=
  if g.table.isDense then 0 else Backing.hashOf g.storage x

/-- Replaces the storage by an empty one with the same hasher. -/
def renewStorage (capacity : Nat) : Action (Growable C) Unit := do
  let seed ← drawSeed capacity
  let g ← get
  set { g with storage := ← Backing.renew g.storage capacity seed }

/-- Places an element that is not present into storage that was just replaced. -/
def reinsert (x : α) : Action (Growable C) Unit := do
  let g ← get
  let _ ← onStorage (Backing.insertNew x (g.placementHash x))

/-- Moves all elements into new storage of the least capacity that is at least `required`. -/
def resize (required : Nat) : Action (Growable C) Unit := do
  let capacity ← Scale.fitting required
  let old ← get
  renewStorage capacity
  record (.resized old.capacity capacity old.size)
  (← Backing.elements old.storage).forM reinsert

/-- Makes room for `additional` more elements, and answers whether the storage was replaced, which
makes hashes of the old table useless. -/
def ensureFree (additional : Nat) : Action (Growable C) Bool := do
  let g ← get
  if additional ≤ g.freeCapacity then
    return false
  else
    resize (← Scale.total g.size additional)
    return true

def reserve (additional : Nat) : Action (Growable C) Unit := do
  let _ ← ensureFree additional

/-- Shrinks the storage to the least capacity that holds the elements. -/
def shrinkToFit : Action (Growable C) Unit := do
  let g ← get
  if (← Scale.ofCapacity g.size) < (← g.scale) then
    resize g.size

/-- Gives up the storage together with the elements. -/
def reset : Action (Growable C) Unit := do
  let g ← get
  record (.reset g.capacity)
  renewStorage 0

/-- Adds an element that a search with the given hash did not find, and answers its bucket. -/
def insertAbsent (x : α) (hash : UInt64) : Action (Growable C) Nat := do
  let replaced ← ensureFree 1
  let g ← get
  onStorage (Backing.insertNew x (if replaced then g.placementHash x else hash))

/-- Removes an element by `remove`; or, if the storage is then too sparse, by `abandon`, which need
not leave it in order as it is replaced at once. -/
def takeOut (remove abandon : Action C β) : Action (Growable C) β := do
  let g ← get
  if Scale.lowWater (← g.scale) < g.size then
    onStorage remove
  else
    let removed ← onStorage abandon
    resize (← get).size
    return removed

/-- A container that takes over a storage, and moves its elements if the capacity is not one of the
growth sequence. -/
def adopt (storage : C) (seeds : Seeds) : Except Fault (Growable C) := do
  let g : Growable C := { storage, seeds, journal := [] }
  if Scale.capacity (← g.scale) = g.capacity then
    return g
  else
    match (resize g.capacity).runOn g with
    | (.ok _, g) => return g
    | (.error fault, _) => throw fault

end Policy

end Growable

end RobinHood
