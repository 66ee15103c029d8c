import RobinHood.Action

/-!
# Slots

Element storage addressed by bucket. A slot holds an element or is vacant; which slots should hold
one is the table's business, and reading a vacant one is a fault.
-/

namespace RobinHood

/-- One slot per bucket. -/
structure Slots (α : Type) where
  cells : Array (Option α)
  deriving DecidableEq

namespace Slots

variable {α : Type}

def vacant (n : Nat) : Slots α where
  cells := Array.replicate n none

def size (slots : Slots α) : Nat :=
  slots.cells.size

def cell (slots : Slots α) (bucket : Nat) : Except Fault (Option α) :=
  match slots.cells[bucket]? with
  | some content => .ok content
  | none => .error (.outOfRange slots.size bucket)

def assign (slots : Slots α) (bucket : Nat) (content : Option α) : Slots α where
  cells := slots.cells.setIfInBounds bucket content

def get (slots : Slots α) (bucket : Nat) : Except Fault α := do
  match ← slots.cell bucket with
  | some x => return x
  | none => throw .vacantSlot

def put (slots : Slots α) (bucket : Nat) (x : α) : Except Fault (Slots α) := do
  let _ ← slots.cell bucket
  return slots.assign bucket (some x)

def takeCell (slots : Slots α) (bucket : Nat) : Except Fault (Option α × Slots α) := do
  let content ← slots.cell bucket
  return (content, slots.assign bucket none)

/-- Takes out the element in the slot of a bucket. -/
def take (slots : Slots α) (bucket : Nat) : Except Fault (α × Slots α) := do
  let x ← slots.get bucket
  return (x, slots.assign bucket none)

/-- Puts `x` in the place of the element in the slot of a bucket, and answers that element. -/
def exchange (slots : Slots α) (bucket : Nat) (x : α) : Except Fault (α × Slots α) := do
  let old ← slots.get bucket
  return (old, slots.assign bucket (some x))

/-- Moves what the slot of `source` holds to the slot of `target`. It is taken out first, and so is
lost where there is no slot `target`. -/
def relocate (source target : Nat) : Action (Slots α) Unit :=
  ActionT.ofStep fun slots =>
    match slots.takeCell source with
    | .error fault => (.error fault, slots)
    | .ok (content, rest) =>
      match rest.cell target with
      | .error fault => (.error fault, rest)
      | .ok _ => (.ok (), rest.assign target content)

def clear (slots : Slots α) : Slots α where
  cells := slots.cells.map fun _ => none

end Slots

end RobinHood
