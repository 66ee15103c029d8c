import RobinHood.Slots

/-!
# Moves

A table changes which element sits where by a list of moves, and every array of slots that belongs
to it performs the same list. During an insertion one element is in hand: it is exchanged for the
occupants it displaces, and what is in hand at the end settles in a free bucket.
-/

namespace RobinHood

/-- One change of place. -/
inductive Move where
  /-- The element in hand takes the place of an occupant, which is then in hand. -/
  | swap (bucket : Nat)
  /-- The element in hand is put into a free bucket. -/
  | settle (bucket : Nat)
  /-- An occupant moves to a free bucket. -/
  | shift (source target : Nat)
  deriving DecidableEq, Repr

def Move.target : Move → Nat
  | swap bucket => bucket
  | settle bucket => bucket
  | shift _ target => target

namespace Slots

variable {α : Type}

/-- Performs moves in order, starting with the given element in hand. -/
def perform (slots : Slots α) : Option α → List Move → Except Fault (Slots α)
  | _, [] => return slots
  | some x, .swap bucket :: moves => do
    let (resident, slots) ← slots.exchange bucket x
    slots.perform (some resident) moves
  | some x, .settle bucket :: moves => do
    let slots ← slots.put bucket x
    slots.perform none moves
  | hand, .shift source target :: moves =>
    match (relocate source target).runOn slots with
    | (.ok _, slots) => slots.perform hand moves
    | (.error fault, _) => throw fault
  | none, .swap _ :: _ => throw .emptyHand
  | none, .settle _ :: _ => throw .emptyHand

end Slots

end RobinHood
