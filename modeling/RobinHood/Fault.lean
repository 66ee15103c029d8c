/-!
# Faults

Every way an operation can stop early. The first group belongs to the contract: a caller can bring
these about. The second group are internal expectations, which no container built by the public
operations runs into. The last is the caller's own function giving up.
-/

namespace RobinHood

/-- Why an operation stopped. -/
inductive Fault where
  /-- No capacity of the growth sequence is large enough. -/
  | capacityOverflow
  /-- A fixed set has no room for the offered members. -/
  | setFull
  /-- A fixed dictionary has no room for the offered entry. -/
  | dictionaryFull
  /-- An index does not address an element. -/
  | indexOutOfBounds
  /-- More elements are staged than the buffer may take. -/
  | bufferOverflow
  /-- A slot that should hold an element is vacant. -/
  | vacantSlot
  /-- A slot that should hold a value is vacant. -/
  | vacantValue
  /-- An insertion asks for the element in hand after it has settled. -/
  | emptyHand
  /-- An insertion into a dictionary asks for the entry in hand after it has settled. -/
  | noEntryInHand
  /-- A position lies past the end of an array of the given length. -/
  | outOfRange (length index : Nat)
  /-- A count would fall below zero. -/
  | countUnderflow
  /-- A probe met no free bucket in a whole turn around the table. -/
  | noFreeBucket
  /-- The caller's function gave up with a message of its own. -/
  | aborted (text : String)
  deriving DecidableEq, Repr

namespace Fault

/-- The text that reports a fault. -/
def message : Fault → String
  | capacityOverflow => "capacity overflow"
  | setFull => "RigidSet capacity overflow"
  | dictionaryFull => "RigidDictionary capacity overflow"
  | indexOutOfBounds => "Index out of bounds"
  | bufferOverflow => "output buffer overflow"
  | vacantSlot => "occupied bucket must hold an element"
  | vacantValue => "occupied bucket must hold a value"
  | emptyHand => "insertion carries a pending member"
  | noEntryInHand => "insertion carries a pending entry"
  | outOfRange length index =>
      "index out of bounds: the len is " ++ toString length ++ " but the index is " ++ toString index
  | countUnderflow => "attempt to subtract with overflow"
  | noFreeBucket => "every bucket is occupied"
  | aborted text => text

/-- How an insertion into a dictionary reports a fault that moving the key or the value came upon. -/
def ofEntry : Fault → Fault
  | emptyHand => noEntryInHand
  | fault => fault

end Fault

end RobinHood
