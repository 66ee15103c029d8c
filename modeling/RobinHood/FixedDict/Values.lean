import RobinHood.FixedDict.Basic

/-!
# Changing values in place

A traversal that changes values walks the value slots and passes over the vacant ones. As the slots
that hold a value are those of the occupied buckets, it visits the values in the order of the keys.
-/

namespace RobinHood

/-- The first slot at or after `start` that holds an element. -/
def Slots.firstHeldFrom {α : Type} (slots : Slots α) (start : Nat) : Option Nat :=
  if h : start < slots.cells.size then
    if slots.cells[start].isSome then some start else slots.firstHeldFrom (start + 1)
  else
    none
termination_by slots.cells.size - start

/-- A cursor that changes the values it passes: `edit j` is applied to the `j`-th one. -/
structure ValueCursor (V : Type) where
  slots : Slots V
  edit : Nat → V → V
  /-- Where the search for the next value starts. -/
  position : Nat
  visited : Nat
  remaining : Nat

namespace ValueCursor

variable {V : Type}

def next? (cursor : ValueCursor V) : Except Fault (Option (V × ValueCursor V)) := do
  if cursor.remaining = 0 then
    return none
  match cursor.slots.firstHeldFrom cursor.position with
  | none => return none
  | some bucket =>
    let value := cursor.edit cursor.visited (← cursor.slots.get bucket)
    return some (value, { cursor with
      slots := cursor.slots.assign bucket (some value)
      position := bucket + 1
      visited := cursor.visited + 1
      remaining := cursor.remaining - 1 })

end ValueCursor

/-- A cursor over keys and the values that it changes. -/
structure EntryCursor (K V : Type) where
  keys : Cursor K
  values : ValueCursor V

namespace EntryCursor

variable {K V : Type}

/-- The next key with its value, changed, and the cursor behind them. -/
def next? (cursor : EntryCursor K V) : Except Fault (Option ((K × V) × EntryCursor K V)) := do
  match ← cursor.keys.next? with
  | none => return none
  | some (key, keys) =>
    match ← cursor.values.next? with
    | none => return none
    | some (value, values) => return some ((key, value), { keys, values })

end EntryCursor

namespace FixedDict

variable {K V : Type}

/-- The cursor before the first value, which will apply `edit`. -/
def valuesMut (d : FixedDict K V) (edit : Nat → V → V) : ValueCursor V where
  slots := d.values
  edit
  position := 0
  visited := 0
  remaining := d.size

/-- The cursor before the first entry, which will apply `edit` to the values. -/
def iterMut (d : FixedDict K V) (edit : Nat → V → V) : EntryCursor K V where
  keys := d.keys.iter
  values := d.valuesMut edit

/-- Changes the first `n` values: these values, and how many were not reached. -/
def editValues (n : Nat) (edit : Nat → V → V) : Action (FixedDict K V) (List V × Nat) := do
  let d ← get
  let (values, cursor) ← takeUpTo ValueCursor.next? n (d.valuesMut edit)
  set { d with values := cursor.slots }
  return (values, cursor.remaining)

/-- Changes the values of the first `n` entries: these entries, and how many were not reached. -/
def editEntries (n : Nat) (edit : Nat → V → V) : Action (FixedDict K V) (List (K × V) × Nat) := do
  let d ← get
  let (entries, cursor) ← takeUpTo EntryCursor.next? n (d.iterMut edit)
  set { d with values := cursor.values.slots }
  return (entries, cursor.keys.remaining)

end FixedDict

end RobinHood
