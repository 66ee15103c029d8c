import RobinHood.FixedDict.Edit
import RobinHood.Proofs.Ledger.Basic

/-!
# What is expected of dictionaries

The requests that every dictionary answers, and the answers expected of a finite map that remembers which of
several equal keys an entry was made with: a ledger of entries under their keys.
-/

namespace RobinHood

/-- A request to a dictionary. The functions are the caller's. -/
inductive DictRequest (K V ε R : Type) where
  | insert (key : K) (value : V)
  | update (key : K) (value : V)
  /-- Writes through a reference to the value under a key. -/
  | replace (key : K) (value : V)
  | get (key : K)
  | contains (key : K)
  | memoize (key : K) (compute : K → Except Fault V)
  | tryMemoize (key : K) (compute : K → Except Fault (Except ε V))
  | edit (key : K) (f : Option V → Edited V R)
  | remove (key : K)
  | removeEntry (key : K)
  /-- Removes every entry. A growing dictionary may keep its storage. -/
  | clear (keeping : Bool)

inductive DictReply (K V ε R : Type) where
  | done
  | flag (answer : Bool)
  | value (answer : Option V)
  | entry (answer : Option (K × V))
  | memo (answer : Except ε V)
  | edited (answer : R)
  | tried (answer : Except (Rejected (K × V)) (Option V))

namespace Ledger

variable {K V ε R : Type} [BEq K]

def value (m : List (K × V)) (key : K) : Option V :=
  (lookup Prod.fst m key).map Prod.snd

theorem isSome_value (m : List (K × V)) (key : K) : (value m key).isSome = (lookup Prod.fst m key).isSome :=
  Option.isSome_map

/-- The entries with `value` under a key that is present, as it was stored. -/
def store (key : K) (value : V) (m : List (K × V)) : List (K × V) :=
  amend Prod.fst (fun entry => (entry.1, value)) m key

/-- Inserting under a key that is present hands the value back and keeps the entry. -/
def insertValue (room : Room) (key : K) (value : V) (m : List (K × V)) :
    Except Fault (Option V) × List (K × V) :=
  match lookup Prod.fst m key with
  | some _ => (.ok (some value), m)
  | none => enter room m (key, value) none

def tryInsertValue (limit : Nat) (key : K) (value : V) (m : List (K × V)) :
    Except Fault (Except (Rejected (K × V)) (Option V)) × List (K × V) :=
  match lookup Prod.fst m key with
  | some _ => (.ok (.ok (some value)), m)
  | none =>
    if m.length < limit then (.ok (.ok none), (key, value) :: m) else (.ok (.error ⟨(key, value)⟩), m)

/-- Updating under a key that is present exchanges the value and keeps the stored key. -/
def updateValue (room : Room) (key : K) (value : V) (m : List (K × V)) :
    Except Fault (Option V) × List (K × V) :=
  match lookup Prod.fst m key with
  | some old => (.ok (some old.2), store key value m)
  | none => enter room m (key, value) none

def removeEntry (key : K) (m : List (K × V)) : Except Fault (Option (K × V)) × List (K × V) :=
  (.ok (lookup Prod.fst m key), strike Prod.fst m key)

/-- A value that is absent is computed and entered. Whether lack of room is noticed `beforehand` makes a
difference only where `compute` does not come up with a value. -/
def memoize (beforehand : Bool) (room : Room) (key : K) (compute : K → Except Fault (Except ε V))
    (m : List (K × V)) : Except Fault (Except ε V) × List (K × V) :=
  match lookup Prod.fst m key with
  | some entry => (.ok (.ok entry.2), m)
  | none =>
    if beforehand && room.limit ≤ m.length then (.error room.refusal, m)
    else
      match compute key with
      | .error fault => (.error fault, m)
      | .ok (.error e) => (.ok (.error e), m)
      | .ok (.ok value) => enter room m (key, value) (.ok value)

def memoizeCertain (beforehand : Bool) (room : Room) (key : K) (compute : K → Except Fault V)
    (m : List (K × V)) : Except Fault V × List (K × V) :=
  reply certain (memoize beforehand room key (fun key => Except.ok <$> compute key) m)

/-- What is left behind is stored, or the entry is removed. If `f` gives up, it has changed what is present
all the same, but enters nothing. -/
def edit (room : Room) (key : K) (f : Option V → Edited V R) (m : List (K × V)) :
    Except Fault R × List (K × V) :=
  match lookup Prod.fst m key with
  | some entry =>
    let edited := f (some entry.2)
    match edited.left with
    | some value => (edited.answer, store key value m)
    | none => (edited.answer, strike Prod.fst m key)
  | none =>
    let edited := f none
    match edited.answer, edited.left with
    | .error fault, _ => (.error fault, m)
    | .ok answer, some value => enter room m (key, value) answer
    | .ok answer, none => (.ok answer, m)

/-- The reply expected of a dictionary with entries `m`, and the entries it should have then. -/
def answerDict (beforehand : Bool) (room : Room) :
    DictRequest K V ε R → List (K × V) → Except Fault (DictReply K V ε R) × List (K × V)
  | .insert key v, m => reply .value (insertValue room key v m)
  | .update key v, m => reply .value (updateValue room key v m)
  | .replace key v, m => (.ok (.value (value m key)), store key v m)
  | .get key, m => (.ok (.value (value m key)), m)
  | .contains key, m => (.ok (.flag (value m key).isSome), m)
  | .memoize key compute, m =>
    reply (fun v => .value (some v)) (memoizeCertain beforehand room key compute m)
  | .tryMemoize key compute, m => reply .memo (memoize beforehand room key compute m)
  | .edit key f, m => reply .edited (edit room key f m)
  | .remove key, m => reply (fun removed => .value (removed.map Prod.snd)) (removeEntry key m)
  | .removeEntry key, m => reply .entry (removeEntry key m)
  | .clear _, _ => (.ok .done, [])

end Ledger

end RobinHood
