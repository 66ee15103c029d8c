import RobinHood.FixedDict.Update

/-!
# Values made by the caller

A memoized value is computed by the caller's function only when its key is absent, and an edit hands
what is stored under a key, or its absence, to the caller's function. An edit is completed even when
that function gives up: what it left behind is stored, or the entry is removed.
-/

namespace RobinHood

/-- What an edit leaves behind. -/
structure Edited (V R : Type) where
  /-- The value to store, or none to remove the entry. -/
  left : Option V
  answer : Except Fault R

namespace FixedDict

variable {K V R ε : Type} {m : Type → Type} [BEq K] [Monad m]

/-- The value under `key`; if it is absent, the one that `compute` makes is stored first. Nothing is
stored when `compute` fails or gives up, and it is not asked when nothing could be stored. -/
def tryMemoize (key : K) (compute : K → m (Except Fault (Except ε V))) :
    ActionT (FixedDict K V) m (Except ε V) := do
  let probe ← (← get).keys.search key
  match probe.bucket with
  | some bucket => return .ok (← (← get).values.get bucket)
  | none =>
    if (← get).isFull then
      throw .dictionaryFull
    let reply : Except Fault _ ← (compute key : m _)
    match ← reply with
    | .error e => return .error e
    | .ok value =>
      let bucket ← Action.lift (insertNew key value probe.hash)
      return .ok (← (← get).values.get bucket)

/-- The value under `key`, computed as in `tryMemoize` by a function that cannot fail. -/
def memoize (key : K) (compute : K → m (Except Fault V)) : ActionT (FixedDict K V) m V := do
  match ← tryMemoize (ε := Empty) key fun key => (Except.map Except.ok) <$> compute key with
  | .ok value => return value

/-- Hands the value under `key`, or its absence, to `f`. A value that it leaves behind is stored,
and the key inserted if it was absent; otherwise the entry is removed. If `f` gives up on an absent
key, nothing is stored. -/
def edit (key : K) (f : Option V → m (Edited V R)) : ActionT (FixedDict K V) m R := do
  let probe ← (← get).keys.search key
  match probe.bucket with
  | none =>
    let edited ← (f none : m _)
    let answer ← edited.answer
    if let some value := edited.left then
      let _ ← Action.lift (insertNew key value probe.hash)
    return answer
  | some bucket =>
    let value ← Action.lift (takeValue bucket)
    let edited ← (f value : m _)
    match edited.left with
    | some value => Action.lift (putValue bucket value)
    | none => let _ ← Action.lift (removeAt bucket)
    edited.answer

end FixedDict

end RobinHood
