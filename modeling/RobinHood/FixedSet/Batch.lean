import RobinHood.FixedSet.Update

/-!
# Inserting in batches

A producer stages keys in a small buffer, and the set inserts what was staged before it asks for
more. The producer is asked again until it leaves a buffer unfilled, fails, or has been asked for
as many keys as were announced.
-/

namespace RobinHood

variable {K ε : Type} {m : Type → Type}

/-- A staging area for at most `limit` keys. -/
structure Buffer (K : Type) where
  staged : List K
  limit : Nat
  deriving DecidableEq, Repr

namespace Buffer

/-- The largest number of keys staged at a time. -/
def chunk : Nat := 16

def vacant (limit : Nat) : Buffer K where
  staged := []
  limit

def size (buffer : Buffer K) : Nat :=
  buffer.staged.length

def freeCapacity (buffer : Buffer K) : Nat :=
  buffer.limit - buffer.size

def isEmpty (buffer : Buffer K) : Bool :=
  buffer.staged.isEmpty

def isFull (buffer : Buffer K) : Bool :=
  buffer.size == buffer.limit

def push (buffer : Buffer K) (key : K) : Except Fault (Buffer K) :=
  if buffer.isFull then throw .bufferOverflow
  else return { buffer with staged := buffer.staged ++ [key] }

/-- Stages keys until the buffer is full or the source runs dry: the buffer, how many keys were
staged, and what is left of the source. -/
def fillFrom (buffer : Buffer K) (source : List K) : Buffer K × Nat × List K :=
  let taken := source.take buffer.freeCapacity
  ({ buffer with staged := buffer.staged ++ taken }, taken.length,
    source.drop buffer.freeCapacity)

end Buffer

/-- What fills a buffer. It may give up, which loses what it staged; or it answers the buffer, with
an error of its own if it failed. -/
abbrev Producer (K ε : Type) (m : Type → Type) :=
  Buffer K → m (Except Fault (Buffer K × Except ε Unit))

namespace FixedSet

variable [BEq K] [Monad m]

/-- Inserts what the producer stages, until it stops early or `remaining` keys were staged. -/
def insertChunks (produce : Producer K ε m) (remaining : Nat) :
    ActionT (FixedSet K) m (Except ε Unit) := do
  if remaining = 0 then
    return .ok ()
  else
    let limit := min remaining Buffer.chunk
    let reply : Except Fault _ ← (produce (.vacant limit) : m _)
    let (buffer, outcome) ← reply
    Action.lift (extend buffer.staged)
    match outcome with
    | .error e => return .error e
    | .ok () =>
      if buffer.size < limit then return .ok ()
      else insertChunks produce (remaining - buffer.size)
termination_by remaining
decreasing_by
  simp only [limit, Buffer.chunk] at *
  omega

/-- Inserts at most `maximum` keys that a producer stages in chunks. All of them must fit. -/
def insertBatch (maximum : Nat) (produce : Producer K ε m) :
    ActionT (FixedSet K) m (Except ε Unit) := do
  if maximum = 0 then
    return .ok ()
  else if (← get).freeCapacity < maximum then
    throw .setFull
  else
    insertChunks produce maximum

/-- A set of the given capacity with the members of `source`, of which as many keys are taken as
the set may have members. -/
def ofList (capacity : Nat) (hasher : Hasher K) (seed : UInt64) (source : List K) :
    Except Fault (FixedSet K) := do
  let s ← vacant capacity hasher seed
  let fill : Producer K Empty (StateM (List K)) := fun buffer => do
    let (filled, _, rest) := buffer.fillFrom (← get)
    set rest
    return .ok (filled, .ok ())
  match ((insertBatch capacity fill).runOn s |>.run source).1 with
  | (.ok _, s) => return s
  | (.error fault, _) => throw fault

end FixedSet

end RobinHood
