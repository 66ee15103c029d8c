import RobinHood.Hashing.Sip

/-!
# Digests

A digest is fed bytes and can be asked for the hash of all it was fed so far. A container feeds its
members in no order: each member is hashed by itself with a common seed, and the hashes are folded
with exclusive or, so equal containers leave a digest in the same state.
-/

namespace RobinHood

/-- Values that can be fed to a digest, as the bytes they contribute. -/
class Digestible (α : Type) where
  bytes : α → List UInt8

export Digestible (bytes)

def littleEndian (word : UInt64) : List UInt8 :=
  (List.range 8).map fun i => (word >>> (8 * i).toUInt64).toUInt8

instance : Digestible UInt64 where
  bytes := littleEndian

/-- A digest in progress: what it was fed. -/
structure Digest where
  fed : List UInt8
  deriving DecidableEq, Repr

namespace Digest

variable {α β : Type} [Digestible α] [Digestible β]

def fresh : Digest where
  fed := []

def feed (digest : Digest) (x : α) : Digest where
  fed := digest.fed ++ bytes x

def finish (digest : Digest) : UInt64 :=
  Sip.hash digest.fed

def member (seed : UInt64) (x : α) : UInt64 :=
  ((fresh.feed seed).feed x).finish

def pair (seed : UInt64) (x : α) (y : β) : UInt64 :=
  (((fresh.feed seed).feed x).feed y).finish

/-- Feeds a container of `count` elements: its size, and what `aggregate` makes of its elements
when seeded with the hash of all that came before. -/
def feedUnordered {m : Type → Type} [Monad m] (digest : Digest) (count : Nat)
    (aggregate : UInt64 → m UInt64) : m Digest := do
  let seed := digest.finish
  return (digest.feed count.toUInt64).feed (← aggregate seed)

end Digest

/-- Folds hashes with exclusive or, which no order can affect. -/
def xorFold (hashes : List UInt64) : UInt64 :=
  hashes.foldl (· ^^^ ·) 0

/-- How a container hashes its keys for placement: the table's seed comes first. -/
abbrev Hasher (K : Type) := UInt64 → K → UInt64

def Hasher.digest {K : Type} [Digestible K] : Hasher K :=
  Digest.member

end RobinHood
