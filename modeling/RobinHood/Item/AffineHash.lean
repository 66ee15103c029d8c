import RobinHood.Item.Key

/-!
# Affine hashes

A hash that is easy to predict: the base of a key, reduced by a modulus, times a factor plus an
offset. The base of a number is the number itself, that of a text its FNV-1a hash. The seed of the
table is ignored, so the layout of a container depends on its keys alone.
-/

namespace RobinHood

/-- The 64-bit FNV-1a hash of a sequence of bytes. -/
def fnv1a (bytes : List UInt8) : UInt64 :=
  bytes.foldl (fun hash byte => (hash ^^^ byte.toUInt64) * 0x100000001b3) 0xcbf29ce484222325

def Ident.base : Ident → UInt64
  | number n => n.toUInt64
  | text s => fnv1a (bytes (text s))

/-- The parameters of a predictable hash; a modulus of zero reduces nothing. -/
structure AffineHash where
  modulus : UInt64
  factor : UInt64
  offset : UInt64
  deriving DecidableEq, Repr

namespace AffineHash

/-- The hash that is the base itself. -/
def identity : AffineHash where
  modulus := 0
  factor := 1
  offset := 0

def apply (hash : AffineHash) (base : UInt64) : UInt64 :=
  (if hash.modulus = 0 then base else base % hash.modulus) * hash.factor + hash.offset

def hasher (hash : AffineHash) : Hasher Key :=
  fun _ key => hash.apply key.ident.base

end AffineHash

end RobinHood
