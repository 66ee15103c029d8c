import RobinHood.Hashing.Digest
import RobinHood.Text.Quoted
import RobinHood.Listing

/-!
# Tagged keys

A key is a number or a text, together with a tag that equality and hashing ignore. The tag shows
which of several equal keys a container stores.
-/

namespace RobinHood

/-- What makes keys equal. -/
inductive Ident where
  | number (n : Int64)
  | text (s : String)
  deriving DecidableEq

namespace Ident

/-- A byte that no text contains, so that the bytes of a text end unambiguously. -/
def terminator : UInt8 := 0xff

instance : Digestible Ident where
  bytes
    | number n => littleEndian n.toUInt64
    | text s => s.toUTF8.toList ++ [terminator]

instance : Shown Ident where
  shown
    | number n => toString n.toInt
    | text s => Text.Quoted.quote s

/-- Whether an identity comes before another or is the same: numbers before texts, texts by their
bytes. -/
def atMost : Ident → Ident → Bool
  | number m, number n => m ≤ n
  | number _, text _ => true
  | text _, number _ => false
  | text s, text t => s ≤ t

end Ident

/-- A key with a tag. -/
structure Key where
  ident : Ident
  tag : Int64
  deriving DecidableEq

namespace Key

/-- Keys count as equal whatever their tags are. -/
instance : BEq Key where
  beq a b := a.ident = b.ident

instance : EquivBEq Key where
  rfl := by simp [BEq.beq]
  symm := by simp only [BEq.beq, decide_eq_true_eq]; exact Eq.symm
  trans := by simp only [BEq.beq, decide_eq_true_eq]; exact Eq.trans

instance : Digestible Key where
  bytes key := bytes key.ident

instance : Shown Key where
  shown key := shown key.ident

end Key

end RobinHood
