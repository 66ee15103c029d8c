import RobinHood.Fault

/-!
# Bitmaps

A fixed number of bits packed into 64-bit words. The last word may have spare bits past the end;
no search reports them. `bit` reads any position, and the searches find the first set or clear
bit at or after a position by looking at whole words.
-/

namespace RobinHood

/-- The bits of a bitmap are kept in words of this kind. -/
abbrev Word := BitVec 64

/-- A bitmap of `size` bits. -/
structure Bitmap where
  words : Array Word
  size : Nat
  words_size : words.size = (size + 63) / 64
  deriving DecidableEq

namespace Bitmap

def zeros (size : Nat) : Bitmap where
  words := Array.replicate ((size + 63) / 64) 0
  size := size
  words_size := Array.size_replicate

/-- The bit at position `i`, clear past the last word. -/
def bit (map : Bitmap) (i : Nat) : Bool :=
  (map.words.getD (i / 64) 0).getLsbD (i % 64)

/-- The word that holds only bit `i` of its word. -/
def mask (i : Nat) : Word :=
  BitVec.twoPow 64 (i % 64)

/-- The word-level change `f` at the word that holds bit `i`. -/
def modify (map : Bitmap) (i : Nat) (f : Word → Word) : Bitmap where
  words := map.words.modify (i / 64) f
  size := map.size
  words_size := by rw [Array.size_modify, map.words_size]

/-- The bit at position `i`, which must lie in one of the words. -/
def isSet (map : Bitmap) (i : Nat) : Except Fault Bool :=
  if i / 64 < map.words.size then .ok (map.bit i) else .error (.outOfRange map.words.size (i / 64))

/-- Sets bit `i`, which must lie in one of the words. -/
def set (map : Bitmap) (i : Nat) : Except Fault Bitmap :=
  if i / 64 < map.words.size then .ok (map.modify i (· ||| mask i))
  else .error (.outOfRange map.words.size (i / 64))

/-- Clears bit `i`, which must lie in one of the words. -/
def clear (map : Bitmap) (i : Nat) : Except Fault Bitmap :=
  if i / 64 < map.words.size then .ok (map.modify i (· &&& ~~~ mask i))
  else .error (.outOfRange map.words.size (i / 64))

def clearAll (map : Bitmap) : Bitmap where
  words := map.words.map fun _ => 0
  size := map.size
  words_size := by rw [Array.size_map, map.words_size]

/-- The position of the lowest bit of `hits` in word `w`, unless it is a spare bit. -/
def lowestHit (map : Bitmap) (w : Nat) (hits : Word) : Option Nat :=
  let i := w * 64 + hits.ctz.toNat
  if i < map.size then some i else none

/-- The first match in the words from `w` on, where `view` turns matching bits into set ones. -/
def firstMatchFromWord (map : Bitmap) (view : Word → Word) (w : Nat) : Option Nat :=
  if h : w < map.words.size then
    let hits := view map.words[w]
    if hits = 0 then map.firstMatchFromWord view (w + 1) else map.lowestHit w hits
  else
    none
termination_by map.words.size - w

/-- The first match at or after `start`, where `view` turns matching bits into set ones. -/
def firstMatchFrom (map : Bitmap) (view : Word → Word) (start : Nat) : Option Nat :=
  if start < map.size then
    let hits := view (map.words.getD (start / 64) 0) &&& (BitVec.allOnes 64 <<< (start % 64))
    if hits = 0 then map.firstMatchFromWord view (start / 64 + 1)
    else map.lowestHit (start / 64) hits
  else
    none

def firstSetFrom (map : Bitmap) (start : Nat) : Option Nat :=
  map.firstMatchFrom id start

def firstClearFrom (map : Bitmap) (start : Nat) : Option Nat :=
  map.firstMatchFrom (~~~ ·) start

end Bitmap

end RobinHood
