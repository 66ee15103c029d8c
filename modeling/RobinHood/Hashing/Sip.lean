/-!
# SipHash-1-3

The keyed hash SipHash with one round per word and three at the end, under the zero key, as a
function of the bytes hashed.
-/

namespace RobinHood.Sip

structure State where
  v0 : UInt64
  v1 : UInt64
  v2 : UInt64
  v3 : UInt64

def State.zeroKey : State where
  v0 := 0x736f6d6570736575
  v1 := 0x646f72616e646f6d
  v2 := 0x6c7967656e657261
  v3 := 0x7465646279746573

/-- Rotates a word to the left by `n` bits, `0 < n < 64`. -/
def rotate (x n : UInt64) : UInt64 :=
  (x <<< n) ||| (x >>> (64 - n))

def State.round (s : State) : State :=
  let v0 := s.v0 + s.v1
  let v1 := rotate s.v1 13 ^^^ v0
  let v0 := rotate v0 32
  let v2 := s.v2 + s.v3
  let v3 := rotate s.v3 16 ^^^ v2
  let v0 := v0 + v3
  let v3 := rotate v3 21 ^^^ v0
  let v2 := v2 + v1
  let v1 := rotate v1 17 ^^^ v2
  let v2 := rotate v2 32
  { v0, v1, v2, v3 }

def State.absorb (s : State) (word : UInt64) : State :=
  let mixed := { s with v3 := s.v3 ^^^ word }.round
  { mixed with v0 := mixed.v0 ^^^ word }

/-- The hash that a state stands for once all input is absorbed. -/
def State.finish (s : State) : UInt64 :=
  let last := { s with v2 := s.v2 ^^^ 0xff }.round.round.round
  last.v0 ^^^ last.v1 ^^^ last.v2 ^^^ last.v3

def wordOfBytes (bytes : List UInt8) : UInt64 :=
  bytes.foldr (fun byte word => (word <<< 8) ||| byte.toUInt64) 0

/-- The input as words: the last one holds the bytes left over, and the length in its top byte. -/
def wordsOfBytes (length : UInt64) : List UInt8 → List UInt64
  | a :: b :: c :: d :: e :: f :: g :: h :: rest =>
    wordOfBytes [a, b, c, d, e, f, g, h] :: wordsOfBytes length rest
  | rest => [wordOfBytes rest ||| (length <<< 56)]

def hash (bytes : List UInt8) : UInt64 :=
  ((wordsOfBytes bytes.length.toUInt64 bytes).foldl State.absorb State.zeroKey).finish

end RobinHood.Sip
