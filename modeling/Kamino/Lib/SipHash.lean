import Kamino.Lib.LittleEndian

/-!
# SipHash-1-3

The keyed hash with one round a word and three at the end. A message is read in words of eight
bytes; the last word has the bytes that are left and the message's length in its top byte.
-/

namespace SipHash

open LittleEndian

structure State where
  v0 : UInt64
  v1 : UInt64
  v2 : UInt64
  v3 : UInt64

def rotl (x b : UInt64) : UInt64 := (x <<< b) ||| (x >>> (64 - b))

def round (s : State) : State :=
  let v0 := s.v0 + s.v1
  let v2 := s.v2 + s.v3
  let v1 := rotl s.v1 13 ^^^ v0
  let v3 := rotl s.v3 16 ^^^ v2
  let v0 := rotl v0 32
  let v2 := v2 + v1
  let v0 := v0 + v3
  ⟨v0, rotl v1 17 ^^^ v2, rotl v2 32, rotl v3 21 ^^^ v0⟩

def absorb (s : State) (word : UInt64) : State :=
  let s := round { s with v3 := s.v3 ^^^ word }
  { s with v0 := s.v0 ^^^ word }

/-- The state after the whole words of a message, and the bytes that are left. -/
def absorbWords (s : State) : List UInt8 → State × List UInt8
  | b0 :: b1 :: b2 :: b3 :: b4 :: b5 :: b6 :: b7 :: rest =>
    absorbWords (absorb s (UInt64.ofNat (ofLe [b0, b1, b2, b3, b4, b5, b6, b7]))) rest
  | rest => (s, rest)

def hash13 (k0 k1 : UInt64) (message : List UInt8) : UInt64 :=
  let (s, rest) := absorbWords ⟨k0 ^^^ 0x736f6d6570736575, k1 ^^^ 0x646f72616e646f6d,
    k0 ^^^ 0x6c7967656e657261, k1 ^^^ 0x7465646279746573⟩ message
  let s := absorb s (UInt64.ofNat (message.length % 256 * 2 ^ 56 + ofLe rest))
  let s := round (round (round { s with v2 := s.v2 ^^^ 0xff }))
  s.v0 ^^^ s.v1 ^^^ s.v2 ^^^ s.v3

example : hash13 0 0 [] = 15130871412783076140 := by decide +kernel

example : hash13 0 0 ((List.range 20).map UInt8.ofNat) = 7178233520606413056 := by decide +kernel

end SipHash
