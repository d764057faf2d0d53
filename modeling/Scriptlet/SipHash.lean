set_option autoImplicit false

/-! # SipHash-1-3

A 64-bit keyed hash of a byte sequence: one round per 8-byte word and three to finish, here with
both keys zero. Words are little-endian; the last one holds the bytes left over and, in its top
byte, the length of the input modulo 256. -/

namespace Scriptlet.SipHash

/-- The four words that the rounds mix. -/
structure State where
  v0 : UInt64
  v1 : UInt64
  v2 : UInt64
  v3 : UInt64
deriving DecidableEq, Repr

/-- The state before any input, for keys zero. -/
def State.initial : State where
  v0 := 0x736f6d6570736575
  v1 := 0x646f72616e646f6d
  v2 := 0x6c7967656e657261
  v3 := 0x7465646279746573

/-- `x` with its bits turned left by `n` places, `0 < n < 64`. -/
def rotateLeft (x : UInt64) (n : UInt64) : UInt64 :=
  (x <<< n) ||| (x >>> (64 - n))

/-- One round. -/
def State.round (s : State) : State :=
  let v0 := s.v0 + s.v1
  let v1 := rotateLeft s.v1 13 ^^^ v0
  let v0 := rotateLeft v0 32
  let v2 := s.v2 + s.v3
  let v3 := rotateLeft s.v3 16 ^^^ v2
  let v0 := v0 + v3
  let v3 := rotateLeft v3 21 ^^^ v0
  let v2 := v2 + v1
  let v1 := rotateLeft v1 17 ^^^ v2
  let v2 := rotateLeft v2 32
  ⟨v0, v1, v2, v3⟩

/-- Mixes one word in. -/
def State.absorb (s : State) (word : UInt64) : State :=
  let t := { s with v3 := s.v3 ^^^ word }.round
  { t with v0 := t.v0 ^^^ word }

/-- The number that bytes spell, least significant first. -/
def littleEndian : List UInt8 → UInt64
  | [] => 0
  | b :: rest => b.toUInt64 ||| (littleEndian rest <<< 8)

/-- Mixes all words of `bytes` in; `length` is that of the whole input. -/
def State.absorbAll (length : Nat) (s : State) : List UInt8 → State
  | b0 :: b1 :: b2 :: b3 :: b4 :: b5 :: b6 :: b7 :: rest =>
    (s.absorb (littleEndian [b0, b1, b2, b3, b4, b5, b6, b7])).absorbAll length rest
  | rest => s.absorb (littleEndian rest ||| (UInt64.ofNat length <<< 56))

/-- The closing rounds. -/
def State.finish (s : State) : UInt64 :=
  let t := { s with v2 := s.v2 ^^^ 0xFF }.round.round.round
  t.v0 ^^^ t.v1 ^^^ t.v2 ^^^ t.v3

/-- The hash of a byte sequence. -/
def hash (bytes : List UInt8) : UInt64 :=
  (State.initial.absorbAll bytes.length bytes).finish

end Scriptlet.SipHash
