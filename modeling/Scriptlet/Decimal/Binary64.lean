set_option autoImplicit false

/-! # Binary64 numbers

The reading of a 64-bit word as a number: a sign, a whole mantissa and a power of two. Everything
that is later written about such a number is computed from these three in exact arithmetic. -/

namespace Scriptlet.Decimal

/-- What a 64-bit word of the binary interchange format stands for. -/
inductive Binary64 where
  /-- Not a number. -/
  | nan
  /-- An infinity. -/
  | infinite (negative : Bool)
  /-- `± mantissa · 2 ^ exponent`. -/
  | finite (negative : Bool) (mantissa : Nat) (exponent : Int)
deriving DecidableEq, Repr

namespace Binary64

/-- The mantissa of the least number of a binade: below it the numbers lie twice as dense. -/
def leadingMantissa : Nat := 1 <<< 52

/-- The exponent of the least binade, where the density does not change any more. -/
def leastExponent : Int := -1074

/-- One sign bit, eleven bits of biased exponent, fifty-two of fraction. -/
def ofBits (word : UInt64) : Binary64 :=
  let bits : Nat := word.toNat
  let negative := bits >>> 63 == 1
  let biased : Nat := bits >>> 52 % 2048
  let fraction : Nat := bits % leadingMantissa
  if biased = 2047 then
    if fraction = 0 then .infinite negative else .nan
  else if biased = 0 then .finite negative fraction leastExponent
  else .finite negative (leadingMantissa + fraction) (leastExponent + biased - 1)

/-- The number that a float holds. -/
def ofFloat (x : Float) : Binary64 :=
  ofBits x.toBits

end Binary64

/-- `mantissa · 2 ^ exponent` as a fraction of natural numbers. -/
def fractionOf (mantissa : Nat) (exponent : Int) : Nat × Nat :=
  (mantissa <<< exponent.toNat, 1 <<< (-exponent).toNat)

end Scriptlet.Decimal
