set_option autoImplicit false

/-! # Decimal numerals

Digits of a natural number and the number that digits spell; the two undo each other. On top of
them the positional text of `c · 10 ^ e`, which never uses an exponent mark. -/

namespace Scriptlet.Decimal

/-- The digits of a natural number, most significant first and without leading zeros. -/
def digits (n : Nat) : List Char :=
  Nat.toDigits 10 n

/-- The number that a digit run spells; leading zeros do not count. -/
def value (ds : List Char) : Nat :=
  Nat.ofDigitChars 10 ds 0

theorem value_digits (n : Nat) : value (digits n) = n :=
  Nat.ofDigitChars_toDigits (by decide) (by decide)

/-- The text of an integer: a minus sign in front of a negative one, nothing in front of any
    other. -/
def ofInt (n : Int) : String :=
  String.ofList (if n < 0 then '-' :: digits n.natAbs else digits n.natAbs)

/-- `coefficient · 10 ^ exponent`. -/
structure Scaled where
  coefficient : Nat
  exponent : Int
deriving DecidableEq, Repr

/-- All digits in their places: zeros fill up to the point on either side, and there is no point
    without a digit behind it. -/
def Scaled.positional (d : Scaled) : List Char :=
  let ds := digits d.coefficient
  if 0 ≤ d.exponent then
    ds ++ List.replicate d.exponent.toNat '0'
  else
    let places := (-d.exponent).toNat
    let whole := ds.length - places
    if places < ds.length then ds.take whole ++ '.' :: ds.drop whole
    else '0' :: '.' :: List.replicate (places - ds.length) '0' ++ ds

end Scriptlet.Decimal
