import Scriptlet.Decimal.Basic
import Scriptlet.Decimal.Binary64

set_option autoImplicit false

/-! # Shortest decimals

The decimal with the fewest digits that reads back as a given binary64 number.

A decimal reads back as `m · 2 ^ q` when it lies in the interval of reals that round to it: half a
step to either side, with the ends included when `m` is even. The step below the least number of a
binade is half as long. For one digit, two digits and so on the two neighbours of the number on that
decimal grid are tried; if any point of a grid lies in the interval, so does one of these two. The
first grid with a hit wins, of two hits the nearer one, and of two equally near ones the upper. -/

namespace Scriptlet.Decimal

/-- A positive number and the interval around it, as numerators over one denominator. -/
structure Rounding where
  low : Nat
  value : Nat
  high : Nat
  denominator : Nat
  /-- Whether the ends belong to the interval. -/
  closed : Bool
deriving DecidableEq, Repr

namespace Rounding

/-- The interval of `mantissa · 2 ^ exponent`, counted in quarters of its last binary place. -/
def ofBinary (mantissa : Nat) (exponent : Int) : Rounding :=
  let narrow := mantissa == Binary64.leadingMantissa && Binary64.leastExponent < exponent
  let (unit, denominator) := fractionOf 1 (exponent - 2)
  { low := (4 * mantissa - (if narrow then 1 else 2)) * unit
    value := 4 * mantissa * unit
    high := (4 * mantissa + 2) * unit
    denominator
    closed := mantissa % 2 == 0 }

/-- The interval divided by `10 ^ exponent`. -/
def rescale (r : Rounding) (exponent : Int) : Rounding :=
  let factor := Nat.pow 10 (-exponent).toNat
  { low := r.low * factor
    value := r.value * factor
    high := r.high * factor
    denominator := r.denominator * Nat.pow 10 exponent.toNat
    closed := r.closed }

/-- Whether the whole number `n` lies in the interval. -/
def contains (r : Rounding) (n : Nat) : Bool :=
  let point := n * r.denominator
  if r.closed then r.low ≤ point && point ≤ r.high else r.low < point && point < r.high

/-- The whole number of the interval that is nearest to the value, if one of the value's two
    neighbours lies in it; a tie goes up. -/
def nearest? (r : Rounding) : Option Nat :=
  let below := r.value / r.denominator
  match r.contains below, r.contains (below + 1) with
  | true, true => some (if 2 * (r.value % r.denominator) < r.denominator then below else below + 1)
  | true, false => some below
  | false, true => some (below + 1)
  | false, false => none

/-- The least `e` with `value < 10 ^ e`. -/
def magnitude (r : Rounding) : Int :=
  let whole := r.value / r.denominator
  if 0 < whole then (digits whole).length
  else 1 - ((digits ((r.denominator - 1) / r.value)).length : Int)

end Rounding

/-- `d` without the zeros at the end of its coefficient, at most `budget` of them. -/
def Scaled.trim : Nat → Scaled → Scaled
  | 0, d => d
  | budget + 1, d =>
    if d.coefficient ≠ 0 ∧ d.coefficient % 10 = 0 then
      trim budget ⟨d.coefficient / 10, d.exponent + 1⟩
    else d

/-- Seventeen digits always suffice. -/
def mostDigits : Nat := 17

/-- The decimal with the fewest digits that reads back as `mantissa · 2 ^ exponent`, for a positive
    mantissa. -/
def shortest (mantissa : Nat) (exponent : Int) : Scaled :=
  let r := Rounding.ofBinary mantissa exponent
  let magnitude := r.magnitude
  let hit? (count : Nat) : Option Scaled :=
    let place := magnitude - count
    (r.rescale place).nearest?.map fun n => (Scaled.mk n place).trim mostDigits
  ((List.range' 1 mostDigits).findSome? hit?).getD ⟨mantissa, 0⟩

end Scriptlet.Decimal
