import Scriptlet.Value.Basic

set_option autoImplicit false

/-! # Equality and order of values

Both are defined on every pair of values. Whole numbers compare exactly, a whole number and a float
as floats; texts compare by code points; arrays element by element. Values of different kinds are
never equal, and the order is defined between numbers, between texts and between arrays only.

An array is equal to itself without a look at its elements. Two different arrays that contain
themselves may have no answer at all: the comparison would go down forever. The functions here take
a bound on the depth and give nothing when it is reached. Below an undecided pair of arrays lies
another such pair, so a comparison that goes deeper than there are pairs of arrays has met a pair
twice and never ends: with `comparisonBound`, no answer means exactly that. -/

namespace Scriptlet

namespace Number

/-- Equality of numbers. -/
def equal : Number → Number → Bool
  | int a, int b => a == b
  | a, b => a.toFloat == b.toFloat

/-- Order of floats; none with a NaN. -/
def compareFloats? (a b : Float) : Option Ordering :=
  if a < b then some .lt
  else if a == b then some .eq
  else if b < a then some .gt
  else none

/-- Order of numbers; none with a NaN. -/
def compare? : Number → Number → Option Ordering
  | int a, int b => some (compare a.toInt b.toInt)
  | a, b => compareFloats? a.toFloat b.toFloat

end Number

/-- Order of texts, by code points. -/
def compareTexts (a b : String) : Ordering :=
  if a < b then .lt else if a = b then .eq else .gt

/-! ## Lists of elements -/

/-- Whether two lists have equal members throughout; the first difference decides. -/
def allEqual? (equal? : Value → Value → Option Bool) : List Value → List Value → Option Bool
  | [], [] => some true
  | a :: as, b :: bs =>
    match equal? a b with
    | some true => allEqual? equal? as bs
    | answer => answer
  | _, _ => some false

/-- Order of two lists: the first members that differ decide, or else the lengths. The inner answer
    is none where two members cannot be compared. -/
def compareAll? (compare? : Value → Value → Option (Option Ordering)) :
    List Value → List Value → Option (Option Ordering)
  | [], [] => some (some .eq)
  | [], _ :: _ => some (some .lt)
  | _ :: _, [] => some (some .gt)
  | a :: as, b :: bs =>
    match compare? a b with
    | some (some .eq) => compareAll? compare? as bs
    | answer => answer

namespace Heap

/-- Equality of values, `depth` levels of arrays deep. -/
def equalWithin (heap : Heap) : (depth : Nat) → Value → Value → Option Bool
  | 0, _, _ => none
  | depth + 1, left, right =>
    match left, right with
    | .text a, .text b => some (a == b)
    | .array a, .array b =>
      if a = b then some true
      else if (heap.elements a).size ≠ (heap.elements b).size then some false
      else
        allEqual? (heap.equalWithin depth) (heap.elements a).toList (heap.elements b).toList
    | left, right =>
      match left.number?, right.number? with
      | some a, some b => some (a.equal b)
      | _, _ => some false

/-- Order of values, `depth` levels of arrays deep. -/
def compareWithin (heap : Heap) : (depth : Nat) → Value → Value → Option (Option Ordering)
  | 0, _, _ => none
  | depth + 1, left, right =>
    match left, right with
    | .text a, .text b => some (some (compareTexts a b))
    | .array a, .array b =>
      if a = b then some (some .eq)
      else
        compareAll? (heap.compareWithin depth) (heap.elements a).toList (heap.elements b).toList
    | left, right =>
      match left.number?, right.number? with
      | some a, some b => some (a.compare? b)
      | _, _ => some none

/-- More levels than there are pairs of arrays. -/
def comparisonBound (heap : Heap) : Nat :=
  heap.cells.size * heap.cells.size + 2

/-- Equality of values; nothing if the comparison never ends. -/
def equal? (heap : Heap) (left right : Value) : Option Bool :=
  heap.equalWithin heap.comparisonBound left right

/-- Order of values; nothing if the comparison never ends, and an inner none if it has no
    outcome. -/
def compare? (heap : Heap) (left right : Value) : Option (Option Ordering) :=
  heap.compareWithin heap.comparisonBound left right

/-- The position of the first element that equals `v`; nothing if a comparison on the way never
    ends. -/
def position? (heap : Heap) (v : Value) : List Value → Option (Option Nat)
  | [] => some none
  | a :: as =>
    match heap.equal? a v with
    | none => none
    | some true => some (some 0)
    | some false => (heap.position? v as).map (·.map (· + 1))

end Heap

end Scriptlet
