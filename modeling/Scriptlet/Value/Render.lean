import Scriptlet.Decimal.Shortest
import Scriptlet.Value.Basic
import Scriptlet.SipHash

set_option autoImplicit false

/-! # The text of values

How values are written, and the number that identifies a value.

Arrays may contain themselves. Writing one keeps the handles of the arrays that it is inside of; an
array met among them is written as `[...]`. Since those handles are distinct, their number is
bounded by the size of the heap, and writing comes to an end. -/

namespace Scriptlet

/-! ## Floats -/

/-- Whole floats below this bound are written exactly and with a fraction of one zero. -/
def exactBelow : Nat := Nat.pow 10 16

/-- The text of a float: exact and with `.0` for a whole number that is not too large, otherwise the
    fewest digits that read back, all in their places. -/
def renderFloat (x : Float) : String :=
  match Decimal.Binary64.ofFloat x with
  | .nan => "nan"
  | .infinite negative => if negative then "-inf" else "inf"
  | .finite negative mantissa exponent =>
    let (numerator, denominator) := Decimal.fractionOf mantissa exponent
    let digits :=
      if numerator % denominator = 0 ∧ numerator / denominator < exactBelow then
        Decimal.digits (numerator / denominator) ++ ['.', '0']
      else (Decimal.shortest mantissa exponent).positional
    String.ofList (if negative then '-' :: digits else digits)

/-! ## Values -/

/-- The text of a value, with the given text for an array. Quoted, a text stands between single
    quotes with nothing escaped. -/
def Value.renderWith (array : Handle → String) (quoted : Bool) : Value → String
  | .int n => Decimal.ofInt n.toInt
  | .float x => renderFloat x
  | .bool b => if b then "True" else "False"
  | .text s => if quoted then "'" ++ s ++ "'" else s
  | .array h => array h

/-- Whether a value is an array with the given property. -/
def Value.isArrayWith (property : Handle → Bool) : Value → Bool
  | .array h => property h
  | _ => false

namespace Heap

/-- Stands for an array inside itself. -/
def cycleMark : String := "[...]"

/-- The text of an array inside the given others, at most `budget` arrays deep. -/
def renderArray (heap : Heap) : (budget : Nat) → (ancestors : List Handle) → Handle → String
  | 0, _, _ => cycleMark
  | budget + 1, ancestors, h =>
    if h ∈ ancestors then cycleMark
    else
      let items := (heap.elements h).toList.map
        (Value.renderWith (renderArray heap budget (h :: ancestors)) true)
      "[" ++ String.intercalate ", " items ++ "]"

/-- The text of a value; only texts inside arrays are quoted. -/
def display (heap : Heap) (v : Value) : String :=
  v.renderWith (heap.renderArray (heap.cells.size + 1) []) false

/-- The text of a value as it would stand inside an array. -/
def inspect (heap : Heap) (v : Value) : String :=
  v.renderWith (heap.renderArray (heap.cells.size + 1) []) true

/-- Whether writing an array inside the given others comes to the elements of `held`. -/
def arrayOpens (heap : Heap) (held : Handle) :
    (budget : Nat) → (ancestors : List Handle) → Handle → Bool
  | 0, _, _ => false
  | budget + 1, ancestors, h =>
    if h ∈ ancestors then false
    else
      h == held || (heap.elements h).toList.any
        (Value.isArrayWith (arrayOpens heap held budget (h :: ancestors)))

/-- Whether writing a value comes to the elements of an array. -/
def opens (heap : Heap) (held : Handle) (v : Value) : Bool :=
  v.isArrayWith (heap.arrayOpens held (heap.cells.size + 1) [])

/-- Indices, each between brackets. -/
def displayPath (heap : Heap) (path : List Value) : String :=
  String.join (path.map fun index => "[" ++ heap.display index ++ "]")

end Heap

/-! ## Identity -/

/-- Identities of arrays start here. -/
def firstIdentity : Nat := 1 <<< 44

/-- Distance between identities of arrays. -/
def identityStride : Nat := 16

/-- The number that identifies a value. A whole number is its own. An array has one that no other
    array has. Any other value is identified by the hash of its kind and its text, each closed by a
    byte that occurs in neither. -/
def Value.identity : Value → Int64
  | .int n => n
  | .array h => .ofNat (firstIdentity + identityStride * h.index)
  | v =>
    let field (s : String) : List UInt8 := s.toUTF8.toList ++ [0xFF]
    (SipHash.hash (field v.kind.name ++ field (v.renderWith (fun _ => "") false))).toInt64

end Scriptlet
