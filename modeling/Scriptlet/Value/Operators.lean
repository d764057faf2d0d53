import Scriptlet.RuntimeError
import Scriptlet.Value.Compare

set_option autoImplicit false

/-! # Operators on values

Arithmetic on whole numbers is exact or fails; with a float on either side it is float arithmetic.
Division is always float division. `+` also joins texts and arrays, and `*` repeats them; joining
and repeating arrays makes a new array and leaves the operands alone. `&&` and `||` pick one of
their operands. -/

namespace Scriptlet

/-- The 64-bit word of a whole number in range. -/
def wordOf? (n : Int) : Option Int64 :=
  if Int64.minValue.toInt ≤ n ∧ n ≤ Int64.maxValue.toInt then some (.ofInt n) else none

theorem toInt_of_wordOf? {n : Int} {w : Int64} (h : wordOf? n = some w) : w.toInt = n := by
  unfold wordOf? at h
  split at h
  · next range =>
    cases h
    exact Int64.toInt_ofInt_of_le range.1 (Int.lt_add_one_of_le range.2)
  · simp at h

/-! ## Arithmetic -/

namespace Number

/-- Applies an operator to two whole numbers exactly, or to two floats. -/
def combine (op : Arithmetic) (whole : Int → Int → Int) (real : Float → Float → Float) :
    Number → Number → Except RuntimeError Number
  | int a, int b =>
    match wordOf? (whole a.toInt b.toInt) with
    | some n => .ok (int n)
    | none => .error (.overflow op)
  | a, b => .ok (float (real a.toFloat b.toFloat))

/-- Applies an arithmetic operator to two numbers. -/
def apply (op : Arithmetic) (a b : Number) : Except RuntimeError Number :=
  match op with
  | .add => combine .add (· + ·) (· + ·) a b
  | .subtract => combine .subtract (· - ·) (· - ·) a b
  | .multiply => combine .multiply (· * ·) (· * ·) a b
  | .divide =>
    if b.toFloat == 0.0 then .error .divisionByZero else .ok (float (a.toFloat / b.toFloat))

end Number

/-- Applies an arithmetic operator to two values that are numbers. -/
def Value.arithmetic (op : Arithmetic) (left right : Value) : Except RuntimeError Value :=
  match left.number?, right.number? with
  | some a, some b => (Number.apply op a b).map Number.toValue
  | _, _ => .error (.unsupportedOperands (.arithmetic op) left.kind right.kind)

/-! ## Repetition -/

/-- The longest text, in bytes, or array, in elements, that `*` makes. -/
def repetitionLimit : Nat := 1 <<< 24

/-- How many copies `count` asks for of something `length` long, if they are not too long
    together. -/
def copies? (count : Int64) (length : Nat) : Option Nat :=
  let copies := if length = 0 then 0 else count.toInt.toNat
  if copies * length ≤ repetitionLimit then some copies else none

/-- A text or array and a count, in either order. -/
def Value.repetition? : Value → Value → Option (Value × Int64)
  | .text s, count | count, .text s => count.integer?.map (.text s, ·)
  | .array h, count | count, .array h => count.integer?.map (.array h, ·)
  | _, _ => none

/-- A text over and over. -/
def repeatText (copies : Nat) (s : String) : String :=
  Nat.repeat (· ++ s) copies ""

/-- A list of elements over and over. -/
def repeatElements (copies : Nat) (elements : Array Value) : Array Value :=
  Nat.repeat (· ++ elements) copies #[]

/-! ## All operators -/

namespace Heap

/-- Makes a new array and yields it as a value. -/
def allocValue (heap : Heap) (elements : Array Value) : Value × Heap :=
  let (h, heap) := heap.alloc elements
  (.array h, heap)

/-- `left + right`. -/
def add (heap : Heap) (left right : Value) : Except RuntimeError (Value × Heap) :=
  match left, right with
  | .text a, .text b => .ok (.text (a ++ b), heap)
  | .array a, .array b => .ok (heap.allocValue (heap.elements a ++ heap.elements b))
  | left, right => (left.arithmetic .add right).map (·, heap)

/-- `left * right`. -/
def multiply (heap : Heap) (left right : Value) : Except RuntimeError (Value × Heap) :=
  match Value.repetition? left right with
  | some (.text s, count) =>
    match copies? count s.utf8ByteSize with
    | some copies => .ok (.text (repeatText copies s), heap)
    | none => .error (.overflow .multiply)
  | some (.array h, count) =>
    match copies? count (heap.elements h).size with
    | some copies => .ok (heap.allocValue (repeatElements copies (heap.elements h)))
    | none => .error (.overflow .multiply)
  | _ => (left.arithmetic .multiply right).map (·, heap)

/-- Applies an arithmetic operator. -/
def arithmetic (heap : Heap) (op : Arithmetic) (left right : Value) :
    Except RuntimeError (Value × Heap) :=
  match op with
  | .add => heap.add left right
  | .multiply => heap.multiply left right
  | op => (left.arithmetic op right).map (·, heap)

end Heap

/-- Whether a comparison holds of operands in the given order. -/
def Relation.holds : Relation → Ordering → Bool
  | greater, o => o == .gt
  | less, o => o == .lt
  | greaterEqual, o => o != .lt
  | lessEqual, o => o != .gt

/-- Applies an operator; nothing if a comparison never ends. -/
def Heap.apply (heap : Heap) (op : BinaryOp) (left right : Value) :
    Option (Except RuntimeError (Value × Heap)) :=
  match op with
  | .and => some (.ok (if heap.truthy left then right else left, heap))
  | .or => some (.ok (if heap.truthy left then left else right, heap))
  | .equal => (heap.equal? left right).map fun same => .ok (.bool same, heap)
  | .notEqual => (heap.equal? left right).map fun same => .ok (.bool (!same), heap)
  | .order r => (heap.compare? left right).map fun
    | some o => .ok (.bool (r.holds o), heap)
    | none => .error (.unsupportedOperands (.order r) left.kind right.kind)
  | .arithmetic op => some (heap.arithmetic op left right)

end Scriptlet
