set_option autoImplicit false

/-! # Values and arrays

A value is a number, a truth value, a text, or a handle to an array. Arrays live in a `Heap` and are
shared: copying a value copies the handle, and whoever holds the handle sees every change. A heap
only grows. A handle that it never gave out stands for an empty array, so reading is total. -/

namespace Scriptlet

/-- Identifies an array of a heap. -/
structure Handle where
  index : Nat
deriving DecidableEq, Repr, Inhabited

/-- What expressions evaluate to. -/
inductive Value where
  | int (n : Int64)
  | float (x : Float)
  | bool (b : Bool)
  | text (s : String)
  | array (h : Handle)
deriving DecidableEq, Inhabited

/-- The kinds of values. -/
inductive Kind where
  | int | float | bool | text | array
deriving DecidableEq, Repr

/-- How a kind is called. -/
def Kind.name : Kind → String
  | int => "int"
  | float => "float"
  | bool => "bool"
  | text => "string"
  | array => "array"

/-- Numbers that arithmetic works on. -/
inductive Number where
  | int (n : Int64)
  | float (x : Float)
deriving DecidableEq

namespace Number

/-- A number as a float; a whole number goes to the nearest one, ties to even. -/
def toFloat : Number → Float
  | int n => Float.ofInt n.toInt
  | float x => x

/-- A number as a value. -/
def toValue : Number → Value
  | int n => .int n
  | float x => .float x

end Number

namespace Value

/-- The kind of a value. -/
def kind : Value → Kind
  | int _ => .int
  | float _ => .float
  | bool _ => .bool
  | text _ => .text
  | array _ => .array

/-- Truth values count as zero and one. -/
def ofBool (b : Bool) : Int64 :=
  if b then 1 else 0

/-- The number that a value is. -/
def number? : Value → Option Number
  | int n => some (.int n)
  | float x => some (.float x)
  | bool b => some (.int (ofBool b))
  | _ => none

/-- The whole number that a value is, as used for positions and counts. -/
def integer? : Value → Option Int64
  | int n => some n
  | bool b => some (ofBool b)
  | _ => none

end Value

/-! ## Heaps -/

/-- The arrays made so far; a handle is a position in `cells`. -/
structure Heap where
  cells : Array (Array Value) := #[]
deriving DecidableEq, Inhabited

namespace Heap

/-- The elements of an array. -/
def elements (heap : Heap) (h : Handle) : Array Value :=
  heap.cells.getD h.index #[]

/-- Makes a new array. -/
def alloc (heap : Heap) (elements : Array Value) : Handle × Heap :=
  (⟨heap.cells.size⟩, ⟨heap.cells.push elements⟩)

/-- Changes the elements of an array. -/
def modify (heap : Heap) (h : Handle) (f : Array Value → Array Value) : Heap :=
  ⟨heap.cells.modify h.index f⟩

/-- Adds an element at the end of an array. -/
def push (heap : Heap) (h : Handle) (v : Value) : Heap :=
  heap.modify h (·.push v)

@[simp]
theorem elements_alloc_self (heap : Heap) (elements : Array Value) :
    (heap.alloc elements).2.elements (heap.alloc elements).1 = elements := by
  simp [alloc, Heap.elements, Array.getD]

theorem elements_alloc_of_lt (heap : Heap) (elements : Array Value) {h : Handle}
    (lt : h.index < heap.cells.size) :
    (heap.alloc elements).2.elements h = heap.elements h := by
  simp [alloc, Heap.elements, Array.getD, Array.getElem_push, lt, Nat.lt_succ_of_lt lt]

theorem elements_modify_self (heap : Heap) {h : Handle} (f : Array Value → Array Value)
    (lt : h.index < heap.cells.size) :
    (heap.modify h f).elements h = f (heap.elements h) := by
  simp [modify, Heap.elements, Array.getD, Array.getElem_modify, lt]

theorem elements_modify_of_ne (heap : Heap) {h k : Handle} (f : Array Value → Array Value)
    (ne : h ≠ k) : (heap.modify h f).elements k = heap.elements k := by
  have differ : h.index ≠ k.index := fun same => ne (by cases h; cases k; simp_all)
  by_cases lt : k.index < heap.cells.size
  · simp [modify, Heap.elements, Array.getD, lt, Array.getElem_modify, differ]
  · simp [modify, Heap.elements, Array.getD, lt]

/-- Zero, false, and empty texts and arrays are not true; everything else is. -/
def truthy (heap : Heap) : Value → Bool
  | .int n => n != 0
  | .float x => x != 0.0
  | .bool b => b
  | .text s => !s.isEmpty
  | .array h => !(heap.elements h).isEmpty

end Heap

end Scriptlet
