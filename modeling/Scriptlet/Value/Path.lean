import Scriptlet.Value.Basic

set_option autoImplicit false

/-! # Paths into values

Indices lead from a value to an element of an element. Positions count from zero, and negative ones
from the end; truth values count as positions. Arrays and texts can be read through, where the
elements of a text are its characters, but only arrays can be written to. -/

namespace Scriptlet

/-- The place that a position means in something of the given length. -/
def placeOf? (position : Int64) (length : Nat) : Option Nat :=
  let place := if position.toInt < 0 then position.toInt + length else position.toInt
  if 0 ≤ place ∧ place < length then some place.toNat else none

namespace Heap

/-- The place of an array that an index means. -/
def slot? (heap : Heap) (h : Handle) (index : Value) : Option Nat :=
  index.integer?.bind fun position => placeOf? position (heap.elements h).size

/-- One step into a value. -/
def at? (heap : Heap) (container index : Value) : Option Value :=
  match container with
  | .array h => (heap.slot? h index).bind fun place => (heap.elements h)[place]?
  | .text s =>
    let characters := s.toList
    index.integer?.bind fun position =>
      (placeOf? position characters.length).bind fun place =>
        characters[place]?.map fun c => .text c.toString
  | _ => none

/-- All steps of a path, one after another. -/
def follow? (heap : Heap) (v : Value) : List Value → Option Value
  | [] => some v
  | index :: path => (heap.at? v index).bind fun inner => heap.follow? inner path

/-- Writes to the place that a path leads to, which must be in an array; so must everything on the
    way. An empty path leads to no place. -/
def write? (heap : Heap) (h : Handle) (v : Value) : List Value → Option Heap
  | [] => none
  | [index] => (heap.slot? h index).map fun place => heap.modify h (·.setIfInBounds place v)
  | index :: path =>
    match heap.at? (.array h) index with
    | some (.array inner) => heap.write? inner v path
    | _ => none

/-- The array in which the last index of a path means a place, if the others lead to one. -/
def holder? (heap : Heap) (h : Handle) : List Value → Option Handle
  | [] => none
  | [_] => some h
  | index :: path =>
    match heap.at? (.array h) index with
    | some (.array inner) => heap.holder? inner path
    | _ => none

end Heap

end Scriptlet
