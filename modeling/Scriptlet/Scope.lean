import Scriptlet.Bindings
import Scriptlet.Value.Basic

set_option autoImplicit false

/-! # Scopes

Bindings of values with a stack of saved copies. Restoring brings back the bindings as they were
saved, and with them the handles of arrays; the arrays themselves keep every change, because saving
copies handles and not elements. -/

namespace Scriptlet

/-- Bindings, the arrays that they share, and saved bindings, the latest first. -/
structure Scope where
  bindings : Bindings Value := {}
  heap : Heap := {}
  saved : List (Bindings Value) := []
deriving DecidableEq

namespace Scope

/-- What can be done with a scope. -/
inductive Step where
  | set (name : String) (v : Value)
  /-- Binds a name to what another one is bound to. -/
  | alias (name other : String)
  /-- Adds an element to the array that a name is bound to. -/
  | push (name : String) (v : Value)
  | get (name : String)
  | contains (name : String)
  | checkpoint
  | restore

/-- What a step answers. -/
inductive Answer where
  | none
  | truth (b : Bool)
  | value (v : Value)
  | count (n : Nat)

/-- One step: its answer and the scope afterwards. -/
def apply (scope : Scope) : Step → Answer × Scope
  | .set name v => (.none, { scope with bindings := scope.bindings.insert name v })
  | .alias name other =>
    match scope.bindings.get? other with
    | some v => (.truth true, { scope with bindings := scope.bindings.insert name v })
    | none => (.truth false, scope)
  | .push name v =>
    match scope.bindings.get? name with
    | some (.array h) => (.truth true, { scope with heap := scope.heap.push h v })
    | _ => (.truth false, scope)
  | .get name =>
    match scope.bindings.get? name with
    | some v => (.value v, scope)
    | none => (.none, scope)
  | .contains name => (.truth (scope.bindings.contains name), scope)
  | .checkpoint =>
    let saved := scope.bindings :: scope.saved
    (.count saved.length, { scope with saved })
  | .restore =>
    match scope.saved with
    | [] => (.none, scope)
    | bindings :: saved => (.count saved.length, { scope with bindings, saved })

end Scope

end Scriptlet
