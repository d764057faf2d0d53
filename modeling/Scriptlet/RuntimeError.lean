import Scriptlet.SyntaxError
import Scriptlet.Stmt.Basic
import Scriptlet.Value.Basic

set_option autoImplicit false

/-! # Runtime errors

Every way in which evaluation can end other than with a value. `exit` is one of them: it unwinds
whatever is running, and a run that it ends counts as a success. `crash` is another: it unwinds as
the others do, but it is no fault of the program, which cannot be told what it did wrong. -/

namespace Scriptlet

/-- Operations with one operand that not every kind of value can be. -/
inductive Operation where
  | step (direction : Direction)
  | eval
deriving DecidableEq, Repr

/-- How an operation is written. -/
def Operation.text : Operation → String
  | step d => d.symbol.text
  | eval => Keyword.eval.text

/-- Why evaluation ends. -/
inductive RuntimeError where
  | variableNotFound (name : String)
  | functionNotFound (name : String)
  | argumentCount (name : String) (expected found : Nat)
  | returnOutsideFunction
  | notAnArray (name : String)
  /-- A value to be removed from an array that does not hold it. -/
  | valueNotFound (value array : String)
  /-- Indices, in written form, that lead nowhere. -/
  | indexNotFound (name path : String)
  | unsupportedOperands (op : BinaryOp) (left right : Kind)
  | invalidOperand (operation : Operation) (kind : Kind)
  | divisionByZero
  | overflow (op : Arithmetic)
  /-- A call inside an expression gave no value. -/
  | noReturnValue (name : String)
  | depthExceeded (limit : Nat)
  | evalDisabled
  /-- A text passed to `eval` is no expression. -/
  | invalidExpression (e : SyntaxError)
  | outputFailed (cause : String)
  | exit
  /-- An array was to be read while it was being written to. -/
  | crash
deriving DecidableEq, Repr

/-- The report of a runtime error. -/
def RuntimeError.message : RuntimeError → String
  | variableNotFound name => "Variable " ++ name ++ " not found"
  | functionNotFound name => "Function " ++ name ++ " not found"
  | argumentCount name expected found =>
    "Wrong number of arguments for function " ++ name ++ ": expected " ++ Decimal.ofInt expected ++
      ", got " ++ Decimal.ofInt found
  | returnOutsideFunction => "Return statement outside of a function"
  | notAnArray name => "Variable " ++ name ++ " is not an array"
  | valueNotFound value array => "Value " ++ value ++ " not found in array " ++ array
  | indexNotFound name path => "Variable " ++ name ++ path ++ " not found"
  | unsupportedOperands op left right =>
    "Unsupported operand types for " ++ op.text ++ ": " ++ left.name ++ " and " ++ right.name
  | invalidOperand operation kind =>
    "Cannot apply " ++ operation.text ++ " to a value of type " ++ kind.name
  | divisionByZero => "Division by zero"
  | overflow op => "Integer overflow in '" ++ op.symbol.text ++ "'"
  | noReturnValue name => "Function " ++ name ++ " did not return a value"
  | depthExceeded limit => "Stack depth exceeded (limit is " ++ Decimal.ofInt limit ++ ")"
  | evalDisabled => "Dynamic evaluation is disabled"
  | invalidExpression e => "Invalid expression passed to eval: " ++ e.message
  | outputFailed cause => "Failed to write output: " ++ cause
  | exit => "Program exited"
  | crash => "already mutably borrowed"

end Scriptlet
