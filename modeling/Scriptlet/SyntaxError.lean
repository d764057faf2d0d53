import Scriptlet.Token.Basic

set_option autoImplicit false

/-! # Syntax errors

Why a token list is not a program. An error names the first token that does not fit, or the end of
the input, and a `Reason`. Most reasons have one shape: something is missing behind something
else. -/

namespace Scriptlet

/-- What is missing. -/
inductive Wanted where
  | symbol (s : Symbol)
  | keyword (k : Keyword)
  | name
  | parameterName
deriving DecidableEq, Repr

/-- Parts of a construct that are named after its keyword. -/
inductive Part where
  | condition | block | body | initializer | step | target | value | operand
deriving DecidableEq, Repr

/-- Behind what it is missing. -/
inductive Place where
  | keyword (k : Keyword)
  | part (k : Keyword) (p : Part)
  | symbol (s : Symbol)
  | printArguments
  | functionName
  | functionParameters
  | functionBody
  | names
  | expression
  | arrayElements
  | callArguments
  | indexExpression
  | statement
deriving DecidableEq, Repr

/-- Why reading stops. -/
inductive Reason where
  | missing (wanted : Wanted) (place : Place)
  /-- No expression starts here. -/
  | expression
  /-- No statement starts here. -/
  | statement
  /-- The expression was to be all there is. -/
  | endOfExpression
  /-- One more level of nesting than allowed. -/
  | tooDeep
deriving DecidableEq, Repr

namespace Wanted

/-- How a missing thing is called; words of the language stand between quotes. -/
def text : Wanted → String
  | symbol s => "'" ++ s.text ++ "'"
  | keyword k => "'" ++ k.text ++ "'"
  | name => "name"
  | parameterName => "parameter name"

end Wanted

/-- How a part is called. -/
def Part.text : Part → String
  | condition => "condition"
  | block => "block"
  | body => "body"
  | initializer => "initializer"
  | step => "step"
  | target => "target"
  | value => "value"
  | operand => "operand"

/-- How a place is called. -/
def Place.text : Place → String
  | keyword k => "'" ++ k.text ++ "'"
  | part k p => "'" ++ k.text ++ "' " ++ p.text
  | symbol s => "'" ++ s.text ++ "'"
  | printArguments => "print arguments"
  | functionName => "function name"
  | functionParameters => "function parameters"
  | functionBody => "function body"
  | names => "names"
  | expression => "expression"
  | arrayElements => "array elements"
  | callArguments => "function call arguments"
  | indexExpression => "index expression"
  | statement => "statement"

/-- The wording of a reason. -/
def Reason.message : Reason → String
  | missing wanted place => "Expected " ++ wanted.text ++ " after " ++ place.text
  | expression => "Expected expression"
  | statement => "Expected statement"
  | endOfExpression => "Expected end of expression"
  | tooDeep => "Nested too deeply"

/-- A reason and the token that gave it; no token stands for the end of the input. -/
structure SyntaxError where
  reason : Reason
  found : Option Token
deriving DecidableEq, Repr

/-- The report of a syntax error. -/
def SyntaxError.message (e : SyntaxError) : String :=
  match e.found with
  | some t =>
    "Syntax error at line " ++ Decimal.ofInt t.position.line ++ " : " ++ t.text ++
      " (" ++ e.reason.message ++ ")"
  | none => "Syntax error at end of input (" ++ e.reason.message ++ ")"

end Scriptlet
