import Scriptlet.Expr.Basic
import Scriptlet.Parser.Basic

set_option autoImplicit false

/-! # Reading expressions

An expression is a chain of loose operators between chains of middle operators between factors. A
chain groups to the left; a factor is a primary, or a primary, a tight operator and a factor, and so
groups to the right.

Nesting is bounded by a number of levels. Each expression position takes one, and so does each
right operand of a tight operator; the operands of a chain take none. The functions recurse on the
levels left. -/

namespace Scriptlet

/-- Levels of nesting that a source text may use. -/
def nestingLimit : Nat := 128

namespace Expr

open Scriptlet.Parser

/-- An operator of the given level at the front of the tokens. -/
def operator? (level : BinaryOp.Level) : List Token → Option (BinaryOp × List Token)
  | ⟨.symbol s, _⟩ :: rest => (BinaryOp.ofSymbolAt? level s).map (·, rest)
  | _ => none

/-- Operands with operators of one level between them, grouped to the left. -/
def chain (level : BinaryOp.Level) (operand : Parser Expr) : Parser Expr := do
  let first ← operand
  let more ← many (operator? level) fun op => do
    let right ← operand
    return (op, right)
  return more.foldl (fun left (op, right) => .binary op left right) first

/-- The operand of `eval` and `id`. -/
def parenthesized (k : Keyword) (expression : Parser Expr) : Parser Expr := do
  symbol .parenLeft (.keyword k)
  let e ← expression
  symbol .parenRight (.part k .operand)
  return e

/-- Arguments of a call, behind the opening parenthesis. -/
def callArguments (expression : Parser Expr) : Parser (List Expr) := do
  let arguments ← if ← atSymbol .parenRight then pure [] else commaSeparated expression
  symbol .parenRight .callArguments
  return arguments

/-- Elements of an array, behind the opening bracket. -/
def elements (expression : Parser Expr) : Parser (List Expr) := do
  if ← trySymbol .bracketRight then
    return []
  let elements ← commaSeparated expression
  symbol .bracketRight .arrayElements
  return elements

/-- Indices, each between brackets. -/
def indices (expression : Parser Expr) : Parser (List Expr) :=
  many (behind .bracketLeft) fun _ => do
    let e ← expression
    symbol .bracketRight .indexExpression
    return e

/-- What starts with a name: a call, a read through indices, or a variable. -/
def afterName (expression : Parser Expr) (x : String) : Parser Expr := do
  if ← trySymbol .parenLeft then
    return .call x (← callArguments expression)
  match ← indices expression with
  | [] => return .name x
  | indices => return .index x indices

/-- An expression without operators outside of brackets; `expression` reads what stands between
    brackets. -/
def primary (expression : Parser Expr) : Parser Expr := fun tokens =>
  match tokens with
  | ⟨.number ds, _⟩ :: rest => .ok (.int (.ofNat (Decimal.value ds.toList)), rest)
  | ⟨.quoted _ s, _⟩ :: rest => .ok (.text s, rest)
  | ⟨.name x, _⟩ :: rest => afterName expression x rest
  | ⟨.symbol .parenLeft, _⟩ :: rest =>
    (do
      let e ← expression
      symbol .parenRight .expression
      return e : Parser Expr) rest
  | ⟨.symbol .bracketLeft, _⟩ :: rest =>
    (do return .array (← elements expression) : Parser Expr) rest
  | ⟨.keyword .eval, _⟩ :: rest =>
    (do return .eval (← parenthesized .eval expression) : Parser Expr) rest
  | ⟨.keyword .id, _⟩ :: rest =>
    (do return .id (← parenthesized .id expression) : Parser Expr) rest
  | _ => fail .expression tokens

/-- A primary, and behind a tight operator the factor that `right` reads. -/
def factorWith (expression right : Parser Expr) : Parser Expr := do
  let left ← primary expression
  fun tokens =>
    match operator? .tight tokens with
    | none => .ok (left, tokens)
    | some (op, rest) => (do return .binary op left (← right) : Parser Expr) rest

/-- Chains of chains of factors. -/
def chains (factor : Parser Expr) : Parser Expr :=
  chain .loose (chain .middle factor)

/-- A factor with `levels` more levels inside. -/
def factor : (levels : Nat) → Parser Expr
  | 0 => fun tokens => factorWith (fail .tooDeep) (fail .tooDeep) tokens
  | levels + 1 => fun tokens =>
    factorWith (fun rest => chains (factor levels) rest) (fun rest => factor levels rest) tokens

/-- An expression with `levels` levels, its own included. -/
def parser : (levels : Nat) → Parser Expr
  | 0 => fail .tooDeep
  | levels + 1 => fun tokens => chains (factor levels) tokens

end Expr

end Scriptlet
