import Scriptlet.Token.Basic

set_option autoImplicit false

/-! # Expressions

Operators, expression trees and their written form. `Expr.render` writes every binary operator with
parentheses around it, so the form shows the tree; literals of text stand between double quotes with
nothing escaped. -/

namespace Scriptlet

/-! ## Operators -/

/-- The operators that have a compound assignment. -/
inductive Arithmetic where
  | add | subtract | multiply | divide
deriving DecidableEq, Repr

/-- The operators that compare by order. -/
inductive Relation where
  | greater | less | greaterEqual | lessEqual
deriving DecidableEq, Repr

/-- Operators between two expressions. -/
inductive BinaryOp where
  | arithmetic (op : Arithmetic)
  | and | or
  | equal | notEqual
  | order (r : Relation)
deriving DecidableEq, Repr

/-- The symbol of an arithmetic operator. -/
def Arithmetic.symbol : Arithmetic → Symbol
  | add => .plus
  | subtract => .minus
  | multiply => .star
  | divide => .slash

/-- The symbol of a comparison. -/
def Relation.symbol : Relation → Symbol
  | greater => .greater
  | less => .less
  | greaterEqual => .greaterEqual
  | lessEqual => .lessEqual

/-- The operator of a compound assignment symbol, such as `+` of `+=`. -/
def Arithmetic.ofCompound? : Symbol → Option Arithmetic
  | .plusAssign => some add
  | .minusAssign => some subtract
  | .starAssign => some multiply
  | .slashAssign => some divide
  | _ => none

namespace BinaryOp

/-- The symbol of an operator. -/
def symbol : BinaryOp → Symbol
  | arithmetic op => op.symbol
  | and => .and
  | or => .or
  | equal => .equal
  | notEqual => .notEqual
  | order r => r.symbol

/-- The operator that a symbol stands for. -/
def ofSymbol? : Symbol → Option BinaryOp
  | .plus => some (arithmetic .add)
  | .minus => some (arithmetic .subtract)
  | .star => some (arithmetic .multiply)
  | .slash => some (arithmetic .divide)
  | .and => some and
  | .or => some or
  | .greater => some (order .greater)
  | .less => some (order .less)
  | .equal => some equal
  | .greaterEqual => some (order .greaterEqual)
  | .lessEqual => some (order .lessEqual)
  | .notEqual => some notEqual
  | _ => none

/-- The written form of an operator. -/
def text (op : BinaryOp) : String := op.symbol.text

@[simp]
theorem ofSymbol?_symbol (op : BinaryOp) : ofSymbol? op.symbol = some op := by
  cases op with
  | arithmetic a => cases a <;> rfl
  | order r => cases r <;> rfl
  | _ => rfl

/-- How tightly operators bind. -/
inductive Level where
  /-- Binds last and groups to the left. -/
  | loose
  /-- Binds before `loose` and groups to the left. -/
  | middle
  /-- Binds first and groups to the right. -/
  | tight
deriving DecidableEq, Repr

/-- The level of each operator. The strict comparisons and `||` bind like a sum. -/
def level : BinaryOp → Level
  | arithmetic .multiply | arithmetic .divide => .tight
  | arithmetic .add | arithmetic .subtract | or | order .greater | order .less => .middle
  | and | equal | notEqual | order .greaterEqual | order .lessEqual => .loose

/-- The operator that a symbol stands for, if it is of the given level. -/
def ofSymbolAt? (level : Level) (s : Symbol) : Option BinaryOp :=
  (ofSymbol? s).filter (·.level == level)

end BinaryOp

/-! ## Trees -/

/-- An expression. An empty argument or element list stands for none being written. -/
inductive Expr where
  | int (n : Int64)
  | text (s : String)
  | name (s : String)
  | binary (op : BinaryOp) (left right : Expr)
  | call (function : String) (arguments : List Expr)
  /-- A variable read through one or more indices. -/
  | index (container : String) (indices : List Expr)
  | array (elements : List Expr)
  /-- The value of a text read as an expression. -/
  | eval (operand : Expr)
  /-- The identity of a value. -/
  | id (operand : Expr)
deriving Inhabited

namespace Expr

mutual

/-- The written form of an expression. -/
def render : Expr → String
  | int n => Decimal.ofInt n.toInt
  | text s => "\"" ++ s ++ "\""
  | name s => s
  | binary op left right => "(" ++ left.render ++ " " ++ op.text ++ " " ++ right.render ++ ")"
  | call f arguments => f ++ "(" ++ String.intercalate ", " (renderAll arguments) ++ ")"
  | index v indices => v ++ renderIndices indices
  | array elements => "[" ++ String.intercalate ", " (renderAll elements) ++ "]"
  | eval e => "eval(" ++ e.render ++ ")"
  | id e => "id(" ++ e.render ++ ")"

/-- The written forms of the members of a list. -/
def renderAll : List Expr → List String
  | [] => []
  | e :: es => e.render :: renderAll es

/-- Indices, each between brackets. -/
def renderIndices : List Expr → String
  | [] => ""
  | e :: es => "[" ++ e.render ++ "]" ++ renderIndices es

end

@[simp]
theorem renderAll_eq_map (es : List Expr) : renderAll es = es.map render := by
  induction es with
  | nil => rfl
  | cons e es ih => simp [renderAll, ih]

end Expr

end Scriptlet
