import Scriptlet.Expr.Basic

set_option autoImplicit false

/-! # Statements

Statement trees. A block is a list of statements; blocks read from source text are never empty, so
an empty `else` block stands for none being written. -/

namespace Scriptlet

/-- The two ways to step a variable by one. -/
inductive Direction where
  | up | down
deriving DecidableEq, Repr

/-- The symbol of a step. -/
def Direction.symbol : Direction → Symbol
  | up => .plusPlus
  | down => .minusMinus

/-- A statement. -/
inductive Stmt where
  | exit
  | print (arguments : List Expr)
  | branch (condition : Expr) (thenBlock elseBlock : List Stmt)
  | whileLoop (condition : Expr) (body : List Stmt)
  | forLoop (init : Stmt) (condition : Expr) (step : Stmt) (body : List Stmt)
  | define (name : String) (parameters : List String) (body : List Stmt)
  | return_ (value : Expr)
  /-- A call that is not part of an expression. -/
  | call (function : String) (arguments : List Expr)
  | assign (name : String) (value : Expr)
  /-- Several names at once; names and values need not be equally many. -/
  | assignAll (names : List String) (values : List Expr)
  /-- Binds a global name. -/
  | declareGlobal (name : String) (value : Expr)
  /-- Copies a local binding to the globals. -/
  | promote (name : String)
  | assignIndex (name : String) (indices : List Expr) (value : Expr)
  | append (target value : Expr)
  | remove (target value : Expr)
  | increment (name : String) (direction : Direction)
  | compound (name : String) (op : Arithmetic) (value : Expr)
  /-- An expression evaluated for its effects. -/
  | expression (e : Expr)
deriving Inhabited

/-- A list of statements. -/
abbrev Block := List Stmt

/-- What a function name stands for. -/
structure Function where
  parameters : List String
  body : Block
deriving Inhabited

end Scriptlet
