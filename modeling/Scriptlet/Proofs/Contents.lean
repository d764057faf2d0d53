import Scriptlet.Proofs.Tasks

set_option autoImplicit false

/-! # What a tree contains

Two views of what stands inside a tree. `Expr.everywhere` asks something of an expression and of all
expressions inside it; `Stmt.expressions` are the expressions that a statement consists of itself,
as against those of the statements inside it. `Nested` says which statements stand inside a block
and how deep, and counts how many of the steps down lead through the header of a `for`. -/

namespace Scriptlet

/-! ## Expressions -/

mutual

/-- An expression and all expressions inside it are as given. -/
def Expr.everywhere (p : Expr → Bool) : Expr → Bool
  | .binary op left right =>
    p (.binary op left right) && Expr.everywhere p left && Expr.everywhere p right
  | .call f arguments => p (.call f arguments) && Expr.everywhereAll p arguments
  | .index x indices => p (.index x indices) && Expr.everywhereAll p indices
  | .array elements => p (.array elements) && Expr.everywhereAll p elements
  | .eval operand => p (.eval operand) && Expr.everywhere p operand
  | .id operand => p (.id operand) && Expr.everywhere p operand
  | e => p e

/-- All members of a list are as given, and all expressions inside them. -/
def Expr.everywhereAll (p : Expr → Bool) : List Expr → Bool
  | [] => true
  | e :: es => Expr.everywhere p e && Expr.everywhereAll p es

end

namespace Expr

variable {p : Expr → Bool}

theorem everywhereAll_iff {es : List Expr} :
    everywhereAll p es = true ↔ ∀ e ∈ es, e.everywhere p = true := by
  induction es with
  | nil => simp [everywhereAll]
  | cons e es ih => simp [everywhereAll, ih]

/-- One step down: the expression itself, and everywhere in its operands. -/
theorem everywhere_iff {e : Expr} :
    e.everywhere p = true ↔ p e = true ∧ ∀ c ∈ e.operands, c.everywhere p = true := by
  cases e <;> simp [everywhere, operands, everywhereAll_iff, and_assoc]

end Expr

/-- The expressions that a statement consists of, without those of the statements inside it. -/
def Stmt.expressions : Stmt → List Expr
  | print arguments | call _ arguments => arguments
  | assignAll _ values => values
  | assignIndex _ indices value => indices ++ [value]
  | append container value | remove container value => [container, value]
  | branch e _ _ | whileLoop e _ | forLoop _ e _ _ | return_ e | assign _ e | declareGlobal _ e
  | compound _ _ e | expression e => [e]
  | exit | define _ _ _ | promote _ | increment _ _ => []

/-! ## Statements -/

namespace Stmt

/-- The statements of the blocks of a statement. -/
def inBlocks : Stmt → List Stmt
  | branch _ thenBlock elseBlock => thenBlock ++ elseBlock
  | whileLoop _ body | forLoop _ _ _ body | define _ _ body => body
  | _ => []

/-- The statements in the header of a `for`. -/
def clauses : Stmt → List Stmt
  | forLoop init _ step _ => [init, step]
  | _ => []

end Stmt

/-- The statement stands in the block at a depth, where the statements of the block itself have
    depth one, and `headers` of the steps down to it lead into the header of a `for`. -/
inductive Nested (block : Block) : (depth headers : Nat) → Stmt → Prop
  | top {stmt : Stmt} : stmt ∈ block → Nested block 1 0 stmt
  | block {depth headers : Nat} {outer inner : Stmt} :
      Nested block depth headers outer → inner ∈ outer.inBlocks →
        Nested block (depth + 1) headers inner
  | clause {depth headers : Nat} {outer inner : Stmt} :
      Nested block depth headers outer → inner ∈ outer.clauses →
        Nested block (depth + 1) (headers + 1) inner

end Scriptlet
