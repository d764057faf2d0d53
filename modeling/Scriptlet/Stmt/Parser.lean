import Scriptlet.Stmt.Basic
import Scriptlet.Expr.Parser

set_option autoImplicit false

/-! # Reading statements

The first token of a statement decides its form, unless the statement starts like an expression:
then the expression is read first, and what it is decides what may follow. Every statement of a
block is followed by a semicolon, and a block is never empty.

A block takes one level of nesting. The clauses of a `for` header are statements that take none, so
their recursion is bounded by the number of tokens instead: each `for` takes one. -/

namespace Scriptlet.Stmt

open Scriptlet.Parser

/-! ## Statements that start like an expression -/

/-- What can follow a name. -/
def afterName (expression : Parser Expr) (x : String) : Parser Stmt := fun tokens =>
  match tokens with
  | ⟨.symbol .assign, _⟩ :: rest => (do return .assign x (← expression) : Parser Stmt) rest
  | ⟨.symbol .plusPlus, _⟩ :: rest => .ok (.increment x .up, rest)
  | ⟨.symbol .minusMinus, _⟩ :: rest => .ok (.increment x .down, rest)
  | ⟨.symbol .comma, _⟩ :: _ =>
    (do
      let more ← many (behind .comma) fun _ => name .name (.symbol .comma)
      symbol .assign .names
      return .assignAll (x :: more) (← commaSeparated expression) : Parser Stmt) tokens
  | ⟨.symbol s, _⟩ :: rest =>
    match Arithmetic.ofCompound? s with
    | some op => (do return .compound x op (← expression) : Parser Stmt) rest
    | none => .ok (.expression (.name x), tokens)
  | _ => .ok (.expression (.name x), tokens)

/-- Assignments, calls and bare expressions. -/
def simple (expression : Parser Expr) : Parser Stmt := do
  match ← expression with
  | .name x => afterName expression x
  | .index x indices =>
    if ← trySymbol .assign then
      return .assignIndex x indices (← expression)
    return .expression (.index x indices)
  | .call f arguments => return .call f arguments
  | e => return .expression e

/-! ## Statements that start with a keyword -/

/-- Behind `print`. -/
def printed (expression : Parser Expr) : Parser Stmt := do
  symbol .parenLeft (.keyword .print)
  let arguments ← commaSeparated expression
  symbol .parenRight .printArguments
  return .print arguments

/-- Behind `if`. -/
def branched (block : Parser Block) (expression : Parser Expr) : Parser Stmt := do
  let condition ← expression
  keyword .then_ (.part .if_ .condition)
  let thenBlock ← block
  let elseBlock ← if ← tryKeyword .else_ then block else pure []
  keyword .endif (.part .if_ .block)
  return .branch condition thenBlock elseBlock

/-- Behind `while`. -/
def looped (block : Parser Block) (expression : Parser Expr) : Parser Stmt := do
  let condition ← expression
  keyword .do_ (.part .while_ .condition)
  let body ← block
  keyword .endwhile (.part .while_ .body)
  return .whileLoop condition body

/-- Behind `for`; `clause` reads the first and the last part of the header. -/
def counted (clause : Parser Stmt) (block : Parser Block) (expression : Parser Expr) :
    Parser Stmt := do
  let init ← clause
  symbol .semicolon (.part .for_ .initializer)
  let condition ← expression
  symbol .semicolon (.part .for_ .condition)
  let step ← clause
  keyword .do_ (.part .for_ .step)
  let body ← block
  keyword .endfor (.part .for_ .body)
  return .forLoop init condition step body

/-- Parameters of a function, behind the opening parenthesis. -/
def parameters : Parser (List String) := do
  let parameters ←
    if ← atSymbol .parenRight then pure []
    else do
      let first ← name .parameterName (.symbol .parenLeft)
      let more ← many (behind .comma) fun _ => name .name (.symbol .comma)
      pure (first :: more)
  symbol .parenRight .functionParameters
  return parameters

/-- Behind `function`. -/
def defined (block : Parser Block) : Parser Stmt := do
  let f ← name .name (.keyword .function)
  symbol .parenLeft .functionName
  let parameters ← parameters
  let body ← block
  keyword .endfunction .functionBody
  return .define f parameters body

/-- Behind `global`. -/
def globalized (expression : Parser Expr) : Parser Stmt := do
  let x ← name .name (.keyword .global)
  if ← trySymbol .assign then
    return .declareGlobal x (← expression)
  return .promote x

/-- Behind `append` or `remove`: the array and the value. -/
def targeted (k : Keyword) (expression : Parser Expr) : Parser (Expr × Expr) := do
  symbol .parenLeft (.keyword k)
  let target ← expression
  symbol .comma (.part k .target)
  let value ← expression
  symbol .parenRight (.part k .value)
  return (target, value)

/-! ## Statements and blocks -/

/-- A statement; `clause` reads the statements in the header of a `for`. -/
def form (clause : Parser Stmt) (block : Parser Block) (expression : Parser Expr) : Parser Stmt :=
  fun tokens =>
    match tokens with
    | ⟨.keyword .exit, _⟩ :: rest => .ok (.exit, rest)
    | ⟨.keyword .print, _⟩ :: rest => printed expression rest
    | ⟨.keyword .if_, _⟩ :: rest => branched block expression rest
    | ⟨.keyword .while_, _⟩ :: rest => looped block expression rest
    | ⟨.keyword .for_, _⟩ :: rest => counted clause block expression rest
    | ⟨.keyword .function, _⟩ :: rest => defined block rest
    | ⟨.keyword .return_, _⟩ :: rest => (do return .return_ (← expression) : Parser Stmt) rest
    | ⟨.keyword .global, _⟩ :: rest => globalized expression rest
    | ⟨.keyword .append, _⟩ :: rest =>
      (do let (target, value) ← targeted .append expression
          return .append target value : Parser Stmt) rest
    | ⟨.keyword .remove, _⟩ :: rest =>
      (do let (target, value) ← targeted .remove expression
          return .remove target value : Parser Stmt) rest
    | _ => simple expression tokens

/-- A statement with at most `headers` headers of `for` inside each other. -/
def parserUpTo (block : Parser Block) (expression : Parser Expr) : (headers : Nat) → Parser Stmt
  | 0 => form (fail .tooDeep) block expression
  | headers + 1 => fun tokens =>
    form (fun rest => parserUpTo block expression headers rest) block expression tokens

/-- A statement; the headers of `for` cannot outnumber the tokens. -/
def parser (block : Parser Block) (expression : Parser Expr) : Parser Stmt :=
  fun tokens => parserUpTo block expression tokens.length tokens

/-- Keywords that end a block. -/
def endsBlock : Keyword → Bool
  | .else_ | .endif | .endwhile | .endfor | .endfunction => true
  | _ => false

/-- A further statement starts unless the block ends here. -/
def further : List Token → Option (Unit × List Token)
  | [] => none
  | ⟨.keyword k, position⟩ :: rest =>
    if endsBlock k then none else some ((), ⟨.keyword k, position⟩ :: rest)
  | tokens => some ((), tokens)

/-- A statement and its semicolon. -/
def terminated (statement : Parser Stmt) : Parser Stmt := do
  let s ← statement
  symbol .semicolon .statement
  return s

/-- One or more statements, each with its semicolon. -/
def statements (statement : Parser Stmt) : Parser Block := do
  let first ← terminated statement
  let more ← many further fun _ => terminated statement
  return first :: more

/-- A block with `levels` levels of nesting, its own included. -/
def blockParser : (levels : Nat) → Parser Block
  | 0 => fail .tooDeep
  | levels + 1 => fun tokens =>
    statements (parser (fun rest => blockParser levels rest) (Expr.parser levels)) tokens

end Scriptlet.Stmt
