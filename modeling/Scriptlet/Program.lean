import Scriptlet.Token.Lexer
import Scriptlet.Stmt.Parser

set_option autoImplicit false

/-! # Programs

From source text to trees. Faults of the text do not stop the reading: they are left out and
reported beside its result. Reading looks one token ahead, so the faults reported are those in front
of the token at which it stopped. -/

namespace Scriptlet

/-- What reading a source text gives. -/
structure Reading (α : Type) where
  result : Except SyntaxError α
  /-- The faults met, in order. -/
  faults : List Fault

/-- Reads a whole source text: `p` must take all tokens, and `surplus` is the reason to stop at the
    first one that it leaves. -/
def readAll {α : Type} (p : Parser α) (surplus : Reason) (source : String) : Reading α :=
  let stream := scanText source
  let tokens := tokensOf stream
  let stopped (stop : Stop) : Reading α :=
    ⟨.error stop.error, faultsBefore (tokens.length - stop.rest.length) stream⟩
  match p tokens with
  | .error stop => stopped stop
  | .ok (a, []) => ⟨.ok a, faultsBefore tokens.length stream⟩
  | .ok (_, rest) => stopped ⟨surplus, rest⟩

/-- Reads a source text that is one expression. -/
def Expr.ofSource (source : String) : Reading Expr :=
  readAll (Expr.parser nestingLimit) .endOfExpression source

/-- Reads a source text that is a program. -/
def Block.ofSource (source : String) : Reading Block :=
  readAll (Stmt.blockParser nestingLimit) .statement source

end Scriptlet
