import Scriptlet.Session.Evaluation

set_option autoImplicit false

/-! # Running programs

A session runs programs and evaluates expressions one after another and keeps its state between
them. An `exit` ends a run, but not as a failure; a run that ends well makes sure that its output
has arrived.

`runSource` runs one program on a fresh session and collects everything that can be seen of it. -/

namespace Scriptlet

/-- Levels that no program which can be run to its end uses up. -/
def ampleLevels : Nat := 1 <<< 62

namespace Eval

/-- Runs a program. -/
def run (settings : Settings) (levels : Nat) (program : Block) : Eval Outcome := fun s =>
  match executeAll (execute settings levels) program .program none s with
  | none => none
  | some (.ok _, t) => (do flush; return .completed : Eval Outcome) t
  | some (.error .exit, t) => (do flush; return .exited : Eval Outcome) t
  | some (.error e, t) => some (.error e, t)

/-- Evaluates an expression from outside, which counts as one level of calls. -/
def evaluateNested (settings : Settings) (levels : Nat) (e : Expr) : Eval Value :=
  deeper settings.maxDepth (evaluate settings levels e)

end Eval

/-! ## Source texts -/

/-- Why a source text has no result. -/
inductive ProgramError where
  /-- It is no program, or no expression. -/
  | unreadable (e : SyntaxError)
  | failed (e : RuntimeError)
deriving DecidableEq, Repr

/-- The report of an error. -/
def ProgramError.message : ProgramError → String
  | unreadable e => e.message
  | failed e => e.message

namespace Session

variable {α β : Type}

/-- Reads a source text and runs an action on what it means. Faults of the text are reported; a text
    that cannot be read changes nothing else. -/
def onSource (reading : Reading α) (action : α → Eval β) (s : Session) :
    Option (Except ProgramError β × Session) :=
  let notices := (reading.faults.map Notice.fault).toArray
  let s := { s with notices := s.notices ++ notices }
  match reading.result with
  | .error e => some (.error (.unreadable e), s)
  | .ok a =>
    match action a s with
    | none => none
    | some (.error e, t) => some (.error (.failed e), t)
    | some (.ok b, t) => some (.ok b, t)

/-- Runs the program of a source text. -/
def runText (settings : Settings) (levels : Nat) (source : String) (s : Session) :
    Option (Except ProgramError Outcome × Session) :=
  s.onSource (Block.ofSource source) (Eval.run settings levels)

/-- Evaluates the expression of a source text. -/
def evaluateText (settings : Settings) (levels : Nat) (source : String) (s : Session) :
    Option (Except ProgramError Value × Session) :=
  s.onSource (Expr.ofSource source) (Eval.evaluateNested settings levels)

/-- The session with nothing written and no notices yet. -/
def quiet (s : Session) : Session :=
  { s with sink := { s.sink with text := "" }, notices := #[] }

end Session

/-- What can be seen of a run. -/
structure Report where
  result : Except ProgramError Outcome
  output : String
  notices : List Notice

/-- Runs a source text on a fresh session, with traces around the run if they are wanted. -/
def runSource (settings : Settings) (levels : Nat) (source : String) : Option Report :=
  let ran (program : Block) : Eval Outcome := do
    Eval.trace settings fun _ => .parsed program.length
    let outcome ← Eval.run settings levels program
    Eval.trace settings fun _ => .finished outcome
    return outcome
  (({} : Session).onSource (Block.ofSource source) ran).map fun (result, s) =>
    { result, output := s.sink.text, notices := s.notices.toList }

end Scriptlet
