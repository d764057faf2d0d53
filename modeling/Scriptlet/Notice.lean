import Scriptlet.Text.Quoted
import Scriptlet.Token.Basic

set_option autoImplicit false

/-! # Notices

Everything that is reported beside the output of a program: faults of source text, and, if asked
for, traces of what happens. Each notice is one line. -/

namespace Scriptlet

/-- How a run ends well. -/
inductive Outcome where
  /-- The last statement was reached. -/
  | completed
  /-- An `exit` statement ended it. -/
  | exited
deriving DecidableEq, Repr

/-- How an outcome is called. -/
def Outcome.name : Outcome → String
  | completed => "Completed"
  | exited => "Exited"

/-- What is worth tracing. Values are given by their text. -/
inductive Trace where
  | reading (path : String)
  | parsed (statements : Nat)
  | finished (outcome : Outcome)
  | defining (function : String)
  | calling (function : String) (arguments depth : Nat)
  | returning (function : String) (value : Option String)
  | declaring (name value : String)
  | promoting (name value : String)
  | evaluating (code : String)
deriving DecidableEq, Repr

/-- The wording of a trace. -/
def Trace.message : Trace → String
  | reading path => "Reading " ++ path
  | parsed n => "Parsed " ++ Decimal.ofInt n ++ " top-level statement(s)"
  | finished outcome => "Finished with " ++ outcome.name
  | defining f => "Defining function " ++ f
  | calling f arguments depth =>
    "Calling " ++ f ++ " with " ++ Decimal.ofInt arguments ++ " argument(s) at depth " ++
      Decimal.ofInt depth
  | returning f value =>
    "Returning from " ++ f ++ " with " ++
      match value with
      | some text => "Some(" ++ text ++ ")"
      | none => "None"
  | declaring x value => "Declaring global " ++ x ++ " = " ++ value
  | promoting x value => "Promoting " ++ x ++ " = " ++ value ++ " to global"
  | evaluating code => "Evaluating " ++ Text.quote code

/-- A report beside the output. -/
inductive Notice where
  | fault (f : Fault)
  | trace (t : Trace)
deriving DecidableEq, Repr

/-- The line of a notice. -/
def Notice.line : Notice → String
  | fault f => f.message ++ "\n"
  | trace t => "[verbose] " ++ t.message ++ "\n"

/-- The lines of notices. -/
def Notice.lines (notices : List Notice) : String :=
  String.join (notices.map Notice.line)

end Scriptlet
