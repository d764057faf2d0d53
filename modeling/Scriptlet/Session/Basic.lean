import Scriptlet.Bindings
import Scriptlet.Notice
import Scriptlet.Value.Operators
import Scriptlet.Value.Render

set_option autoImplicit false

/-! # Sessions

A session is everything that statements read and change: bindings, functions, arrays, how deep calls
are nested, what was written, and the notices. An `Eval` is an action on a session. It ends with a
value or with a runtime error, and in either case with a session; or it does not end, which is kept
apart from both.

The actions here are the parts that evaluation is put together from. Two of them enclose another
action: `Eval.rollback` undoes its changes of local bindings, and `Eval.deeper` counts it as one
level of calls. Both put back what they changed however the action ends. -/

namespace Scriptlet

/-! ## Settings -/

/-- Why a text has no answer: any error but the end of the program, which only its statements ask
    for. -/
abbrev Refusal := { e : RuntimeError // e ≠ .exit }

/-- What `eval` does with its text. -/
inductive Dynamic where
  /-- Reads it as an expression and evaluates that. -/
  | expression
  /-- Fails. -/
  | disabled
  /-- Answers or refuses to without evaluating anything. -/
  | stub (answer : String → Except Refusal Value)

/-- The depth that calls may reach unless set otherwise. -/
def defaultMaxDepth : Nat := 64

/-- What stays fixed while a program runs. -/
structure Settings where
  maxDepth : Nat := defaultMaxDepth
  verbose : Bool := false
  dynamic : Dynamic := .expression

/-! ## State -/

/-- A line that could not be written. -/
structure WriteFailure where
  /-- What was written of it all the same. -/
  arrived : String
  cause : String

/-- Where output goes. Whether it works may depend on what was written before. -/
structure Sink where
  /-- What was written. -/
  text : String := ""
  /-- What is in the way of a line behind a text. -/
  writeFailure? : (text line : String) → Option WriteFailure := fun _ _ => none
  /-- Why a text has not arrived, if it has not. -/
  flushFailure? : (text : String) → Option String := fun _ => none

/-- The sink with more text. -/
def Sink.push (sink : Sink) (text : String) : Sink :=
  { sink with text := sink.text ++ text }

namespace Sink

@[simp]
theorem text_push (sink : Sink) (text : String) : (sink.push text).text = sink.text ++ text := rfl

@[simp]
theorem flushFailure?_push (sink : Sink) (text : String) :
    (sink.push text).flushFailure? = sink.flushFailure? := rfl

@[simp]
theorem push_empty (sink : Sink) : sink.push "" = sink := by
  simp [push]

@[simp]
theorem push_push (sink : Sink) (first second : String) :
    (sink.push first).push second = sink.push (first ++ second) := by
  simp [push, String.append_assoc]

end Sink

/-- The state of evaluation between two statements. -/
structure Session where
  locals : Bindings Value := {}
  globals : Bindings Value := {}
  functions : Bindings Function := {}
  heap : Heap := {}
  /-- Calls and evaluations of text that are going on. -/
  depth : Nat := 0
  sink : Sink := {}
  notices : Array Notice := #[]

/-- What a name stands for: local bindings hide global ones. -/
def Session.lookup? (s : Session) (name : String) : Option Value :=
  s.locals.get? name <|> s.globals.get? name

/-! ## Actions -/

/-- An action on a session; nothing if it does not end. -/
def Eval (α : Type) : Type := Session → Option (Except RuntimeError α × Session)

namespace Eval

variable {α β : Type}

/-- Does nothing. -/
@[always_inline, inline]
protected def pure (a : α) : Eval α := fun s => some (.ok a, s)

/-- One action after another; an error of the first is the end. -/
@[always_inline, inline]
protected def bind (x : Eval α) (f : α → Eval β) : Eval β := fun s =>
  match x s with
  | none => none
  | some (.error e, t) => some (.error e, t)
  | some (.ok a, t) => f a t

@[always_inline]
instance : Monad Eval where
  pure := Eval.pure
  bind := Eval.bind

instance : LawfulMonad Eval := LawfulMonad.mk' Eval
  (by
    intro α x
    funext s
    simp only [Functor.map, Eval.bind]
    match x s with
    | none => rfl
    | some (.ok _, _) => rfl
    | some (.error _, _) => rfl)
  (by intros; rfl)
  (by
    intro α β γ x f g
    funext s
    simp only [bind, Eval.bind]
    match x s with
    | none => rfl
    | some (.ok _, _) => rfl
    | some (.error _, _) => rfl)

/-- Does not end. -/
def never : Eval α := fun _ => none

/-- Ends with an error. -/
def fail (e : RuntimeError) : Eval α := fun s => some (.error e, s)

/-- Ends with an answer, or refuses to. -/
def reply (answer : Except Refusal α) : Eval α :=
  match answer with
  | .ok a => Eval.pure a
  | .error refusal => fail refusal.1

/-- Looks at the session. -/
@[always_inline, inline]
def read (f : Session → α) : Eval α := fun s => some (.ok (f s), s)

/-- Changes the session. -/
@[always_inline, inline]
def update (f : Session → Session) : Eval Unit := fun s => some (.ok (), f s)

/-- Looks something up in the session that must be there. -/
@[always_inline, inline]
def find (f : Session → Option α) (missing : Session → RuntimeError) : Eval α := fun s =>
  match f s with
  | some a => some (.ok a, s)
  | none => some (.error (missing s), s)

/-- Runs an action and puts the local bindings back, however it ends. -/
@[always_inline, inline]
def rollback (x : Eval α) : Eval α := fun s =>
  match x s with
  | none => none
  | some (r, t) => some (r, { t with locals := s.locals })

/-- Runs an action one level deeper, if the limit allows. -/
@[always_inline, inline]
def deeper (limit : Nat) (x : Eval α) : Eval α := fun s =>
  if limit ≤ s.depth then some (.error (.depthExceeded limit), s)
  else
    match x { s with depth := s.depth + 1 } with
    | none => none
    | some (r, t) => some (r, { t with depth := t.depth - 1 })

/-- Leaves a trace if traces are wanted. -/
def trace (settings : Settings) (t : Session → Trace) : Eval Unit := fun s =>
  if settings.verbose then
    some (.ok (), { s with notices := s.notices.push (.trace (t s)) })
  else some (.ok (), s)

/-- Reports faults. -/
def report (faults : List Fault) : Eval Unit :=
  update fun s => { s with notices := s.notices ++ (faults.map Notice.fault).toArray }

/-! ## Output -/

/-- Writes one line. -/
def writeLine (line : String) : Eval Unit := fun s =>
  match s.sink.writeFailure? s.sink.text line with
  | some failure =>
    some (.error (.outputFailed failure.cause), { s with sink := s.sink.push failure.arrived })
  | none => some (.ok (), { s with sink := s.sink.push (line ++ "\n") })

/-- Writes values with spaces between them. -/
def writeValues (values : List Value) : Eval Unit := do
  let line ← read fun s => String.intercalate " " (values.map s.heap.display)
  writeLine line

/-- Makes sure that everything written has arrived. -/
def flush : Eval Unit := fun s =>
  match s.sink.flushFailure? s.sink.text with
  | some cause => some (.error (.outputFailed cause), s)
  | none => some (.ok (), s)

/-! ## Bindings -/

/-- Binds a local name. -/
def setLocal (name : String) (v : Value) : Eval Unit :=
  update fun s => { s with locals := s.locals.insert name v }

/-- Binds a global name. -/
def setGlobal (name : String) (v : Value) : Eval Unit :=
  update fun s => { s with globals := s.globals.insert name v }

/-- The value of a local name. -/
def getLocal (name : String) : Eval Value :=
  find (·.locals.get? name) fun _ => .variableNotFound name

/-- The value of a name in an expression. A name that is not bound and has quotes around it stands
    for the text between them. -/
def resolve (name : String) : Eval Value :=
  find (fun s => s.lookup? name <|> (Text.unquote? name).map .text)
    fun _ => .variableNotFound name

/-- The array that a name stands for. -/
def arrayNamed (name : String) : Eval Handle := do
  match ← find (·.lookup? name) fun _ => .variableNotFound name with
  | .array h => return h
  | _ => fail (.notAnArray name)

/-! ## Values -/

/-- Whether a value counts as true. -/
def truthy (v : Value) : Eval Bool :=
  read (·.heap.truthy v)

/-- Makes a new array. -/
def allocate (elements : List Value) : Eval Value := fun s =>
  let (v, heap) := s.heap.allocValue elements.toArray
  some (.ok v, { s with heap })

/-- Applies a binary operator. -/
def applyBinary (op : BinaryOp) (left right : Value) : Eval Value := fun s =>
  match s.heap.apply op left right with
  | none => none
  | some (.error e) => some (.error e, s)
  | some (.ok (v, heap)) => some (.ok v, { s with heap })

end Eval

end Scriptlet
