import Scriptlet.Program
import Scriptlet.Session.Basic
import Scriptlet.Value.Path

set_option autoImplicit false

/-! # Evaluation

What expressions and statements do to a session.

Control inside a function is kept in a `Frame`: once a `return` has run, every further statement of
the function is passed over. A statement may yield a value, and a block yields the last value that a
statement of it yielded. Values come from `return` and from calls that stand as statements; a
`while` ends as soon as its body yields one, while a `for` goes on and yields the last. What
branches and loops change of the local bindings is undone when they end.

`evaluate` and `execute` call each other, and programs need not end. Both take a number of levels
and do not end when it is used up; inside, everything has one level less, and a loop has as many
rounds as there are levels. More levels never change an answer, so the answer of a program that ends
is the one that any sufficiently large number gives. -/

namespace Scriptlet

/-- Where control stands. -/
inductive Frame where
  /-- Outside of any function. -/
  | program
  /-- Inside a function, before or after its `return`. -/
  | function (returned : Bool)
deriving DecidableEq, Repr

/-- The frame of the step of a `for`: it runs after a `return` as well. -/
def Frame.resumed : Frame → Frame
  | program => program
  | function _ => function false

/-- A value yielded, and where control stands then. -/
abbrev Yield := Option Value × Frame

namespace Eval

/-! ## Lists and loops -/

/-- Evaluates expressions in order. -/
def evaluateAll (evaluate : Expr → Eval Value) : List Expr → Eval (List Value)
  | [] => return []
  | e :: es => do
    let v ← evaluate e
    let vs ← evaluateAll evaluate es
    return v :: vs

/-- Executes statements in order; yields the last value yielded, `last` if there is none. -/
def executeAll (execute : Stmt → Frame → Eval Yield) : Block → Frame → Option Value → Eval Yield
  | [], frame, last => return (last, frame)
  | s :: rest, frame, last => do
    let (yielded, frame) ← execute s frame
    executeAll execute rest frame (yielded <|> last)

/-- Two blocks after another are one block. -/
theorem executeAll_append (execute : Stmt → Frame → Eval Yield) (a b : Block) (frame : Frame)
    (last : Option Value) :
    executeAll execute (a ++ b) frame last = (do
      let (yielded, frame) ← executeAll execute a frame last
      executeAll execute b frame yielded) := by
  induction a generalizing frame last with
  | nil => simp [executeAll]
  | cons s a ih => simp [executeAll, ih]

/-- Rounds of a `while`. -/
def whileRounds (condition : Eval Bool) (body : Frame → Eval Yield) :
    (rounds : Nat) → Frame → Eval Yield
  | 0, _ => never
  | rounds + 1, frame => do
    if ← condition then
      match ← body frame with
      | (some v, frame) => return (some v, frame)
      | (none, frame) => whileRounds condition body rounds frame
    else return (none, frame)

/-- Rounds of a `for`; `last` is the last value yielded so far. -/
def forRounds (condition : Eval Bool) (body step : Frame → Eval Yield) :
    (rounds : Nat) → Frame → Option Value → Eval Yield
  | 0, _, _ => never
  | rounds + 1, frame, last => do
    if ← condition then
      let (yielded, frame) ← body frame
      let _ ← step frame.resumed
      forRounds condition body step rounds frame (yielded <|> last)
    else return (last, frame)

/-! ## Calls and texts -/

/-- Calls a function. The number of arguments is checked before they are evaluated; the body sees
    the parameters and no other local name. -/
def invoke (settings : Settings) (evaluate : Expr → Eval Value)
    (execute : Stmt → Frame → Eval Yield) (name : String) (arguments : List Expr) :
    Eval (Option Value) := do
  let f ← find (·.functions.get? name) fun _ => .functionNotFound name
  if f.parameters.length ≠ arguments.length then
    fail (.argumentCount name f.parameters.length arguments.length)
  else
    let values ← evaluateAll evaluate arguments
    let result ← deeper settings.maxDepth <| rollback do
      trace settings fun s => .calling name arguments.length s.depth
      update fun s =>
        { s with locals := ({} : Bindings Value).insertAll (f.parameters.zip values) }
      let (yielded, _) ← executeAll execute f.body (.function false) none
      return yielded
    trace settings fun s => .returning name (result.map s.heap.inspect)
    return result

/-- What `eval` makes of a text. -/
def evaluateText (settings : Settings) (evaluate : Expr → Eval Value) (code : String) :
    Eval Value := do
  trace settings fun _ => .evaluating code
  match settings.dynamic with
  | .disabled => fail .evalDisabled
  | .stub answer => reply (answer code)
  | .expression =>
    let reading := Expr.ofSource code
    report reading.faults
    match reading.result with
    | .error e => fail (.invalidExpression e)
    | .ok e => deeper settings.maxDepth (evaluate e)

/-! ## Arrays -/

/-- Reads a variable through indices. -/
def readPath (name : String) (path : List Value) : Eval Value := do
  let start ← find (·.lookup? name) fun _ => .variableNotFound name
  find (·.heap.follow? start path) fun s => .indexNotFound name (s.heap.displayPath path)

/-- Why nothing can be written through a path into an array. If all indices but the last one lead
    somewhere, then the array there is already held for writing while the text of the path is made,
    and this text must not open it. -/
def pathFailure (name : String) (h : Handle) (path : List Value) (s : Session) : RuntimeError :=
  if (s.heap.holder? h path).any fun held => path.any (s.heap.opens held) then .crash
  else .indexNotFound name (s.heap.displayPath path)

theorem pathFailure_eq (name : String) (h : Handle) (path : List Value) (s : Session) :
    pathFailure name h path s = .crash ∨
      pathFailure name h path s = .indexNotFound name (s.heap.displayPath path) := by
  unfold pathFailure
  split <;> simp

/-- Writes to a variable through indices. -/
def writePath (name : String) (path : List Value) (v : Value) : Eval Unit := do
  let h ← arrayNamed name
  let heap ← find (·.heap.write? h v path) (pathFailure name h path)
  update fun s => { s with heap }

/-- The array that the value of an expression means, and how messages call it: the array itself, or
    the one that a text names. -/
def target (e : Expr) (v : Value) : Eval (Handle × String) :=
  match v with
  | .array h => return (h, e.render)
  | .text name => do return (← arrayNamed name, name)
  | _ => fail (.notAnArray e.render)

/-- Adds an element at the end of an array. -/
def appendTo (h : Handle) (v : Value) : Eval Unit :=
  update fun s => { s with heap := s.heap.push h v }

/-- Takes the first element that equals a value out of an array. -/
def removeFrom (h : Handle) (label : String) (v : Value) : Eval Unit := fun s =>
  match s.heap.position? v (s.heap.elements h).toList with
  | none => none
  | some none => some (.error (.valueNotFound (s.heap.display v) label), s)
  | some (some place) =>
    some (.ok (), { s with heap := s.heap.modify h (·.eraseIdxIfInBounds place) })

/-! ## Assignments -/

/-- Steps a local variable by one. -/
def stepLocal (name : String) (direction : Direction) : Eval Unit := do
  let current ← getLocal name
  match current.number? with
  | none => fail (.invalidOperand (.step direction) current.kind)
  | some _ =>
    let one : Int64 := match direction with
      | .up => 1
      | .down => -1
    setLocal name (← applyBinary (.arithmetic .add) current (.int one))

/-- What a compound assignment makes of the current value. Adding an array to an array extends the
    first in place. -/
def compoundValue (op : Arithmetic) (current v : Value) : Eval Value :=
  match op, current, v with
  | .add, .array h, .array extra => do
    update fun s => { s with heap := s.heap.modify h (· ++ s.heap.elements extra) }
    return current
  | op, current, v => applyBinary (.arithmetic op) current v

end Eval

/-! ## Expressions and statements -/

open Eval in
mutual

/-- The value of an expression. -/
def evaluate (settings : Settings) : (levels : Nat) → Expr → Eval Value
  | 0, _ => never
  | levels + 1, e =>
    match e with
    | .int n => return .int n
    | .text s => return .text s
    | .name x => resolve x
    | .binary op left right => do
      let l ← evaluate settings levels left
      let r ← evaluate settings levels right
      applyBinary op l r
    | .call f arguments => do
      match ← invoke settings (evaluate settings levels) (execute settings levels) f arguments with
      | some v => return v
      | none => fail (.noReturnValue f)
    | .index x indices => do
      let path ← evaluateAll (evaluate settings levels) indices
      readPath x path
    | .array elements => do
      let values ← evaluateAll (evaluate settings levels) elements
      allocate values
    | .eval operand => do
      match ← evaluate settings levels operand with
      | .text code => evaluateText settings (evaluate settings levels) code
      | v => fail (.invalidOperand .eval v.kind)
    | .id operand => do
      let v ← evaluate settings levels operand
      return .int v.identity

/-- What a statement yields. -/
def execute (settings : Settings) : (levels : Nat) → Stmt → Frame → Eval Yield
  | 0, _, _ => never
  | levels + 1, stmt, frame =>
    if frame = .function true then return (none, frame)
    else
      match stmt with
      | .exit => do
        writeLine "Bye"
        fail .exit
      | .print arguments => do
        let values ← evaluateAll (evaluate settings levels) arguments
        writeValues values
        return (none, frame)
      | .branch condition thenBlock elseBlock => rollback do
        let v ← evaluate settings levels condition
        if ← truthy v then executeAll (execute settings levels) thenBlock frame none
        else executeAll (execute settings levels) elseBlock frame none
      | .whileLoop condition body => rollback <|
        whileRounds (do truthy (← evaluate settings levels condition))
          (fun frame => executeAll (execute settings levels) body frame none) levels frame
      | .forLoop init condition step body => rollback do
        let (_, frame) ← execute settings levels init frame
        forRounds (do truthy (← evaluate settings levels condition))
          (fun frame => executeAll (execute settings levels) body frame none)
          (execute settings levels step) levels frame none
      | .define name parameters body => do
        trace settings fun _ => .defining name
        update fun s => { s with functions := s.functions.insert name ⟨parameters, body⟩ }
        return (none, frame)
      | .return_ value =>
        match frame with
        | .program => fail .returnOutsideFunction
        | .function _ => do
          let v ← evaluate settings levels value
          return (some v, .function true)
      | .call f arguments => do
        let yielded ←
          invoke settings (evaluate settings levels) (execute settings levels) f arguments
        return (yielded, frame)
      | .assign name value => do
        setLocal name (← evaluate settings levels value)
        return (none, frame)
      | .assignAll names values => do
        let values ← evaluateAll (evaluate settings levels) values
        update fun s => { s with locals := s.locals.insertAll (names.zip values) }
        return (none, frame)
      | .declareGlobal name value => do
        let v ← evaluate settings levels value
        trace settings fun s => .declaring name (s.heap.inspect v)
        setGlobal name v
        return (none, frame)
      | .promote name => do
        let v ← getLocal name
        trace settings fun s => .promoting name (s.heap.inspect v)
        setGlobal name v
        return (none, frame)
      | .assignIndex name indices value => do
        let path ← evaluateAll (evaluate settings levels) indices
        let v ← evaluate settings levels value
        writePath name path v
        return (none, frame)
      | .append container value => do
        let (h, _) ← target container (← evaluate settings levels container)
        appendTo h (← evaluate settings levels value)
        return (none, frame)
      | .remove container value => do
        let (h, label) ← target container (← evaluate settings levels container)
        removeFrom h label (← evaluate settings levels value)
        return (none, frame)
      | .increment name direction => do
        stepLocal name direction
        return (none, frame)
      | .compound name op value => do
        let current ← getLocal name
        let v ← evaluate settings levels value
        setLocal name (← compoundValue op current v)
        return (none, frame)
      | .expression e => do
        let _ ← evaluate settings levels e
        return (none, frame)

end

end Scriptlet
