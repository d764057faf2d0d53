import Mathlib.Logic.Relation
import Scriptlet.Proofs.Trail

set_option autoImplicit false

/-! # What an evaluation starts

A task is something that evaluation has to do: an expression to be evaluated, a statement to be
executed, or a comparison of two values to be made. A task starts further ones: its operands, the
statements of the function that it calls, the parts of a branch or loop, the expression of a text
given to `eval`. `Starts` says which, and in which session each of them is started; `ComesTo`
follows it from a program on.

Levels do not matter for it: whatever is evaluated before a task is started has ended with some
number of levels. More levels only add to what a list, a block or a loop reaches. -/

namespace Scriptlet

open Eval

/-! ## Tasks -/

/-- A comparison of two values. -/
inductive Comparison where
  | equality (left right : Value)
  | order (left right : Value)

namespace Comparison

/-- Whether the comparison has an answer. -/
def isDecided (heap : Heap) : Comparison → Bool
  | equality left right => (heap.equal? left right).isSome
  | order left right => (heap.compare? left right).isSome

/-- Makes the comparison and drops the answer. -/
def perform (c : Comparison) : Eval Unit := fun s =>
  if c.isDecided s.heap then some (.ok (), s) else none

theorem perform_eq_none_iff {c : Comparison} {s : Session} :
    c.perform s = none ↔ c.isDecided s.heap = false := by
  unfold perform
  cases c.isDecided s.heap <;> simp

theorem keeps_perform {γ : Type} {view : Session → γ} (c : Comparison) : Keeps view c.perform := by
  intro s r t h
  unfold perform at h
  split at h
  · simp only [Option.some.injEq, Prod.mk.injEq] at h
    rw [h.2]
  · exact absurd h (by simp)

end Comparison

/-- The comparison that an operator makes. -/
def BinaryOp.comparison? : BinaryOp → Value → Value → Option Comparison
  | equal, left, right | notEqual, left, right => some (.equality left right)
  | order _, left, right => some (.order left right)
  | _, _, _ => none

/-- Something that evaluation has to do. -/
inductive Task where
  | expression (e : Expr)
  | statement (stmt : Stmt) (frame : Frame)
  | comparison (c : Comparison)

/-- The expressions that an expression evaluates first, in order. -/
def Expr.operands : Expr → List Expr
  | binary _ left right => [left, right]
  | call _ arguments => arguments
  | index _ indices => indices
  | array elements => elements
  | eval operand | id operand => [operand]
  | int _ | text _ | name _ => []

/-- The expressions that a statement evaluates first, in order. Loops evaluate their condition over
    and over and have none here. -/
def Stmt.operands : Stmt → List Expr
  | print arguments | call _ arguments => arguments
  | assignAll _ values => values
  | assignIndex _ indices value => indices ++ [value]
  | branch e _ _ | return_ e | assign _ e | declareGlobal _ e | append e _ | remove e _
  | compound _ _ e | expression e => [e]
  | exit | whileLoop _ _ | forLoop _ _ _ _ | define _ _ _ | promote _ | increment _ _ => []

/-- What a statement other than a call checks before it evaluates anything: a `return` must be
    inside a function, and the target of a compound assignment must be bound. -/
def Stmt.Permitted (frame : Frame) (s : Session) : Stmt → Prop
  | return_ _ => frame ≠ .program
  | compound name _ _ => (s.locals.get? name).isSome
  | _ => True

/-- Whether the statement is a loop. -/
def Stmt.isLoop : Stmt → Bool
  | whileLoop _ _ | forLoop _ _ _ _ => true
  | _ => false

/-- The element that an array is to get or to lose, behind the array. -/
def Stmt.element? : Stmt → Option (Expr × Expr)
  | append container value | remove container value => some (container, value)
  | _ => none

namespace Task

/-- What the task results in. -/
def Result : Task → Type
  | expression _ => Value
  | statement _ _ => Yield
  | comparison _ => Unit

/-- Does the task. -/
def run (settings : Settings) (n : Nat) : (task : Task) → Eval task.Result
  | expression e => evaluate settings n e
  | statement stmt frame => execute settings n stmt frame
  | comparison c => c.perform

/-- The expressions that the task evaluates first. -/
def operands : Task → List Expr
  | expression e => e.operands
  | statement stmt _ => stmt.operands
  | comparison _ => []

/-- The function that the task calls, and with which arguments. -/
def call? : Task → Option (String × List Expr)
  | expression (.call f arguments) => some (f, arguments)
  | statement (.call f arguments) _ => some (f, arguments)
  | _ => none

/-- The function that the task calls is defined and takes that many arguments. -/
def CallFits (task : Task) (s : Session) : Prop :=
  ∀ f arguments, task.call? = some (f, arguments) →
    ∃ function, s.functions.get? f = some function ∧
      function.parameters.length = arguments.length

/-- The task comes to its operands: a statement is not passed over, and what is checked before them
    holds. -/
def Ready (s : Session) : Task → Prop
  | expression e => CallFits (expression e) s
  | statement stmt frame =>
    frame ≠ .function true ∧ CallFits (statement stmt frame) s ∧ stmt.Permitted frame s
  | comparison _ => True

end Task

/-- A task and the session in which it is started. -/
structure Point where
  task : Task
  session : Session

namespace Eval

/-- Evaluating the list comes to an expression: those in front of it have been evaluated. -/
inductive ListReaches (evaluate : Expr → Eval Value) :
    List Expr → Session → Expr → Session → Prop
  | head (e : Expr) (es : List Expr) (s : Session) : ListReaches evaluate (e :: es) s e s
  | tail {first e : Expr} {rest : List Expr} {s s₁ u : Session} {v : Value} :
      evaluate first s = some (.ok v, s₁) → ListReaches evaluate rest s₁ e u →
        ListReaches evaluate (first :: rest) s e u

end Eval

/-- The session in which the expression of a text is evaluated that was given to `eval`. -/
def Session.reading (settings : Settings) (code : String) (s : Session) : Session :=
  { s with
    depth := s.depth + 1
    notices :=
      (if settings.verbose then s.notices.push (.trace (.evaluating code)) else s.notices) ++
        ((Expr.ofSource code).faults.map Notice.fault).toArray }

/-- The first task starts the second one, each in its session. -/
inductive Starts (settings : Settings) : Point → Point → Prop
  | operand {task : Task} {s u : Session} {e : Expr} {n : Nat} :
      task.Ready s → ListReaches (evaluate settings n) task.operands s e u →
        Starts settings ⟨task, s⟩ ⟨.expression e, u⟩
  /-- Behind the array to be changed. -/
  | element {stmt : Stmt} {frame : Frame} {container value : Expr} {s s₁ u : Session} {v : Value}
      {found : Handle × String} {n : Nat} :
      frame ≠ .function true → stmt.element? = some (container, value) →
        evaluate settings n container s = some (.ok v, s₁) →
        target container v s₁ = some (.ok found, u) →
        Starts settings ⟨.statement stmt frame, s⟩ ⟨.expression value, u⟩
  /-- The text is read and evaluated one level deeper. -/
  | text {operand e : Expr} {code : String} {s s₁ : Session} {n : Nat} :
      evaluate settings n operand s = some (.ok (.text code), s₁) →
        settings.dynamic = .expression → (Expr.ofSource code).result = .ok e →
        s₁.depth < settings.maxDepth →
        Starts settings ⟨.expression (.eval operand), s⟩ ⟨.expression e, s₁.reading settings code⟩
  /-- A statement of the called function. -/
  | body {task : Task} {name : String} {arguments : List Expr} {f : Function} {stmt : Stmt}
      {frame : Frame} {s s₁ u : Session} {n m : Nat} :
      task.Ready s → task.call? = some (name, arguments) →
        Enters settings n name arguments s f s₁ →
        BlockReaches (execute settings m) f.body (.function false) s₁ stmt frame u →
        Starts settings ⟨task, s⟩ ⟨.statement stmt frame, u⟩
  | part {stmt inner : Stmt} {frame frame' : Frame} {s u : Session} {n : Nat} :
      Execution.PartOf settings ⟨n, inner, frame', u⟩ ⟨n + 1, stmt, frame, s⟩ →
        Starts settings ⟨.statement stmt frame, s⟩ ⟨.statement inner frame', u⟩
  | whileCondition {condition : Expr} {body : Block} {frame frame' : Frame} {s u : Session}
      {n : Nat} :
      frame ≠ .function true →
        WhileReaches (test settings n condition) (runBlock settings n body) frame s frame' u →
        Starts settings ⟨.statement (.whileLoop condition body) frame, s⟩
          ⟨.expression condition, u⟩
  | forCondition {init step : Stmt} {condition : Expr} {body : Block} {frame frame₁ frame' : Frame}
      {s s₁ u : Session} {yielded : Option Value} {n : Nat} :
      frame ≠ .function true → execute settings n init frame s = some (.ok (yielded, frame₁), s₁) →
        ForReaches (test settings n condition) (runBlock settings n body)
          (execute settings n step) frame₁ s₁ frame' u →
        Starts settings ⟨.statement (.forLoop init condition step body) frame, s⟩
          ⟨.expression condition, u⟩
  /-- The comparison of an operator, behind its operands. -/
  | comparison {op : BinaryOp} {left right : Expr} {l r : Value} {c : Comparison}
      {s s₁ u : Session} {n : Nat} :
      evaluate settings n left s = some (.ok l, s₁) →
        evaluate settings n right s₁ = some (.ok r, u) → op.comparison? l r = some c →
        Starts settings ⟨.expression (.binary op left right), s⟩ ⟨.comparison c, u⟩
  /-- The elements of an array are compared with the value to be removed until one is equal. -/
  | search {container value : Expr} {frame : Frame} {c v a : Value} {h : Handle} {label : String}
      {front rest : List Value} {s s₁ s₂ u : Session} {n : Nat} :
      frame ≠ .function true → evaluate settings n container s = some (.ok c, s₁) →
        target container c s₁ = some (.ok (h, label), s₂) →
        evaluate settings n value s₂ = some (.ok v, u) →
        (u.heap.elements h).toList = front ++ a :: rest →
        (∀ b ∈ front, u.heap.equal? b v = some false) →
        Starts settings ⟨.statement (.remove container value) frame, s⟩
          ⟨.comparison (.equality a v), u⟩

/-- Running the program from `s` comes to the task of `p`, and in its session. -/
def ComesTo (settings : Settings) (program : Block) (s : Session) (p : Point) : Prop :=
  ∃ n stmt frame u, BlockReaches (execute settings n) program .program s stmt frame u ∧
    Relation.ReflTransGen (Starts settings) ⟨.statement stmt frame, u⟩ p

/-! ### More levels -/

namespace Eval

variable {evaluate evaluate' : Expr → Eval Value} {execute execute' : Stmt → Frame → Eval Yield}
  {condition condition' : Eval Bool} {body body' step step' : Frame → Eval Yield}

theorem ListReaches.mono (h : ∀ e, Extends (evaluate e) (evaluate' e)) {es : List Expr}
    {s u : Session} {e : Expr} (hreach : ListReaches evaluate es s e u) :
    ListReaches evaluate' es s e u := by
  induction hreach with
  | head => exact .head _ _ _
  | tail hfirst _ ih => exact .tail (h _ hfirst) ih

theorem ListReaches.append_left {es : List Expr} {s u : Session} {e : Expr}
    (h : ListReaches evaluate es s e u) (more : List Expr) :
    ListReaches evaluate (es ++ more) s e u := by
  induction h with
  | head => exact .head _ _ _
  | tail hfirst _ ih => exact .tail hfirst ih

theorem ListReaches.append_right {es more : List Expr} {s s₁ u : Session} {e : Expr}
    {values : List Value} (hvalues : evaluateAll evaluate es s = some (.ok values, s₁))
    (h : ListReaches evaluate more s₁ e u) : ListReaches evaluate (es ++ more) s e u := by
  induction es generalizing s values with
  | nil =>
    obtain ⟨-, rfl⟩ := pure_eq_some_iff.1 hvalues
    exact h
  | cons first rest ih =>
    obtain ⟨v, s₂, hfirst, hrest⟩ := bind_eq_ok_iff.1 hvalues
    obtain ⟨vs, s₃, hrest, hpure⟩ := bind_eq_ok_iff.1 hrest
    obtain ⟨-, rfl⟩ := pure_eq_some_iff.1 hpure
    exact .tail hfirst (ih hrest)

theorem BlockReaches.mono (h : ∀ stmt frame, Extends (execute stmt frame) (execute' stmt frame))
    {block : Block} {frame frame' : Frame} {s u : Session} {stmt : Stmt}
    (hreach : BlockReaches execute block frame s stmt frame' u) :
    BlockReaches execute' block frame s stmt frame' u := by
  induction hreach with
  | head => exact .head _ _ _ _
  | tail hfirst _ ih => exact .tail (h _ _ hfirst) ih

theorem WhileReaches.mono (hc : Extends condition condition')
    (hb : ∀ frame, Extends (body frame) (body' frame)) {frame frame' : Frame} {s u : Session}
    (hreach : WhileReaches condition body frame s frame' u) :
    WhileReaches condition' body' frame s frame' u := by
  induction hreach with
  | start => exact .start _ _
  | round hholds hround _ ih => exact .round (hc hholds) (hb _ hround) ih

theorem ForReaches.mono (hc : Extends condition condition')
    (hb : ∀ frame, Extends (body frame) (body' frame))
    (hs : ∀ frame, Extends (step frame) (step' frame)) {frame frame' : Frame} {s u : Session}
    (hreach : ForReaches condition body step frame s frame' u) :
    ForReaches condition' body' step' frame s frame' u := by
  induction hreach with
  | start => exact .start _ _
  | round hholds hround hstep _ ih => exact .round (hc hholds) (hb _ hround) (hs _ hstep) ih

end Eval

section Levels

variable {settings : Settings} {n m : Nat}

theorem extends_execute (settings : Settings) (h : n ≤ m) (stmt : Stmt) (frame : Frame) :
    Extends (execute settings n stmt frame) (execute settings m stmt frame) := by
  obtain ⟨surplus, rfl⟩ := Nat.exists_eq_add_of_le h
  have htexts := (moreLevels settings surplus).relatesTexts rfl
  exact ((moreLevels settings surplus).evaluate_execute htexts n).2 stmt frame

theorem extends_evaluateAll (settings : Settings) (h : n ≤ m) (es : List Expr) :
    Extends (evaluateAll (evaluate settings n) es) (evaluateAll (evaluate settings m) es) := by
  obtain ⟨surplus, rfl⟩ := Nat.exists_eq_add_of_le h
  have htexts := (moreLevels settings surplus).relatesTexts rfl
  exact (moreLevels settings surplus).evaluateAll
    ((moreLevels settings surplus).evaluate_execute htexts n).1 es

theorem Enters.mono {name : String} {arguments : List Expr} {s s₁ : Session} {f : Function}
    (h : Enters settings n name arguments s f s₁) (hle : n ≤ m) :
    Enters settings m name arguments s f s₁ := by
  obtain ⟨hdefined, harity, values, s₀, hvalues, hrest⟩ := h
  exact ⟨hdefined, harity, values, s₀, extends_evaluateAll settings hle arguments hvalues, hrest⟩

theorem extends_task (settings : Settings) (h : n ≤ m) (task : Task) :
    Extends (task.run settings n) (task.run settings m) := by
  cases task with
  | expression e => exact ascending_evaluate settings e h
  | statement stmt frame => exact extends_execute settings h stmt frame
  | comparison c => exact fun _ _ _ hend => hend

theorem extends_test (settings : Settings) (h : n ≤ m) (condition : Expr) :
    Extends (test settings n condition) (test settings m condition) :=
  .bind (ascending_evaluate settings condition h) fun _ _ _ _ htruthy => htruthy

theorem extends_runBlock (settings : Settings) (h : n ≤ m) (block : Block) (frame : Frame) :
    Extends (runBlock settings n block frame) (runBlock settings m block frame) :=
  ascending_executeAll settings block frame none h

end Levels

end Scriptlet
