import Scriptlet.Proofs.Keeps

set_option autoImplicit false

/-! # What one activation executes

The statements that a function call, or the program outside of any function, executes itself: those
of its block, and those in the bodies and clauses of its branches and loops. What a call executes
belongs to the activation of the called function and does not count, and neither do the calls inside
expressions.

An `Execution` is a statement together with the frame and the session in which it is executed.
`PartOf` relates it to the statements that it executes directly, and `Within` to all that it
executes, at any nesting. A value that a statement yields has an origin within it
(`exists_origin`): a `return` that completed, or a call standing as a statement that ended with a
value.

The main result is about `while`. Apart from being passed over, it ends either because its condition
was tested for the last time and did not hold, or because such an origin lies in the last round of
its body. -/

namespace Scriptlet

/-! ## Blocks and loops -/

namespace Eval

/-- Executing the block comes to a statement: those in front of it have been executed. -/
inductive BlockReaches (execute : Stmt → Frame → Eval Yield) :
    Block → Frame → Session → Stmt → Frame → Session → Prop
  | head (stmt : Stmt) (rest : Block) (frame : Frame) (s : Session) :
      BlockReaches execute (stmt :: rest) frame s stmt frame s
  | tail {first stmt : Stmt} {rest : Block} {frame frame₁ frame₂ : Frame} {s s₁ s₂ : Session}
      {yielded : Option Value} :
      execute first frame s = some (.ok (yielded, frame₁), s₁) →
        BlockReaches execute rest frame₁ s₁ stmt frame₂ s₂ →
        BlockReaches execute (first :: rest) frame s stmt frame₂ s₂

/-- A `while` comes to its condition behind complete rounds, none of which yields a value. -/
inductive WhileReaches (condition : Eval Bool) (body : Frame → Eval Yield) :
    Frame → Session → Frame → Session → Prop
  | start (frame : Frame) (s : Session) : WhileReaches condition body frame s frame s
  | round {frame frame₁ frame₂ : Frame} {s s₁ s₂ s₃ : Session} :
      condition s = some (.ok true, s₁) → body frame s₁ = some (.ok (none, frame₁), s₂) →
        WhileReaches condition body frame₁ s₂ frame₂ s₃ →
        WhileReaches condition body frame s frame₂ s₃

/-- A `for` comes to its condition behind complete rounds. -/
inductive ForReaches (condition : Eval Bool) (body step : Frame → Eval Yield) :
    Frame → Session → Frame → Session → Prop
  | start (frame : Frame) (s : Session) : ForReaches condition body step frame s frame s
  | round {frame frame₁ frame₂ : Frame} {s s₁ s₂ s₃ s₄ : Session} {yielded : Option Value}
      {stepped : Yield} :
      condition s = some (.ok true, s₁) → body frame s₁ = some (.ok (yielded, frame₁), s₂) →
        step frame₁.resumed s₂ = some (.ok stepped, s₃) →
        ForReaches condition body step frame₁ s₃ frame₂ s₄ →
        ForReaches condition body step frame s frame₂ s₄

variable {execute : Stmt → Frame → Eval Yield} {condition : Eval Bool}
  {body step : Frame → Eval Yield}

/-- A value that a block yields is the one passed in, or comes from a statement of it. -/
theorem exists_of_executeAll {block : Block} {frame frame' : Frame} {s t : Session}
    {last yielded : Option Value}
    (h : executeAll execute block frame last s = some (.ok (yielded, frame'), t)) :
    yielded = last ∨ ∃ stmt frame₁ s₁ frame₂ s₂ v,
      BlockReaches execute block frame s stmt frame₁ s₁ ∧
        execute stmt frame₁ s₁ = some (.ok (some v, frame₂), s₂) ∧ yielded = some v := by
  induction block generalizing frame s last with
  | nil =>
    simp only [executeAll, pure_eq_some_iff, Except.ok.injEq, Prod.mk.injEq] at h
    exact .inl h.1.1
  | cons first rest ih =>
    obtain ⟨⟨y, frame₁⟩, s₁, hfirst, hrest⟩ := bind_eq_ok_iff.1 h
    -- the last value wins: the first statement counts only if the others yield nothing
    rcases ih hrest with rfl | ⟨stmt, frame₂, s₂, frame₃, s₃, v, hreach, hexec, rfl⟩
    · cases y with
      | none => exact .inl rfl
      | some v => exact .inr ⟨first, frame, s, frame₁, s₁, v, .head _ _ _ _, hfirst, rfl⟩
    · exact .inr ⟨stmt, frame₂, s₂, frame₃, s₃, v, .tail hfirst hreach, hexec, rfl⟩

/-- How a `while` ends: its condition does not hold, or its body yields a value. -/
theorem exists_of_whileRounds {rounds : Nat} {frame frame' : Frame} {s t : Session}
    {yielded : Option Value}
    (h : whileRounds condition body rounds frame s = some (.ok (yielded, frame'), t)) :
    ∃ frame₁ s₁, WhileReaches condition body frame s frame₁ s₁ ∧
      (condition s₁ = some (.ok false, t) ∧ yielded = none ∧ frame' = frame₁ ∨
        ∃ s₂ v, condition s₁ = some (.ok true, s₂) ∧
          body frame₁ s₂ = some (.ok (some v, frame'), t) ∧ yielded = some v) := by
  induction rounds generalizing frame s with
  | zero => exact absurd h (by simp [whileRounds, never])
  | succ rounds ih =>
    obtain ⟨holds, s₁, hcondition, h⟩ := bind_eq_ok_iff.1 h
    cases holds with
    | false =>
      simp only [Bool.false_eq_true, if_false, pure_eq_some_iff, Except.ok.injEq,
        Prod.mk.injEq] at h
      obtain ⟨⟨rfl, rfl⟩, rfl⟩ := h
      exact ⟨frame', s, .start _ _, .inl ⟨hcondition, rfl, rfl⟩⟩
    | true =>
      simp only [if_true] at h
      obtain ⟨⟨y, frame₁⟩, s₂, hbody, h⟩ := bind_eq_ok_iff.1 h
      cases y with
      | some v =>
        simp only [pure_eq_some_iff, Except.ok.injEq, Prod.mk.injEq] at h
        obtain ⟨⟨rfl, rfl⟩, rfl⟩ := h
        exact ⟨frame, s, .start _ _, .inr ⟨s₁, v, hcondition, hbody, rfl⟩⟩
      | none =>
        obtain ⟨frame₂, s₃, hreach, hend⟩ := ih h
        exact ⟨frame₂, s₃, .round hcondition hbody hreach, hend⟩

/-- A value that a `for` yields is the one passed in, or comes from the body in some round. -/
theorem exists_of_forRounds {rounds : Nat} {frame frame' : Frame} {s t : Session}
    {last yielded : Option Value}
    (h : forRounds condition body step rounds frame last s = some (.ok (yielded, frame'), t)) :
    yielded = last ∨ ∃ frame₁ s₁ s₂ frame₂ s₃ v,
      ForReaches condition body step frame s frame₁ s₁ ∧ condition s₁ = some (.ok true, s₂) ∧
        body frame₁ s₂ = some (.ok (some v, frame₂), s₃) ∧ yielded = some v := by
  induction rounds generalizing frame s last with
  | zero => exact absurd h (by simp [forRounds, never])
  | succ rounds ih =>
    obtain ⟨holds, s₁, hcondition, h⟩ := bind_eq_ok_iff.1 h
    cases holds with
    | false =>
      simp only [Bool.false_eq_true, if_false, pure_eq_some_iff, Except.ok.injEq,
        Prod.mk.injEq] at h
      exact .inl h.1.1
    | true =>
      simp only [if_true] at h
      obtain ⟨⟨y, frame₁⟩, s₂, hbody, h⟩ := bind_eq_ok_iff.1 h
      obtain ⟨stepped, s₃, hstep, h⟩ := bind_eq_ok_iff.1 h
      rcases ih h with rfl | ⟨frame₂, s₄, s₅, frame₃, s₆, v, hreach, hholds, hyield, rfl⟩
      · cases y with
        | none => exact .inl rfl
        | some v => exact .inr ⟨frame, s, s₁, frame₁, s₂, v, .start _ _, hcondition, hbody, rfl⟩
      · exact .inr ⟨frame₂, s₄, s₅, frame₃, s₆, v, .round hcondition hbody hstep hreach, hholds,
          hyield, rfl⟩

end Eval

/-! ## Executions -/

open Eval

/-- Whether an expression holds as a condition. -/
def test (settings : Settings) (levels : Nat) (condition : Expr) : Eval Bool := do
  truthy (← evaluate settings levels condition)

/-- What a block yields. -/
def runBlock (settings : Settings) (levels : Nat) (block : Block) (frame : Frame) : Eval Yield :=
  executeAll (execute settings levels) block frame none

/-- A statement about to be executed. -/
structure Execution where
  levels : Nat
  stmt : Stmt
  frame : Frame
  session : Session

namespace Execution

/-- How an execution ends. -/
def run (settings : Settings) (x : Execution) : Option (Except RuntimeError Yield × Session) :=
  execute settings x.levels x.stmt x.frame x.session

/-- A `return` that completes with a value. -/
def Returns (settings : Settings) (x : Execution) (v : Value) : Prop :=
  ∃ operand t, x.stmt = .return_ operand ∧
    x.run settings = some (.ok (some v, .function true), t)

/-- A call that stands as a statement and ends with a value. -/
def CallYields (settings : Settings) (x : Execution) (v : Value) : Prop :=
  ∃ f arguments t, x.stmt = .call f arguments ∧ x.run settings = some (.ok (some v, x.frame), t)

variable (settings : Settings)

/-- The first execution is a direct part of the second. Branches and loops are the statements with
    parts, unless they are passed over. -/
inductive PartOf : Execution → Execution → Prop
  | branch {n : Nat} {condition : Expr} {thenBlock elseBlock : Block} {frame frame₁ : Frame}
      {s s₁ s₂ : Session} {holds : Bool} {stmt : Stmt} :
      frame ≠ .function true → test settings n condition s = some (.ok holds, s₁) →
        BlockReaches (execute settings n) (if holds then thenBlock else elseBlock) frame s₁
          stmt frame₁ s₂ →
        PartOf ⟨n, stmt, frame₁, s₂⟩ ⟨n + 1, .branch condition thenBlock elseBlock, frame, s⟩
  | whileBody {n : Nat} {condition : Expr} {body : Block} {frame frame₁ frame₂ : Frame}
      {s s₁ s₂ s₃ : Session} {stmt : Stmt} :
      frame ≠ .function true →
        WhileReaches (test settings n condition) (runBlock settings n body) frame s frame₁ s₁ →
        test settings n condition s₁ = some (.ok true, s₂) →
        BlockReaches (execute settings n) body frame₁ s₂ stmt frame₂ s₃ →
        PartOf ⟨n, stmt, frame₂, s₃⟩ ⟨n + 1, .whileLoop condition body, frame, s⟩
  | forInit {n : Nat} {init step : Stmt} {condition : Expr} {body : Block} {frame : Frame}
      {s : Session} :
      frame ≠ .function true →
        PartOf ⟨n, init, frame, s⟩ ⟨n + 1, .forLoop init condition step body, frame, s⟩
  | forBody {n : Nat} {init step stmt : Stmt} {condition : Expr} {body : Block}
      {frame frame₁ frame₂ frame₃ : Frame} {s s₁ s₂ s₃ s₄ : Session} {yielded : Option Value} :
      frame ≠ .function true → execute settings n init frame s = some (.ok (yielded, frame₁), s₁) →
        ForReaches (test settings n condition) (runBlock settings n body)
          (execute settings n step) frame₁ s₁ frame₂ s₂ →
        test settings n condition s₂ = some (.ok true, s₃) →
        BlockReaches (execute settings n) body frame₂ s₃ stmt frame₃ s₄ →
        PartOf ⟨n, stmt, frame₃, s₄⟩ ⟨n + 1, .forLoop init condition step body, frame, s⟩
  | forStep {n : Nat} {init step : Stmt} {condition : Expr} {body : Block}
      {frame frame₁ frame₂ frame₃ : Frame} {s s₁ s₂ s₃ s₄ : Session}
      {yielded last : Option Value} :
      frame ≠ .function true → execute settings n init frame s = some (.ok (yielded, frame₁), s₁) →
        ForReaches (test settings n condition) (runBlock settings n body)
          (execute settings n step) frame₁ s₁ frame₂ s₂ →
        test settings n condition s₂ = some (.ok true, s₃) →
        runBlock settings n body frame₂ s₃ = some (.ok (last, frame₃), s₄) →
        PartOf ⟨n, step, frame₃.resumed, s₄⟩ ⟨n + 1, .forLoop init condition step body, frame, s⟩

/-- The first execution is the second, or a part of it at any nesting. -/
inductive Within : Execution → Execution → Prop
  | refl (x : Execution) : Within x x
  | part {x y z : Execution} : Within x y → PartOf settings y z → Within x z

/-- The execution takes place in a block, at any nesting. -/
def WithinBlock (n : Nat) (block : Block) (frame : Frame) (s : Session) (x : Execution) : Prop :=
  ∃ stmt frame₁ s₁, BlockReaches (execute settings n) block frame s stmt frame₁ s₁ ∧
    Within settings x ⟨n, stmt, frame₁, s₁⟩

end Execution

/-! ## Statements -/

namespace Eval

variable {α β : Type}

/-- Whenever the action ends with a value, the value is as stated. -/
def Ensures (P : α → Prop) (x : Eval α) : Prop :=
  ∀ ⦃s a t⦄, x s = some (.ok a, t) → P a

namespace Ensures

variable {P : α → Prop} {Q : β → Prop}

theorem pure {a : α} (h : P a) : Ensures P (Pure.pure a) := by
  intro s b t hb
  rw [pure_eq_some_iff] at hb
  obtain rfl : b = a := by simpa using hb.1
  exact h

theorem fail (e : RuntimeError) : Ensures P (Eval.fail e) := by
  intro s a t h
  simp [Eval.fail] at h

theorem never : Ensures P (Eval.never : Eval α) := by
  intro s a t h
  simp [Eval.never] at h

theorem bind {x : Eval α} {f : α → Eval β} (hx : Ensures P x) (hf : ∀ a, P a → Ensures Q (f a)) :
    Ensures Q (x >>= f) := by
  intro s b t h
  obtain ⟨a, u, ha, hb⟩ := bind_eq_ok_iff.1 h
  exact hf a (hx ha) hb

/-- Where nothing about the first action is needed. -/
theorem after {x : Eval α} {f : α → Eval β} (hf : ∀ a, Ensures Q (f a)) : Ensures Q (x >>= f) :=
  bind (P := fun _ => True) (fun _ _ _ _ => trivial) fun a _ => hf a

theorem rollback {x : Eval α} (hx : Ensures P x) : Ensures P (Eval.rollback x) := by
  intro s a t h
  obtain ⟨u, hu, -⟩ := rollback_eq_some_iff.1 h
  exact hx hu

end Ensures

end Eval

section Statements

variable {settings : Settings} {n : Nat} {frame : Frame}

theorem execute_zero (settings : Settings) (stmt : Stmt) (frame : Frame) :
    execute settings 0 stmt frame = never :=
  rfl

/-- Behind a `return`, every statement is passed over. -/
theorem execute_returned (settings : Settings) (n : Nat) (stmt : Stmt) :
    execute settings (n + 1) stmt (.function true) = pure (none, .function true) :=
  rfl

theorem execute_branch (hframe : frame ≠ .function true) (condition : Expr)
    (thenBlock elseBlock : Block) :
    execute settings (n + 1) (.branch condition thenBlock elseBlock) frame = rollback (do
      let holds ← test settings n condition
      runBlock settings n (if holds then thenBlock else elseBlock) frame) := by
  show (if frame = .function true then _ else _) = _
  rw [if_neg hframe, test, bind_assoc]
  refine congrArg rollback (congrArg _ (funext fun v => congrArg _ (funext fun holds => ?_)))
  cases holds with
  | true => rfl
  | false => rfl

theorem execute_whileLoop (hframe : frame ≠ .function true) (condition : Expr) (body : Block) :
    execute settings (n + 1) (.whileLoop condition body) frame =
      rollback (whileRounds (test settings n condition) (runBlock settings n body) n frame) := by
  show (if frame = .function true then _ else _) = _
  rw [if_neg hframe]
  rfl

theorem execute_forLoop (hframe : frame ≠ .function true) (init : Stmt) (condition : Expr)
    (step : Stmt) (body : Block) :
    execute settings (n + 1) (.forLoop init condition step body) frame = rollback (do
      let started ← execute settings n init frame
      forRounds (test settings n condition) (runBlock settings n body) (execute settings n step) n
        started.2 none) := by
  show (if frame = .function true then _ else _) = _
  rw [if_neg hframe]
  rfl

theorem execute_return_program (settings : Settings) (n : Nat) (value : Expr) :
    execute settings (n + 1) (.return_ value) .program = fail .returnOutsideFunction :=
  rfl

theorem execute_return_function (settings : Settings) (n : Nat) (value : Expr) :
    execute settings (n + 1) (.return_ value) (.function false) = do
      let v ← evaluate settings n value
      return (some v, .function true) :=
  rfl

theorem execute_call (hframe : frame ≠ .function true) (f : String) (arguments : List Expr) :
    execute settings (n + 1) (.call f arguments) frame = do
      let yielded ← invoke settings (evaluate settings n) (execute settings n) f arguments
      return (yielded, frame) := by
  show (if frame = .function true then _ else _) = _
  rw [if_neg hframe]

/-- Statements that are neither a branch nor a loop and yield no value. -/
def Stmt.isPlain : Stmt → Bool
  | branch _ _ _ | whileLoop _ _ | forLoop _ _ _ _ | return_ _ | call _ _ => false
  | _ => true

/-- A plain statement yields nothing and leaves control where it is. -/
theorem ensures_of_isPlain {stmt : Stmt} (hstmt : stmt.isPlain = true) :
    Ensures (· = (none, frame)) (execute settings (n + 1) stmt frame) := by
  by_cases hframe : frame = .function true
  · subst hframe
    rw [execute_returned]
    exact .pure rfl
  · show Ensures _ (if frame = .function true then _ else _)
    rw [if_neg hframe]
    cases stmt with
    | branch | whileLoop | forLoop | return_ | call => exact absurd hstmt (by simp [Stmt.isPlain])
    | exit => exact .after fun _ => .fail _
    | increment | expression => exact .after fun _ => .pure rfl
    | print | define | assign | assignAll => exact .after fun _ => .after fun _ => .pure rfl
    | declareGlobal | promote | assignIndex =>
      exact .after fun _ => .after fun _ => .after fun _ => .pure rfl
    | append | remove | compound =>
      exact .after fun _ => .after fun _ => .after fun _ => .after fun _ => .pure rfl

end Statements

/-! ## Control -/

/-- Where control can be later in an activation: where it was, or behind a `return`. -/
def Frame.LeadsTo (frame frame' : Frame) : Prop :=
  frame' = frame ∨ frame = .function false ∧ frame' = .function true

namespace Frame.LeadsTo

theorem refl (frame : Frame) : frame.LeadsTo frame := .inl rfl

theorem trans {frame₁ frame₂ frame₃ : Frame} (h : frame₁.LeadsTo frame₂)
    (h' : frame₂.LeadsTo frame₃) : frame₁.LeadsTo frame₃ := by
  rcases h with rfl | ⟨rfl, rfl⟩
  · exact h'
  · rcases h' with rfl | ⟨h', -⟩
    · exact .inr ⟨rfl, rfl⟩
    · exact absurd h' (by simp)

/-- Outside of any function, control stays there. -/
theorem eq_program {frame : Frame} (h : program.LeadsTo frame) : frame = .program := by
  rcases h with h | ⟨h, -⟩
  · exact h
  · exact absurd h (by simp)

end Frame.LeadsTo

namespace Eval

variable {execute : Stmt → Frame → Eval Yield} {condition : Eval Bool}
  {body step : Frame → Eval Yield}

theorem Ensures.executeAll
    (hs : ∀ stmt frame, Ensures (fun y => frame.LeadsTo y.2) (execute stmt frame)) (block : Block)
    (frame : Frame) (last : Option Value) :
    Ensures (fun y => frame.LeadsTo y.2) (executeAll execute block frame last) := by
  induction block generalizing frame last with
  | nil => exact .pure (.refl _)
  | cons stmt rest ih =>
    refine (hs stmt frame).bind fun y hy => ?_
    intro s z t hz
    exact hy.trans (ih y.2 _ hz)

theorem Ensures.whileRounds (hbody : ∀ frame, Ensures (fun y => frame.LeadsTo y.2) (body frame))
    (rounds : Nat) (frame : Frame) :
    Ensures (fun y => frame.LeadsTo y.2) (whileRounds condition body rounds frame) := by
  induction rounds generalizing frame with
  | zero => exact .never
  | succ rounds ih =>
    refine .after fun holds => ?_
    cases holds with
    | false => exact .pure (.refl _)
    | true =>
      refine (hbody frame).bind fun y hy => ?_
      obtain ⟨_ | v, frame₁⟩ := y
      · intro s z t hz
        exact hy.trans (ih frame₁ hz)
      · exact .pure hy

theorem Ensures.forRounds (hbody : ∀ frame, Ensures (fun y => frame.LeadsTo y.2) (body frame))
    (rounds : Nat) (frame : Frame) (last : Option Value) :
    Ensures (fun y => frame.LeadsTo y.2) (forRounds condition body step rounds frame last) := by
  induction rounds generalizing frame last with
  | zero => exact .never
  | succ rounds ih =>
    refine .after fun holds => ?_
    cases holds with
    | false => exact .pure (.refl _)
    | true =>
      refine (hbody frame).bind fun y hy => .after fun _ => ?_
      intro s z t hz
      exact hy.trans (ih y.2 _ hz)

end Eval

/-- A statement leaves control where it is, or a `return` completes in it. -/
theorem ensures_leadsTo (settings : Settings) (n : Nat) (stmt : Stmt) (frame : Frame) :
    Ensures (fun y => frame.LeadsTo y.2) (execute settings n stmt frame) := by
  induction n generalizing stmt frame with
  | zero =>
    rw [execute_zero]
    exact .never
  | succ n ih =>
    have hblock (block : Block) (frame : Frame) :
        Ensures (fun y => frame.LeadsTo y.2) (runBlock settings n block frame) :=
      .executeAll ih block frame none
    by_cases hframe : frame = .function true
    · subst hframe
      rw [execute_returned]
      exact .pure (.refl _)
    · cases stmt with
      | return_ value =>
        cases frame with
        | program =>
          rw [execute_return_program]
          exact .fail _
        | function returned =>
          obtain rfl : returned = false := by simpa using hframe
          rw [execute_return_function]
          exact .after fun _ => .pure (.inr ⟨rfl, rfl⟩)
      | call f arguments =>
        rw [execute_call hframe]
        exact .after fun _ => .pure (.refl _)
      | branch condition thenBlock elseBlock =>
        rw [execute_branch hframe]
        exact .rollback (.after fun _ => hblock _ _)
      | whileLoop condition body =>
        rw [execute_whileLoop hframe]
        exact .rollback (.whileRounds (hblock body) n frame)
      | forLoop init condition step body =>
        rw [execute_forLoop hframe]
        refine .rollback ((ih init frame).bind fun y hy => ?_)
        intro s z t hz
        exact hy.trans (Ensures.forRounds (hblock body) n y.2 none hz)
      | _ =>
        intro s y t h
        rw [ensures_of_isPlain rfl h]
        exact .refl _

/-! ## Where values come from -/

section Origins

variable {settings : Settings}

open Execution

/-- The value of a completed `return`, or of a call that stands as a statement. -/
def Execution.Yields (settings : Settings) (x : Execution) (v : Value) : Prop :=
  x.Returns settings v ∨ x.CallYields settings v

/-- If every value yielded with `n` levels has an origin, so has every value that a block yields. -/
theorem exists_origin_block {n : Nat}
    (ih : ∀ stmt frame s v frame' t,
      execute settings n stmt frame s = some (.ok (some v, frame'), t) →
        ∃ x, Within settings x ⟨n, stmt, frame, s⟩ ∧ x.Yields settings v)
    {block : Block} {frame frame' : Frame} {s t : Session} {v : Value}
    (h : runBlock settings n block frame s = some (.ok (some v, frame'), t)) :
    ∃ x, WithinBlock settings n block frame s x ∧ x.Yields settings v := by
  rcases exists_of_executeAll h with h | ⟨stmt, frame₁, s₁, frame₂, s₂, w, hreach, hexec, hw⟩
  · exact absurd h (by simp)
  · obtain rfl : v = w := by simpa using hw
    obtain ⟨x, hx, hyields⟩ := ih stmt frame₁ s₁ v frame₂ s₂ hexec
    exact ⟨x, ⟨stmt, frame₁, s₁, hreach, hx⟩, hyields⟩

/-- A value that a statement yields has its origin within the statement. -/
theorem exists_origin (n : Nat) (stmt : Stmt) (frame : Frame) (s : Session) (v : Value)
    (frame' : Frame) (t : Session)
    (h : execute settings n stmt frame s = some (.ok (some v, frame'), t)) :
    ∃ x, Within settings x ⟨n, stmt, frame, s⟩ ∧ x.Yields settings v := by
  induction n generalizing stmt frame s v frame' t with
  | zero => exact absurd h (by simp [execute_zero, never])
  | succ n ih =>
    -- a statement that is passed over yields nothing
    have hframe : frame ≠ .function true := by
      rintro rfl
      rw [execute_returned, pure_eq_some_iff] at h
      simp at h
    cases stmt with
    | return_ value =>
      cases frame with
      | program =>
        rw [execute_return_program] at h
        exact absurd h (by simp [fail])
      | function returned =>
        obtain rfl : returned = false := by simpa using hframe
        have hreturn : Ensures (·.2 = .function true)
            (execute settings (n + 1) (.return_ value) (.function false)) := by
          rw [execute_return_function]
          exact .after fun _ => .pure rfl
        obtain rfl : frame' = .function true := hreturn h
        exact ⟨_, .refl _, .inl ⟨value, t, rfl, h⟩⟩
    | call f arguments =>
      have hcall : Ensures (·.2 = frame) (execute settings (n + 1) (.call f arguments) frame) := by
        rw [execute_call hframe]
        exact .after fun _ => .pure rfl
      obtain rfl : frame' = frame := hcall h
      exact ⟨_, .refl _, .inr ⟨f, arguments, t, rfl, h⟩⟩
    | branch condition thenBlock elseBlock =>
      rw [execute_branch hframe, rollback_eq_some_iff] at h
      obtain ⟨u, h, -⟩ := h
      obtain ⟨holds, s₁, htest, hblock⟩ := bind_eq_ok_iff.1 h
      obtain ⟨x, ⟨stmt, frame₁, s₂, hreach, hx⟩, hyields⟩ := exists_origin_block ih hblock
      exact ⟨x, .part hx (.branch hframe htest hreach), hyields⟩
    | whileLoop condition body =>
      rw [execute_whileLoop hframe, rollback_eq_some_iff] at h
      obtain ⟨u, h, -⟩ := h
      obtain ⟨frame₁, s₁, hloop, ⟨-, hnone, -⟩ | ⟨s₂, w, htest, hblock, hw⟩⟩ :=
        exists_of_whileRounds h
      · exact absurd hnone (by simp)
      · obtain rfl : v = w := by simpa using hw
        obtain ⟨x, ⟨stmt, frame₂, s₃, hreach, hx⟩, hyields⟩ := exists_origin_block ih hblock
        exact ⟨x, .part hx (.whileBody hframe hloop htest hreach), hyields⟩
    | forLoop init condition step body =>
      rw [execute_forLoop hframe, rollback_eq_some_iff] at h
      obtain ⟨u, h, -⟩ := h
      obtain ⟨⟨y, frame₀⟩, s₀, hinit, h⟩ := bind_eq_ok_iff.1 h
      -- what the clauses of the header yield is dropped, so the origin lies in the body
      rcases exists_of_forRounds h with
        h | ⟨frame₁, s₁, s₂, frame₂, s₃, w, hloop, htest, hblock, hw⟩
      · exact absurd h (by simp)
      · obtain rfl : v = w := by simpa using hw
        obtain ⟨x, ⟨stmt, frame₃, s₄, hreach, hx⟩, hyields⟩ := exists_origin_block ih hblock
        exact ⟨x, .part hx (.forBody hframe hinit hloop htest hreach), hyields⟩
    | _ => exact absurd (ensures_of_isPlain rfl h) (by simp)

end Origins

/-! ## Outside of any function -/

section Program

variable {settings : Settings} {n : Nat}

theorem leadsTo_of_blockReaches {block : Block} {frame frame₁ : Frame} {s s₁ : Session}
    {stmt : Stmt} (h : BlockReaches (execute settings n) block frame s stmt frame₁ s₁) :
    frame.LeadsTo frame₁ := by
  induction h with
  | head => exact .refl _
  | tail hfirst _ ih => exact (ensures_leadsTo settings n _ _ hfirst).trans ih

theorem leadsTo_of_whileReaches {condition : Eval Bool} {body : Block} {frame frame₁ : Frame}
    {s s₁ : Session} (h : WhileReaches condition (runBlock settings n body) frame s frame₁ s₁) :
    frame.LeadsTo frame₁ := by
  induction h with
  | start => exact .refl _
  | round _ hbody _ ih =>
    exact (Ensures.executeAll (ensures_leadsTo settings n) body _ none hbody).trans ih

theorem leadsTo_of_forReaches {condition : Eval Bool} {body : Block} {step : Frame → Eval Yield}
    {frame frame₁ : Frame} {s s₁ : Session}
    (h : ForReaches condition (runBlock settings n body) step frame s frame₁ s₁) :
    frame.LeadsTo frame₁ := by
  induction h with
  | start => exact .refl _
  | round _ hbody _ _ ih =>
    exact (Ensures.executeAll (ensures_leadsTo settings n) body _ none hbody).trans ih

namespace Execution

/-- Parts of what is executed outside of any function are executed outside of any function. -/
theorem PartOf.frame_eq_program {x y : Execution} (h : PartOf settings x y)
    (hy : y.frame = .program) : x.frame = .program := by
  cases h with
  | branch _ _ hreach =>
    obtain rfl := hy
    exact (leadsTo_of_blockReaches hreach).eq_program
  | whileBody _ hloop _ hreach =>
    obtain rfl := hy
    exact ((leadsTo_of_whileReaches hloop).trans (leadsTo_of_blockReaches hreach)).eq_program
  | forInit _ => exact hy
  | forBody _ hinit hloop _ hreach =>
    obtain rfl := hy
    have hstart := (ensures_leadsTo settings _ _ _ hinit).trans (leadsTo_of_forReaches hloop)
    exact (hstart.trans (leadsTo_of_blockReaches hreach)).eq_program
  | forStep _ hinit hloop _ hbody =>
    obtain rfl := hy
    have hstart := (ensures_leadsTo settings _ _ _ hinit).trans (leadsTo_of_forReaches hloop)
    have hend := Ensures.executeAll (ensures_leadsTo settings _) _ _ none hbody
    obtain rfl := (hstart.trans hend).eq_program
    rfl

theorem Within.frame_eq_program {x y : Execution} (h : Within settings x y)
    (hy : y.frame = .program) : x.frame = .program := by
  induction h with
  | refl => exact hy
  | part _ hpart ih => exact ih (hpart.frame_eq_program hy)

theorem WithinBlock.frame_eq_program {block : Block} {s : Session} {x : Execution}
    (h : WithinBlock settings n block .program s x) : x.frame = .program := by
  obtain ⟨stmt, frame₁, s₁, hreach, hx⟩ := h
  exact hx.frame_eq_program (leadsTo_of_blockReaches hreach).eq_program

/-- No `return` completes outside of any function. -/
theorem Returns.frame_ne_program {x : Execution} {v : Value} (h : x.Returns settings v) :
    x.frame ≠ .program := by
  obtain ⟨n, stmt, frame, s⟩ := x
  obtain ⟨operand, t, rfl, hrun⟩ := h
  rintro rfl
  cases n with
  | zero => exact absurd hrun (by simp [run, execute_zero, never])
  | succ n =>
    rw [run, execute_return_program] at hrun
    exact absurd hrun (by simp [fail])

end Execution

end Program

/-! ## How a `while` ends -/

open Execution

/-- Behind complete rounds of a `while`, its condition is tested with the given result; then control
    stands at `frame₁` and the session is `s₁`. -/
def Tests (settings : Settings) (n : Nat) (condition : Expr) (body : Block) (frame : Frame)
    (s : Session) (holds : Bool) (frame₁ : Frame) (s₁ : Session) : Prop :=
  ∃ s₀, WhileReaches (test settings n condition) (runBlock settings n body) frame s frame₁ s₀ ∧
    test settings n condition s₀ = some (.ok holds, s₁)

/-- **How a `while` ends.** A `while` that ends without an error was passed over because its
    function had returned; or it ended with a test of its condition that did not hold; or it ended
    in the round behind a test that held, with a value whose origin lies in that round: a completed
    `return` of the same activation, which is inside a function then, or a call standing as a
    statement that ended with the value. -/
theorem whileLoop_ends {settings : Settings} {levels : Nat} {condition : Expr} {body : Block}
    {frame frame' : Frame} {s t : Session} {yielded : Option Value}
    (h : execute settings levels (.whileLoop condition body) frame s =
      some (.ok (yielded, frame'), t)) :
    (frame = .function true ∧ yielded = none ∧ frame' = frame ∧ t = s) ∨
      ∃ n, levels = n + 1 ∧
        ((∃ s₁, Tests settings n condition body frame s false frame' s₁ ∧ yielded = none ∧
            t = { s₁ with locals := s.locals }) ∨
          ∃ frame₁ s₁ s₂ v x, Tests settings n condition body frame s true frame₁ s₁ ∧
            runBlock settings n body frame₁ s₁ = some (.ok (some v, frame'), s₂) ∧
            yielded = some v ∧ t = { s₂ with locals := s.locals } ∧
            WithinBlock settings n body frame₁ s₁ x ∧
            (frame ≠ .program ∧ x.Returns settings v ∨ x.CallYields settings v)) := by
  cases levels with
  | zero => exact absurd h (by simp [execute_zero, never])
  | succ n =>
    by_cases hframe : frame = .function true
    · subst hframe
      rw [execute_returned, pure_eq_some_iff] at h
      simp only [Except.ok.injEq, Prod.mk.injEq] at h
      obtain ⟨⟨rfl, rfl⟩, rfl⟩ := h
      exact .inl ⟨rfl, rfl, rfl, rfl⟩
    · refine .inr ⟨n, rfl, ?_⟩
      rw [execute_whileLoop hframe, rollback_eq_some_iff] at h
      obtain ⟨u, h, ht⟩ := h
      obtain ⟨frame₁, s₀, hloop, ⟨htest, hnone, rfl⟩ | ⟨s₁, v, htest, hblock, hv⟩⟩ :=
        exists_of_whileRounds h
      · exact .inl ⟨u, ⟨s₀, hloop, htest⟩, hnone, ht⟩
      · obtain ⟨x, hx, hyields⟩ := exists_origin_block (exists_origin n) hblock
        refine .inr ⟨frame₁, s₁, u, v, x, ⟨s₀, hloop, htest⟩, hblock, hv, ht, hx, ?_⟩
        rcases hyields with hreturns | hcall
        -- outside of any function every part stays outside, where a `return` is an error
        · refine .inl ⟨?_, hreturns⟩
          rintro rfl
          obtain rfl := (leadsTo_of_whileReaches hloop).eq_program
          exact hreturns.frame_ne_program hx.frame_eq_program
        · exact .inr hcall

/-- A session with a function `f` that returns one. -/
def sessionWithOne : Session :=
  { functions := ({} : Bindings Function).insert "f" ⟨[], [.return_ (.int 1)]⟩ }

theorem execute_whileLoop_call :
    execute {} 4 (.whileLoop (.int 1) [.call "f" []]) .program sessionWithOne =
      some (.ok (some (.int 1), .program), sessionWithOne) :=
  rfl

/-- Outside of any function, the call in the body ends the loop in its first round. -/
theorem whileLoop_ends_with_call :
    ∃ frame₁ s₁ x, Tests {} 3 (.int 1) [.call "f" []] .program sessionWithOne true frame₁ s₁ ∧
      WithinBlock {} 3 [.call "f" []] frame₁ s₁ x ∧ x.CallYields {} (.int 1) := by
  rcases whileLoop_ends execute_whileLoop_call with
    ⟨h, -⟩ | ⟨n, hn, ⟨s₁, -, h, -⟩ | ⟨frame₁, s₁, s₂, v, x, htests, -, hv, -, hx, hyields⟩⟩
  · exact absurd h (by simp)
  · exact absurd h (by simp)
  · obtain rfl : n = 3 := by simpa using hn
    obtain rfl : .int 1 = v := by simpa using hv
    rcases hyields with ⟨h, -⟩ | hcall
    · exact absurd rfl h
    · exact ⟨frame₁, s₁, x, htests, hx, hcall⟩

theorem test_int_one {settings : Settings} {n : Nat} {s t : Session} {holds : Bool}
    (h : test settings n (.int 1) s = some (.ok holds, t)) : holds = true := by
  cases n with
  | zero =>
    have hnever : test settings 0 (.int 1) s = none := rfl
    exact absurd h (by simp [hnever])
  | succ n =>
    have htrue : test settings (n + 1) (.int 1) s = some (.ok true, s) := rfl
    rw [htrue] at h
    simp only [Option.some.injEq, Prod.mk.injEq, Except.ok.injEq] at h
    exact h.1.symm

/-- A test that does not hold and a completed `return` are not the only ways for a `while` to end:
    here the condition always holds, and no `return` can complete outside of any function. -/
theorem not_forall_whileLoop_ends_by_test_or_return :
    ¬ ∀ (settings : Settings) (levels : Nat) (condition : Expr) (body : Block)
        (frame frame' : Frame) (s t : Session) (yielded : Option Value),
      execute settings levels (.whileLoop condition body) frame s =
          some (.ok (yielded, frame'), t) →
        ∃ n frame₁ s₁, Tests settings n condition body frame s false frame₁ s₁ ∨
          ∃ x v, Tests settings n condition body frame s true frame₁ s₁ ∧
            WithinBlock settings n body frame₁ s₁ x ∧ x.Returns settings v := by
  intro hall
  obtain ⟨n, frame₁, s₁, ⟨s₀, -, htest⟩ | ⟨x, v, ⟨s₀, hloop, -⟩, hx, hreturns⟩⟩ :=
    hall _ _ _ _ _ _ _ _ _ execute_whileLoop_call
  · exact absurd (test_int_one htest) (by simp)
  · obtain rfl := (leadsTo_of_whileReaches hloop).eq_program
    exact hreturns.frame_ne_program hx.frame_eq_program

end Scriptlet
