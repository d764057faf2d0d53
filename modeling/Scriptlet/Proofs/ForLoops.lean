import Mathlib.Order.Basic
import Scriptlet.Proofs.Tasks

set_option autoImplicit false

/-! # `for` as `while`

A `for` is a `while` that has its step at the end of its body, behind its init, in a branch that
undoes the bindings of both (`Stmt.scopedWhile`). The two part where values are yielded: a `while`
ends with the first value of its body and a `for` goes on, and the step of a `for` runs even behind
a `return`. So the statements in question must not yield any, which is a matter of their text
(`Stmt.neverYields`): no `return` and no call may stand among them as a statement.

Then a round of the one is a round of the other (`whileRounds_concat`), and both loops are the same
action with a level more or less (`execute_scopedWhile`). -/

namespace Scriptlet

open Eval

/-! ## Statements that yield nothing -/

mutual

/-- No `return` and no call stands in the statement as a statement. The bodies of functions that it
    defines do not count. -/
def Stmt.neverYields : Stmt → Bool
  | .return_ _ | .call _ _ => false
  | .branch _ thenBlock elseBlock => Block.neverYields thenBlock && Block.neverYields elseBlock
  | .whileLoop _ body => Block.neverYields body
  | .forLoop init _ step body =>
    Stmt.neverYields init && Stmt.neverYields step && Block.neverYields body
  | _ => true

/-- No `return` and no call stands in the block as a statement. -/
def Block.neverYields : Block → Bool
  | [] => true
  | stmt :: rest => Stmt.neverYields stmt && Block.neverYields rest

end

/-- The action yields nothing and leaves control where it is. -/
abbrev Eval.YieldsNothing (frame : Frame) (x : Eval Yield) : Prop :=
  Ensures (· = (none, frame)) x

namespace Eval

variable {α β : Type} {execute : Stmt → Frame → Eval Yield} {condition : Eval Bool}
  {body step : Frame → Eval Yield}

/-- Behind an action it matters only what its values can be. -/
theorem Ensures.bind_congr {P : α → Prop} {x : Eval α} {f g : α → Eval β} (hx : Ensures P x)
    (h : ∀ a, P a → f a = g a) : (x >>= f) = (x >>= g) := by
  funext s
  show Eval.bind x f s = Eval.bind x g s
  rcases hend : x s with _ | ⟨e | a, t⟩
  · simp only [Eval.bind, hend]
  · simp only [Eval.bind, hend]
  · simp only [Eval.bind, hend, h a (hx hend)]

/-- What is put back on the way is put back at the end. -/
theorem rollback_bind_rollback (x : Eval α) (f : α → Eval β) :
    rollback (do let a ← x; rollback (f a)) = rollback (x >>= f) := by
  funext s
  show rollback (Eval.bind x fun a => rollback (f a)) s = rollback (Eval.bind x f) s
  rcases hx : x s with _ | ⟨e | a, t⟩
  · simp only [rollback, Eval.bind, hx]
  · simp only [rollback, Eval.bind, hx]
  · simp only [rollback, Eval.bind, hx]
    rcases f a t with _ | ⟨r, u⟩ <;> rfl

theorem yieldsNothing_executeAll {block : Block} {frame : Frame}
    (h : ∀ stmt ∈ block, YieldsNothing frame (execute stmt frame)) (last : Option Value) :
    Ensures (· = (last, frame)) (executeAll execute block frame last) := by
  induction block generalizing last with
  | nil => exact .pure rfl
  | cons stmt rest ih =>
    refine (h stmt (List.mem_cons_self ..)).bind fun y hy => ?_
    subst hy
    exact ih (fun stmt hmem => h stmt (List.mem_cons_of_mem _ hmem)) last

theorem yieldsNothing_whileRounds {frame : Frame} (hbody : YieldsNothing frame (body frame))
    (rounds : Nat) : YieldsNothing frame (whileRounds condition body rounds frame) := by
  induction rounds with
  | zero => exact .never
  | succ rounds ih =>
    refine .after fun holds => ?_
    cases holds with
    | false => exact .pure rfl
    | true =>
      refine hbody.bind fun y hy => ?_
      subst hy
      exact ih

theorem yieldsNothing_forRounds {frame : Frame} (hbody : YieldsNothing frame (body frame))
    (rounds : Nat) : YieldsNothing frame (forRounds condition body step rounds frame none) := by
  induction rounds with
  | zero => exact .never
  | succ rounds ih =>
    refine .after fun holds => ?_
    cases holds with
    | false => exact .pure rfl
    | true =>
      refine hbody.bind fun y hy => .after fun _ => ?_
      subst hy
      exact ih

theorem executeAll_concat {block : Block} {stmt : Stmt} {frame : Frame}
    (hblock : YieldsNothing frame (executeAll execute block frame none))
    (hstmt : YieldsNothing frame (execute stmt frame)) :
    executeAll execute (block ++ [stmt]) frame none = (do
      let _ ← executeAll execute block frame none
      let _ ← execute stmt frame
      return (none, frame)) := by
  rw [executeAll_append]
  refine hblock.bind_congr fun y hy => ?_
  subst hy
  refine hstmt.bind_congr fun y hy => ?_
  subst hy
  rfl

/-- **One round.** Where nothing is yielded, the rounds of a `while` with the step at the end of its
    body are those of a `for`. -/
theorem whileRounds_concat {block : Block} {stmt : Stmt} {frame : Frame}
    (hblock : YieldsNothing frame (executeAll execute block frame none))
    (hstmt : YieldsNothing frame (execute stmt frame)) (hframe : frame.resumed = frame)
    (rounds : Nat) :
    whileRounds condition (fun frame => executeAll execute (block ++ [stmt]) frame none) rounds
        frame =
      forRounds condition (fun frame => executeAll execute block frame none) (execute stmt) rounds
        frame none := by
  induction rounds with
  | zero => rfl
  | succ rounds ih =>
    unfold whileRounds forRounds
    refine bind_congr fun holds => ?_
    cases holds with
    | false => rfl
    | true =>
      simp only [if_true]
      rw [executeAll_concat hblock hstmt, bind_assoc]
      refine hblock.bind_congr fun y hy => ?_
      subst hy
      rw [bind_assoc, hframe]
      exact bind_congr fun _ => ih

end Eval

section NeverYields

variable {settings : Settings}

theorem Block.neverYields_iff {block : Block} :
    Block.neverYields block = true ↔ ∀ stmt ∈ block, stmt.neverYields = true := by
  induction block with
  | nil => simp [Block.neverYields]
  | cons stmt rest ih => simp [Block.neverYields, ih]

/-- A statement without a `return` and without a call among its statements yields nothing. -/
theorem yieldsNothing_execute {stmt : Stmt} (h : stmt.neverYields = true) (n : Nat)
    (frame : Frame) : YieldsNothing frame (execute settings n stmt frame) := by
  induction n generalizing stmt frame with
  | zero =>
    rw [execute_zero]
    exact .never
  | succ n ih =>
    have hblock {block : Block} (hblock : Block.neverYields block = true) (frame : Frame) :
        YieldsNothing frame (runBlock settings n block frame) :=
      yieldsNothing_executeAll
        (fun stmt hmem => ih (Block.neverYields_iff.1 hblock stmt hmem) frame) none
    by_cases hframe : frame = .function true
    · subst hframe
      rw [execute_returned]
      exact .pure rfl
    · cases stmt with
      | return_ | call => exact absurd h (by simp [Stmt.neverYields])
      | branch condition thenBlock elseBlock =>
        simp only [Stmt.neverYields, Bool.and_eq_true] at h
        rw [execute_branch hframe]
        refine .rollback (.after fun holds => ?_)
        cases holds with
        | true => exact hblock h.1 frame
        | false => exact hblock h.2 frame
      | whileLoop condition body =>
        rw [execute_whileLoop hframe]
        exact .rollback (yieldsNothing_whileRounds (hblock h frame) n)
      | forLoop init condition step body =>
        simp only [Stmt.neverYields, Bool.and_eq_true] at h
        rw [execute_forLoop hframe]
        refine .rollback ((ih h.1.1 frame).bind fun y hy => ?_)
        subst hy
        exact yieldsNothing_forRounds (hblock h.2 frame) n
      | _ => exact ensures_of_isPlain rfl

theorem yieldsNothing_runBlock {block : Block} (h : Block.neverYields block = true) (n : Nat)
    (frame : Frame) : YieldsNothing frame (runBlock settings n block frame) :=
  yieldsNothing_executeAll
    (fun stmt hmem => yieldsNothing_execute (Block.neverYields_iff.1 h stmt hmem) n frame) none

end NeverYields

/-! ## The two loops -/

/-- `if 1 { init; while condition { body; step; } }`. -/
def Stmt.scopedWhile (init : Stmt) (condition : Expr) (step : Stmt) (body : Block) : Stmt :=
  .branch (.int 1) [init, .whileLoop condition (body ++ [step])] []

section Loops

variable {init step : Stmt} {body : Block} {frame : Frame}

/-- The init with `m` levels, and rounds of a `for` with `n` levels. -/
def forAction (settings : Settings) (init : Stmt) (condition : Expr) (step : Stmt) (body : Block)
    (m n : Nat) (frame : Frame) : Eval Yield :=
  rollback do
    let _ ← execute settings m init frame
    forRounds (test settings n condition) (runBlock settings n body) (execute settings n step) n
      frame none

theorem execute_forLoop_of_neverYields (settings : Settings) (hinit : init.neverYields = true)
    (hframe : frame ≠ .function true) (n : Nat) (condition : Expr) (step : Stmt) (body : Block) :
    execute settings (n + 1) (.forLoop init condition step body) frame =
      forAction settings init condition step body n n frame := by
  rw [execute_forLoop hframe, forAction]
  refine congrArg rollback ((yieldsNothing_execute hinit n frame).bind_congr fun y hy => ?_)
  subst hy
  rfl

/-- Written as a `while`, the same rounds come one level further down. -/
theorem execute_scopedWhile (settings : Settings) (hinit : init.neverYields = true)
    (hstep : step.neverYields = true) (hbody : Block.neverYields body = true)
    (hframe : frame ≠ .function true) (n : Nat) (condition : Expr) :
    execute settings (n + 2) (.scopedWhile init condition step body) frame =
      forAction settings init condition step body (n + 1) n frame := by
  have hresumed : frame.resumed = frame := by
    cases frame with
    | program => rfl
    | function returned =>
      obtain rfl : returned = false := by simpa using hframe
      rfl
  have hloop : execute settings (n + 1) (.whileLoop condition (body ++ [step])) frame =
      rollback (forRounds (test settings n condition) (runBlock settings n body)
        (execute settings n step) n frame none) := by
    rw [execute_whileLoop hframe]
    refine congrArg rollback ?_
    exact whileRounds_concat (yieldsNothing_runBlock hbody n frame)
      (yieldsNothing_execute hstep n frame) hresumed n
  have htest : test settings (n + 1) (.int 1) = pure true := rfl
  rw [Stmt.scopedWhile, execute_branch hframe, htest, pure_bind, if_pos rfl, forAction,
    ← rollback_bind_rollback]
  refine congrArg rollback ((yieldsNothing_execute hinit (n + 1) frame).bind_congr fun y hy => ?_)
  subst hy
  simp only [executeAll, hloop]
  -- the value of a statement goes on as it is where there was none before
  have hpass : ∀ y : Yield, (y.1 <|> (none <|> none), y.2) = y := by
    rintro ⟨v, frame⟩
    cases v <;> rfl
  simp only [hpass, bind_pure]

/-- More levels for both parts. -/
theorem extends_forAction {settings : Settings} {m m' n n' : Nat} (hm : m ≤ m') (hn : n ≤ n')
    (condition : Expr) :
    Extends (forAction settings init condition step body m n frame)
      (forAction settings init condition step body m' n' frame) := by
  refine .rollback (.bind (extends_execute settings hm init frame) fun _ => ?_)
  obtain ⟨surplus, rfl⟩ := Nat.exists_eq_add_of_le hn
  exact (moreLevels settings surplus).forRounds (extends_test settings hn condition)
    (extends_runBlock settings hn body) (extends_execute settings hn step) n frame none

/-- **`for` is `while` with a scope.** Where no `return` and no call stands as a statement in the
    init, the step and the body of a `for`, outside of the functions that they define, executing it
    from a frame that has not returned is executing its init and then a `while` with the step behind
    the body, both inside a branch: one of them ends if and only if the other does, in the same
    session and with the same error or else without a value. -/
theorem forLoop_ends_iff_scopedWhile (hinit : init.neverYields = true)
    (hstep : step.neverYields = true) (hbody : Block.neverYields body = true)
    (hframe : frame ≠ .function true) (settings : Settings) (condition : Expr) (s t : Session)
    (r : Except RuntimeError Yield) :
    (Ends (fun levels => execute settings levels (.forLoop init condition step body) frame) s r t ↔
      Ends (fun levels => execute settings levels (.scopedWhile init condition step body) frame)
        s r t) ∧
    (Ends (fun levels => execute settings levels (.forLoop init condition step body) frame) s r t →
      ∀ y, r = .ok y → y = (none, frame)) := by
  refine ⟨⟨?_, ?_⟩, ?_⟩
  · rintro ⟨levels, h⟩
    cases levels with
    | zero => exact absurd h (by simp [execute_zero, never])
    | succ n =>
      have hfor := execute_forLoop_of_neverYields settings hinit hframe n condition step body
      have hwhile := execute_scopedWhile settings hinit hstep hbody hframe n condition
      have hround := (congrFun hfor s).symm.trans h
      have hmore := extends_forAction (Nat.le_succ n) (Nat.le_refl n) condition hround
      exact ⟨n + 2, (congrFun hwhile s).trans hmore⟩
  · rintro ⟨levels, h⟩
    -- with fewer than two levels not even the condition of the branch has a value
    have hmore : execute settings (levels + 2) (.scopedWhile init condition step body) frame s =
        some (r, t) := extends_execute settings (Nat.le_add_right levels 2) _ frame h
    rw [execute_scopedWhile settings hinit hstep hbody hframe] at hmore
    have hround := extends_forAction (Nat.le_refl _) (Nat.le_succ levels) condition hmore
    have hfor := execute_forLoop_of_neverYields settings hinit hframe (levels + 1) condition step
      body
    exact ⟨levels + 2, (congrFun hfor s).trans hround⟩
  · rintro ⟨levels, h⟩ y rfl
    have hloop : (Stmt.forLoop init condition step body).neverYields = true := by
      simp [Stmt.neverYields, hinit, hstep, hbody]
    exact yieldsNothing_execute hloop levels frame h

end Loops

/-- A session with an empty global array `a`. -/
def sessionWithList : Session where
  globals := ({} : Bindings Value).insert "a" (.array ⟨0⟩)
  heap := ⟨#[#[]]⟩

/-- `function f(i) { return i + 7; } append(a, f(i)); if i { print i; }`. -/
def appendingBody : Block :=
  [.define "f" ["i"] [.return_ (.binary (.arithmetic .add) (.name "i") (.int 7))],
    .append (.name "a") (.call "f" [.name "i"]), .branch (.name "i") [.print [.name "i"]] []]

/-- `i < 2`. -/
def belowTwo : Expr :=
  .binary (.order .less) (.name "i") (.int 2)

/-- A loop that in every round defines a function with a `return` and calls it, written both
    ways. -/
theorem forLoop_ends_iff_scopedWhile_appending :
    ∃ t, Ends (fun levels => execute {} levels
        (.scopedWhile (.assign "i" (.int 0)) belowTwo (.increment "i" .up) appendingBody) .program)
        sessionWithList (.ok (none, .program)) t ∧
      t.sink.text = "1\n" := by
  have hresult : (execute {} 8
      (.forLoop (.assign "i" (.int 0)) belowTwo (.increment "i" .up) appendingBody) .program
      sessionWithList).map (fun x => (x.1, x.2.sink.text)) =
        some (.ok (none, .program), "1\n") := by decide +kernel
  obtain ⟨t, hfor, htext⟩ := exists_of_output hresult
  have hinit : (Stmt.assign "i" (.int 0)).neverYields = true := rfl
  have hstep : (Stmt.increment "i" .up).neverYields = true := rfl
  have hbody : Block.neverYields appendingBody = true := rfl
  have hframe : Frame.program ≠ .function true := by simp
  have hsame := (forLoop_ends_iff_scopedWhile hinit hstep hbody hframe {} belowTwo sessionWithList t
    (.ok (none, .program))).1
  exact ⟨t, hsame.1 ⟨8, hfor⟩, htext⟩

end Scriptlet
