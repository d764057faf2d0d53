import Scriptlet.Proofs.Contents
import Scriptlet.Proofs.Securing

set_option autoImplicit false

/-! # What is handed on

Evaluation comes to a place in a list, a block or a loop behind actions that have ended, so what all
of them preserve holds there.

What a task starts stands in the task, in a function that is defined, or in a text given to `eval`.
A property of tasks is `Inherited` if it goes over to what stands in a task and to what such a text
says; it is `Sustained` together with a property of sessions if tasks with the one preserve the
other. Then both hold of everything that is started (`Sustained.starts`). -/

namespace Scriptlet

open Eval

/-! ## On the way -/

namespace Eval

variable {I : Session → Prop} {evaluate : Expr → Eval Value} {execute : Stmt → Frame → Eval Yield}
  {condition : Eval Bool} {body step : Frame → Eval Yield}

theorem ListReaches.preserves {es : List Expr} (h : ∀ e ∈ es, Preserves I (evaluate e))
    {s u : Session} {e : Expr} (hreach : ListReaches evaluate es s e u) (hs : I s) : I u := by
  induction hreach with
  | head => exact hs
  | tail hfirst _ ih =>
    refine ih (fun e' hmem => h e' (List.mem_cons_of_mem _ hmem)) ?_
    exact h _ (List.mem_cons_self ..) hfirst hs

theorem ListReaches.mem {es : List Expr} {s u : Session} {e : Expr}
    (hreach : ListReaches evaluate es s e u) : e ∈ es := by
  induction hreach with
  | head => exact List.mem_cons_self ..
  | tail _ _ ih => exact List.mem_cons_of_mem _ ih

theorem BlockReaches.mem {block : Block} {frame frame' : Frame} {s u : Session} {stmt : Stmt}
    (hreach : BlockReaches execute block frame s stmt frame' u) : stmt ∈ block := by
  induction hreach with
  | head => exact List.mem_cons_self ..
  | tail _ _ ih => exact List.mem_cons_of_mem _ ih

theorem BlockReaches.preserves {block : Block} {frame frame' : Frame} {s u : Session} {stmt : Stmt}
    (h : ∀ stmt ∈ block, ∀ frame, Preserves I (execute stmt frame))
    (hreach : BlockReaches execute block frame s stmt frame' u) (hs : I s) : I u := by
  induction hreach with
  | head => exact hs
  | tail hfirst _ ih =>
    refine ih (fun stmt' hmem => h stmt' (List.mem_cons_of_mem _ hmem)) ?_
    exact h _ (List.mem_cons_self ..) _ hfirst hs

theorem WhileReaches.preserves (hc : Preserves I condition) (hb : ∀ frame, Preserves I (body frame))
    {frame frame' : Frame} {s u : Session} (hreach : WhileReaches condition body frame s frame' u)
    (hs : I s) : I u := by
  induction hreach with
  | start => exact hs
  | round hholds hround _ ih => exact ih (hb _ hround (hc hholds hs))

theorem ForReaches.preserves (hc : Preserves I condition) (hb : ∀ frame, Preserves I (body frame))
    (hstep : ∀ frame, Preserves I (step frame)) {frame frame' : Frame} {s u : Session}
    (hreach : ForReaches condition body step frame s frame' u) (hs : I s) : I u := by
  induction hreach with
  | start => exact hs
  | round hholds hround hstepped _ ih => exact ih (hstep _ hstepped (hb _ hround (hc hholds hs)))

end Eval

/-! ## What stands in a task -/

theorem Stmt.mem_expressions {stmt : Stmt} {e : Expr} (h : e ∈ stmt.operands) :
    e ∈ stmt.expressions := by
  cases stmt <;> simp_all [Stmt.operands, Stmt.expressions]

/-- The target of an `append` or a `remove`, and the element. -/
theorem Stmt.mem_expressions_of_element? {stmt : Stmt} {container value : Expr}
    (h : stmt.element? = some (container, value)) :
    container ∈ stmt.expressions ∧ value ∈ stmt.expressions := by
  cases stmt <;> simp_all [Stmt.element?, Stmt.expressions]

/-- A property of tasks that goes over to the operands of an expression, to the expressions and
    statements of a statement, and to the expression that a text given to `eval` stands for. -/
structure Inherited (T : Task → Prop) : Prop where
  operand : ∀ ⦃e⦄, T (.expression e) → ∀ c ∈ e.operands, T (.expression c)
  expression : ∀ ⦃stmt frame⦄, T (.statement stmt frame) → ∀ e ∈ stmt.expressions,
    T (.expression e)
  statement : ∀ ⦃stmt frame⦄, T (.statement stmt frame) →
    ∀ inner, inner ∈ stmt.inBlocks ∨ inner ∈ stmt.clauses → ∀ frame', T (.statement inner frame')
  text : ∀ ⦃operand code e⦄, T (.expression (.eval operand)) →
    (Expr.ofSource code).result = .ok e → T (.expression e)
  comparison : ∀ c, T (.comparison c)

/-- The functions that are defined have only such statements in their bodies. -/
def Session.Offers (T : Task → Prop) (s : Session) : Prop :=
  ∀ name f, s.functions.get? name = some f → ∀ stmt ∈ f.body, ∀ frame, T (.statement stmt frame)

variable {settings : Settings} {T : Task → Prop}

theorem Inherited.operands (hT : Inherited T) {task : Task} (h : T task) :
    ∀ e ∈ task.operands, T (.expression e) := by
  intro e he
  cases task with
  | expression outer => exact hT.operand h e he
  | statement stmt frame => exact hT.expression h e (Stmt.mem_expressions he)
  | comparison c => exact absurd he (List.not_mem_nil)

/-- The property goes over to whatever a task starts. -/
theorem Inherited.starts (hT : Inherited T) {a b : Point} (h : Starts settings a b)
    (ha : T a.task) (hs : a.session.Offers T) : T b.task := by
  cases h with
  | operand _ hreach => exact hT.operands ha _ hreach.mem
  | element _ helement => exact hT.expression ha _ (Stmt.mem_expressions_of_element? helement).2
  | text _ _ hread => exact hT.text ha hread
  | body _ _ henters hreach => exact hs _ _ henters.defined _ hreach.mem _
  | part hpart =>
    cases hpart with
    | branch _ _ hreach =>
      refine hT.statement ha _ (.inl ?_) _
      have hblock := hreach.mem
      simp only [Stmt.inBlocks, List.mem_append]
      split at hblock
      · exact .inl hblock
      · exact .inr hblock
    | whileBody _ _ _ hreach => exact hT.statement ha _ (.inl hreach.mem) _
    | forBody _ _ _ _ hreach => exact hT.statement ha _ (.inl hreach.mem) _
    | forInit _ => exact hT.statement ha _ (.inr (by simp [Stmt.clauses])) _
    | forStep _ _ _ _ _ => exact hT.statement ha _ (.inr (by simp [Stmt.clauses])) _
  | whileCondition _ _ => exact hT.expression ha _ (by simp [Stmt.expressions])
  | forCondition _ _ _ => exact hT.expression ha _ (by simp [Stmt.expressions])
  | comparison _ _ _ => exact hT.comparison _
  | search _ _ _ _ _ _ => exact hT.comparison _

/-! ## What holds where a task is started -/

/-- Tasks with an inherited property preserve a property of sessions, which implies that no other
    tasks are on offer, and holds where the body of a function and the expression of a text start if
    it held before. -/
structure Sustained (settings : Settings) (T : Task → Prop) (J : Session → Prop) : Prop
    extends Inherited T where
  offers : ∀ ⦃s⦄, J s → s.Offers T
  evaluate : ∀ ⦃e⦄, T (.expression e) → ∀ n, Preserves J (evaluate settings n e)
  execute : ∀ ⦃stmt frame⦄, T (.statement stmt frame) → ∀ n,
    Preserves J (execute settings n stmt frame)
  enters : ∀ ⦃task n name arguments s f t⦄, T task → task.call? = some (name, arguments) →
    Enters settings n name arguments s f t → J s → J t
  reading : ∀ ⦃operand code s⦄, T (.expression (.eval operand)) → J s → J (s.reading settings code)

namespace Sustained

variable {J : Session → Prop} (hJ : Sustained settings T J)

include hJ

theorem test {condition : Expr} (h : T (.expression condition)) (n : Nat) :
    Preserves J (test settings n condition) :=
  (hJ.evaluate h n).bind fun v => .of_keeps (.truthy v)

theorem runBlock {block : Block} (h : ∀ stmt ∈ block, ∀ frame, T (.statement stmt frame)) (n : Nat)
    (frame : Frame) : Preserves J (runBlock settings n block frame) :=
  .executeAll (fun stmt hstmt frame => hJ.execute (h stmt hstmt frame) n) frame none

/-- The rounds of a `while` that are complete. -/
theorem whileRounds {condition : Expr} {body : Block} {frame frame' frame₁ : Frame} {s u : Session}
    {n : Nat} (h : T (.statement (.whileLoop condition body) frame))
    (hloop : WhileReaches (Scriptlet.test settings n condition) (Scriptlet.runBlock settings n body)
      frame' s frame₁ u) (hs : J s) : J u := by
  have hcondition := hJ.expression h condition (by simp [Stmt.expressions])
  refine hloop.preserves (hJ.test hcondition n) (hJ.runBlock (fun stmt hstmt => ?_) n) hs
  exact hJ.statement h stmt (.inl hstmt)

/-- The header of a `for` and the rounds that are complete. -/
theorem forRounds {init step : Stmt} {condition : Expr} {body : Block}
    {frame frame' frame₁ frame₂ : Frame} {yielded : Option Value} {s s₁ u : Session} {n : Nat}
    (h : T (.statement (.forLoop init condition step body) frame))
    (hinit : Scriptlet.execute settings n init frame' s = some (.ok (yielded, frame₁), s₁))
    (hloop : ForReaches (Scriptlet.test settings n condition) (Scriptlet.runBlock settings n body)
      (Scriptlet.execute settings n step) frame₁ s₁ frame₂ u) (hs : J s) : J u := by
  have hcondition := hJ.expression h condition (by simp [Stmt.expressions])
  have hbody : ∀ stmt ∈ body, ∀ frame, T (.statement stmt frame) := by
    intro stmt hstmt
    exact hJ.statement h stmt (.inl hstmt)
  have hclause (clause : Stmt) (hmem : clause ∈ [init, step]) (frame : Frame) :
      Preserves J (Scriptlet.execute settings n clause frame) :=
    hJ.execute (hJ.statement h clause (.inr hmem) frame) n
  refine hloop.preserves (hJ.test hcondition n) (hJ.runBlock hbody n) (hclause step (by simp)) ?_
  exact hclause init (by simp) _ hinit hs

/-- The parts of a statement are started in sessions with the property. -/
theorem part {stmt inner : Stmt} {frame frame' : Frame} {s u : Session} {n : Nat}
    (h : Execution.PartOf settings ⟨n, inner, frame', u⟩ ⟨n + 1, stmt, frame, s⟩)
    (hstmt : T (.statement stmt frame)) (hs : J s) : J u := by
  have hinner (stmt' : Stmt) (hmem : stmt' ∈ stmt.inBlocks) (frame' : Frame) (m : Nat) :
      Preserves J (Scriptlet.execute settings m stmt' frame') :=
    hJ.execute (hJ.statement hstmt stmt' (.inl hmem) frame') m
  have htest {condition : Expr} (hmem : condition ∈ stmt.expressions) (m : Nat) :
      Preserves J (Scriptlet.test settings m condition) :=
    hJ.test (hJ.expression hstmt condition hmem) m
  cases h with
  | branch _ hholds hreach =>
    refine hreach.preserves (fun stmt' hmem frame' => hinner stmt' ?_ frame' n)
      (htest (by simp [Stmt.expressions]) n hholds hs)
    simp only [Stmt.inBlocks, List.mem_append]
    split at hmem
    · exact .inl hmem
    · exact .inr hmem
  | whileBody _ hloop hholds hreach =>
    refine hreach.preserves (fun stmt' hmem frame' => hinner stmt' hmem frame' n) ?_
    exact htest (by simp [Stmt.expressions]) n hholds (hJ.whileRounds hstmt hloop hs)
  | forInit _ => exact hs
  | forBody _ hinit hloop hholds hreach =>
    refine hreach.preserves (fun stmt' hmem frame' => hinner stmt' hmem frame' n) ?_
    exact htest (by simp [Stmt.expressions]) n hholds (hJ.forRounds hstmt hinit hloop hs)
  | forStep _ hinit hloop hholds hbody =>
    refine hJ.runBlock (fun stmt' hmem => hJ.statement hstmt stmt' (.inl hmem)) n _ hbody ?_
    exact htest (by simp [Stmt.expressions]) n hholds (hJ.forRounds hstmt hinit hloop hs)

/-- Both properties go over to whatever a task starts. -/
theorem starts {a b : Point} (h : Starts settings a b) (ha : T a.task) (hs : J a.session) :
    T b.task ∧ J b.session := by
  refine ⟨hJ.toInherited.starts h ha (hJ.offers hs), ?_⟩
  have htarget {e : Expr} {v : Value} {s u : Session} {found : Handle × String}
      (hfound : target e v s = some (.ok found, u)) (hs : J s) : J u :=
    Preserves.of_keeps (.target e v) hfound hs
  cases h with
  | operand _ hreach =>
    exact hreach.preserves (fun e he => hJ.evaluate (hJ.operands ha e he) _) hs
  | element _ helement hcontainer hfound =>
    have hmem := (Stmt.mem_expressions_of_element? helement).1
    exact htarget hfound (hJ.evaluate (hJ.expression ha _ hmem) _ hcontainer hs)
  | text hoperand =>
    exact hJ.reading ha (hJ.evaluate (hJ.operand ha _ (by simp [Expr.operands])) _ hoperand hs)
  | body _ hcall henters hreach =>
    refine hreach.preserves (fun stmt hmem frame => hJ.execute ?_ _) (hJ.enters ha hcall henters hs)
    exact hJ.offers hs _ _ henters.defined stmt hmem frame
  | part hpart => exact hJ.part hpart ha hs
  | whileCondition _ hloop => exact hJ.whileRounds ha hloop hs
  | forCondition _ hinit hloop => exact hJ.forRounds ha hinit hloop hs
  | comparison hleft hright =>
    have hoperands := hJ.operand ha
    refine hJ.evaluate (hoperands _ (by simp [Expr.operands])) _ hright ?_
    exact hJ.evaluate (hoperands _ (by simp [Expr.operands])) _ hleft hs
  | search _ hcontainer hfound hvalue =>
    have hexpressions := hJ.expression ha
    refine hJ.evaluate (hexpressions _ (by simp [Stmt.expressions])) _ hvalue (htarget hfound ?_)
    exact hJ.evaluate (hexpressions _ (by simp [Stmt.expressions])) _ hcontainer hs

/-- Both properties hold of whatever a run comes to. -/
theorem comesTo {program : Block} {s : Session} {a : Point} (h : ComesTo settings program s a)
    (hprogram : ∀ stmt ∈ program, ∀ frame, T (.statement stmt frame)) (hs : J s) :
    T a.task ∧ J a.session := by
  obtain ⟨n, stmt, frame, u, hreach, hstarts⟩ := h
  induction hstarts with
  | refl =>
    refine ⟨hprogram stmt hreach.mem frame, hreach.preserves (fun stmt' hmem frame' => ?_) hs⟩
    exact hJ.execute (hprogram stmt' hmem frame') n
  | tail _ hstep ih => exact hJ.starts hstep ih.1 ih.2

/-- A run preserves the property. -/
theorem run {program : Block} (hprogram : ∀ stmt ∈ program, ∀ frame, T (.statement stmt frame))
    (n : Nat) : Preserves J (run settings n program) := by
  intro s r t h hs
  obtain ⟨q, u, hblock, hend⟩ := exists_of_run h
  rw [eq_of_conclude hend]
  exact hJ.runBlock hprogram n .program hblock hs

end Sustained

end Scriptlet
