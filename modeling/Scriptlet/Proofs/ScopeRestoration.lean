import Scriptlet.Proofs.Keeps

set_option autoImplicit false

/-! # Scope restoration

An expression leaves the local bindings and the depth as they were, however its evaluation ends. A
statement leaves the depth, and of the local bindings it changes at most the names that it assigns
to itself: what its inner statements assign is rolled back with them.

The induction is on the levels, over expressions and statements at once. Its statement is not
symmetric: expressions restore the bindings and the depth, statements the depth alone. That is
enough. A call, a branch and a loop are rolled back, so they need only the depth from the statements
inside them; and what is evaluated one level deeper, the body of a call or the text given to `eval`,
leaves the count balanced because it does so itself. -/

namespace Scriptlet

/-- The part of a session that belongs to the running activation: its bindings and its depth. -/
def Session.scope (s : Session) : Bindings Value × Nat := (s.locals, s.depth)

/-- The names that a statement assigns to itself; inner statements do not count. -/
def Stmt.targets : Stmt → List String
  | assign name _ => [name]
  | assignAll names _ => names
  | increment name _ => [name]
  | compound name _ _ => [name]
  | _ => []

/-- Bindings made in order are not seen by a view that sees none of them. -/
theorem Bindings.view_insertAll {α γ : Type} (view : Bindings α → γ) {pairs : List (String × α)}
    (h : ∀ pair ∈ pairs, ∀ b, view (b.insert pair.1 pair.2) = view b) (b : Bindings α) :
    view (b.insertAll pairs) = view b := by
  induction pairs generalizing b with
  | nil => rfl
  | cons pair pairs ih =>
    show view ((b.insert pair.1 pair.2).insertAll pairs) = view b
    rw [ih (fun p hp => h p (List.mem_cons_of_mem _ hp)), h pair (List.mem_cons_self ..)]

namespace Eval

variable {α γ : Type}

/-! ## Calls and texts -/

namespace Keeps

theorem locals_of_scope {x : Eval α} (hx : Keeps Session.scope x) : Keeps (·.locals) x :=
  hx.comp Prod.fst

theorem depth_of_scope {x : Eval α} (hx : Keeps Session.scope x) : Keeps (·.depth) x :=
  hx.comp Prod.snd

/-- A rolled back action restores the scope if it restores the depth. -/
theorem scope_rollback {x : Eval α} (hx : Keeps (·.depth) x) :
    Keeps Session.scope (Eval.rollback x) :=
  (locals_rollback x).prod (hx.rollback fun _ _ => rfl)

/-- An action one level deeper restores the scope if it does so itself. -/
theorem scope_deeper (limit : Nat) {x : Eval α} (hx : Keeps Session.scope x) :
    Keeps Session.scope (Eval.deeper limit x) :=
  (hx.locals_of_scope.deeper (fun _ _ => rfl) limit).prod (depth_deeper limit hx.depth_of_scope)

/-- A call restores the scope if the statements of its body restore the depth. -/
theorem scope_invoke (settings : Settings) {evaluate : Expr → Eval Value}
    {execute : Stmt → Frame → Eval Yield} (he : ∀ e, Keeps Session.scope (evaluate e))
    (hs : ∀ stmt frame, Keeps (·.depth) (execute stmt frame)) (name : String)
    (arguments : List Expr) :
    Keeps Session.scope (Eval.invoke settings evaluate execute name arguments) := by
  refine bind (find _ _) fun f => ?_
  dsimp only
  split
  · exact fail _
  · refine bind (evaluateAll he arguments) fun values => bind ?_ fun result => ?_
    · refine scope_deeper _ (scope_rollback ?_)
      refine bind (trace (fun _ _ => rfl) _ _) fun _ => bind (update fun _ => rfl) fun _ => ?_
      exact bind (executeAll hs f.body _ none) fun _ => pure _
    · exact bind (trace (fun _ _ => rfl) _ _) fun _ => pure _

theorem scope_evaluateText (settings : Settings) {evaluate : Expr → Eval Value}
    (he : ∀ e, Keeps Session.scope (evaluate e)) (code : String) :
    Keeps Session.scope (Eval.evaluateText settings evaluate code) := by
  refine bind (trace (fun _ _ => rfl) _ _) fun _ => ?_
  cases settings.dynamic with
  | disabled => exact fail _
  | stub answer => exact reply _
  | expression =>
    refine bind (report (fun _ _ => rfl) _) fun _ => ?_
    split
    · exact fail _
    · next e _ => exact scope_deeper _ (he e)

end Keeps

/-! ## Expressions and statements -/

variable {settings : Settings} {levels : Nat}

/-- Expressions restore the scope at one more level, if expressions restore the scope and statements
    the depth at this level. -/
theorem keeps_scope_evaluate_succ (he : ∀ e, Keeps Session.scope (evaluate settings levels e))
    (hs : ∀ stmt frame, Keeps (·.depth) (execute settings levels stmt frame)) (e : Expr) :
    Keeps Session.scope (evaluate settings (levels + 1) e) := by
  unfold evaluate
  cases e with
  | int n => exact .pure _
  | text s => exact .pure _
  | name x => exact .resolve x
  | binary op left right =>
    exact (he left).bind fun _ => (he right).bind fun _ => .applyBinary (fun _ _ => rfl) _ _ _
  | call f arguments =>
    refine (Keeps.scope_invoke settings he hs f arguments).bind fun yielded => ?_
    cases yielded with
    | none => exact .fail _
    | some v => exact .pure _
  | index x indices => exact (Keeps.evaluateAll he indices).bind fun _ => .readPath x _
  | array elements =>
    exact (Keeps.evaluateAll he elements).bind fun _ => .allocate (fun _ _ => rfl) _
  | eval operand =>
    refine (he operand).bind fun v => ?_
    cases v with
    | text code => exact .scope_evaluateText settings he code
    | _ => exact .fail _
  | id operand => exact (he operand).bind fun _ => .pure _

/-- A statement at one more level keeps every view of the scope that does not see its targets, if
    expressions restore the scope and statements the depth at this level. -/
theorem keeps_execute_succ (he : ∀ e, Keeps Session.scope (evaluate settings levels e))
    (hs : ∀ stmt frame, Keeps (·.depth) (execute settings levels stmt frame))
    (view : Bindings Value × Nat → γ) {stmt : Stmt}
    (hv : ∀ x ∈ stmt.targets, ∀ b v depth, view (b.insert x v, depth) = view (b, depth))
    (frame : Frame) :
    Keeps (fun s => view s.scope) (execute settings (levels + 1) stmt frame) := by
  have hcondition (condition : Expr) : Keeps Session.scope (do
      truthy (← evaluate settings levels condition) : Eval Bool) :=
    (he condition).bind fun _ => .truthy _
  -- inner statements may assign to any name: nothing but the depth is known of a block
  have hblock (block : Block) (frame : Frame) :
      Keeps (·.depth) (executeAll (execute settings levels) block frame none) :=
    .executeAll hs block frame none
  unfold execute
  split
  · exact .pure _
  · cases stmt with
    | exit => exact (Keeps.writeLine (fun _ _ => rfl) _).bind fun _ => .fail _
    | print arguments =>
      exact ((Keeps.evaluateAll he arguments).comp view).bind fun _ =>
        (Keeps.writeValues (fun _ _ => rfl) _).bind fun _ => .pure _
    | branch condition thenBlock elseBlock =>
      refine (Keeps.scope_rollback ?_).comp view
      refine (he condition).depth_of_scope.bind fun v => (Keeps.truthy v).bind fun more => ?_
      cases more with
      | true => exact hblock thenBlock frame
      | false => exact hblock elseBlock frame
    | whileLoop condition body =>
      refine (Keeps.scope_rollback ?_).comp view
      exact .whileRounds (hcondition condition).depth_of_scope (hblock body) levels frame
    | forLoop init condition step body =>
      refine (Keeps.scope_rollback ?_).comp view
      refine (hs init frame).bind fun yielded => ?_
      exact .forRounds (hcondition condition).depth_of_scope (hblock body) (hs step) levels _ none
    | define name parameters body =>
      refine (Keeps.trace (fun _ _ => rfl) _ _).bind fun _ => Keeps.bind ?_ fun _ => .pure _
      exact .update fun _ => rfl
    | return_ value =>
      cases frame with
      | program => exact .fail _
      | function returned => exact ((he value).comp view).bind fun _ => .pure _
    | call f arguments =>
      exact ((Keeps.scope_invoke settings he hs f arguments).comp view).bind fun _ => .pure _
    -- of the statements below, only those with targets need what is known of the view
    | assign name value =>
      exact ((he value).comp view).bind fun v =>
        (Keeps.update fun s => hv name (by simp [Stmt.targets]) _ v _).bind fun _ => .pure _
    | assignAll names values =>
      refine ((Keeps.evaluateAll he values).comp view).bind fun values => ?_
      refine (Keeps.update fun s => ?_).bind fun _ => .pure _
      refine Bindings.view_insertAll (fun b => view (b, s.depth)) (fun pair hp b => ?_) _
      exact hv pair.1 (List.of_mem_zip hp).1 b pair.2 s.depth
    | declareGlobal name value =>
      exact ((he value).comp view).bind fun _ => (Keeps.trace (fun _ _ => rfl) _ _).bind fun _ =>
        (Keeps.setGlobal (fun _ _ => rfl) name _).bind fun _ => .pure _
    | promote name =>
      exact (Keeps.getLocal name).bind fun _ => (Keeps.trace (fun _ _ => rfl) _ _).bind fun _ =>
        (Keeps.setGlobal (fun _ _ => rfl) name _).bind fun _ => .pure _
    | assignIndex name indices value =>
      exact ((Keeps.evaluateAll he indices).comp view).bind fun _ =>
        ((he value).comp view).bind fun _ =>
          (Keeps.writePath (fun _ _ => rfl) name _ _).bind fun _ => .pure _
    | append container value =>
      exact ((he container).comp view).bind fun _ => (Keeps.target container _).bind fun _ =>
        ((he value).comp view).bind fun _ =>
          (Keeps.appendTo (fun _ _ => rfl) _ _).bind fun _ => .pure _
    | remove container value =>
      exact ((he container).comp view).bind fun _ => (Keeps.target container _).bind fun _ =>
        ((he value).comp view).bind fun _ =>
          (Keeps.removeFrom (fun _ _ => rfl) _ _ _).bind fun _ => .pure _
    | increment name direction =>
      refine Keeps.bind ?_ fun _ => .pure _
      refine (Keeps.getLocal name).bind fun current => ?_
      split
      · exact .fail _
      · exact (Keeps.applyBinary (fun _ _ => rfl) _ _ _).bind fun v =>
          .update fun s => hv name (by simp [Stmt.targets]) _ v _
    | compound name op value =>
      exact (Keeps.getLocal name).bind fun _ => ((he value).comp view).bind fun _ =>
        (Keeps.compoundValue (fun _ _ => rfl) op _ _).bind fun v =>
          (Keeps.update fun s => hv name (by simp [Stmt.targets]) _ v _).bind fun _ => .pure _
    | expression e => exact ((he e).comp view).bind fun _ => .pure _

/-- The induction on the levels: what one level more keeps follows from what this level keeps. -/
theorem keeps_scope (settings : Settings) (levels : Nat) :
    (∀ e, Keeps Session.scope (evaluate settings levels e)) ∧
      ∀ stmt frame, Keeps (·.depth) (execute settings levels stmt frame) := by
  induction levels with
  | zero =>
    constructor
    · intro e
      unfold evaluate
      exact .never
    · intro stmt frame
      unfold execute
      exact .never
  | succ levels ih =>
    obtain ⟨he, hs⟩ := ih
    refine ⟨keeps_scope_evaluate_succ he hs, fun stmt frame => ?_⟩
    -- the depth is a view of the scope that sees no binding at all
    exact keeps_execute_succ he hs Prod.snd (fun _ _ _ _ _ => rfl) frame

/-- Every view of the scope that does not see the targets of a statement is kept by it. -/
theorem keeps_execute (settings : Settings) (levels : Nat) (view : Bindings Value × Nat → γ)
    (stmt : Stmt)
    (hv : ∀ x ∈ stmt.targets, ∀ b v depth, view (b.insert x v, depth) = view (b, depth))
    (frame : Frame) : Keeps (fun s => view s.scope) (execute settings levels stmt frame) := by
  cases levels with
  | zero =>
    unfold execute
    exact .never
  | succ levels =>
    obtain ⟨he, hs⟩ := keeps_scope settings levels
    exact keeps_execute_succ he hs view hv frame

/-- Running a program leaves the depth as it was. -/
theorem keeps_depth_run (settings : Settings) (levels : Nat) (program : Block) :
    Keeps (·.depth) (run settings levels program) := by
  intro s r t h
  have hblock := Keeps.executeAll (keeps_scope settings levels).2 program .program none
  unfold run at h
  split at h
  · exact absurd h (by simp)
  · next hu => exact (Keeps.flush.bind (fun _ => .pure _) h).trans (hblock hu)
  · next hu => exact (Keeps.flush.bind (fun _ => .pure _) h).trans (hblock hu)
  · next hu =>
    simp only [Option.some.injEq, Prod.mk.injEq] at h
    rw [← h.2, hblock hu]

end Eval

open Eval in
/-- **Scope restoration.** However it ends, evaluating an expression leaves the local bindings and
    the depth as they were; executing a statement leaves the depth, and every local name that the
    statement does not itself assign to, as they were, and all local bindings if it assigns to none;
    and a run leaves the depth as it was. -/
theorem scope_restored (settings : Settings) (levels : Nat) :
    (∀ e, Keeps (·.locals) (evaluate settings levels e) ∧
      Keeps (·.depth) (evaluate settings levels e)) ∧
    (∀ stmt frame, Keeps (·.depth) (execute settings levels stmt frame) ∧
      (∀ x ∉ stmt.targets, Keeps (·.locals.get? x) (execute settings levels stmt frame)) ∧
      (stmt.targets = [] → Keeps (·.locals) (execute settings levels stmt frame))) ∧
    ∀ program, Keeps (·.depth) (run settings levels program) := by
  obtain ⟨he, hs⟩ := keeps_scope settings levels
  refine ⟨fun e => ⟨(he e).locals_of_scope, (he e).depth_of_scope⟩,
    fun stmt frame => ⟨hs stmt frame, ?_, ?_⟩, keeps_depth_run settings levels⟩
  · intro x hx
    refine keeps_execute settings levels (fun scope => scope.1.get? x) stmt ?_ frame
    intro y hy b v depth
    exact Bindings.get?_insert_of_ne b v fun heq => hx (heq ▸ hy)
  · intro hnone
    refine keeps_execute settings levels (fun scope => scope.1) stmt ?_ frame
    intro y hy
    exact absurd hy (by simp [hnone])

open Eval in
/-- A branch around an assignment restores all bindings, and the assignment alone all but one. -/
theorem scope_restored_branch_assign :
    (Stmt.branch (.int 1) [.assign "a" (.int 2)] []).targets = [] ∧
      Keeps (·.locals) (execute {} 4 (.branch (.int 1) [.assign "a" (.int 2)] []) .program) ∧
      "b" ∉ (Stmt.assign "a" (.int 2)).targets ∧
      Keeps (·.locals.get? "b") (execute {} 4 (.assign "a" (.int 2)) .program) := by
  have hother : "b" ∉ (Stmt.assign "a" (.int 2)).targets := by decide
  obtain ⟨-, hstmt, -⟩ := scope_restored {} 4
  exact ⟨rfl, (hstmt _ .program).2.2 rfl, hother, (hstmt _ .program).2.1 "b" hother⟩

end Scriptlet
