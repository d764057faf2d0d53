import Scriptlet.Proofs.FailedUpdates
import Scriptlet.Proofs.PathAccess

set_option autoImplicit false

/-! # Arrays are made once and for all

A heap only grows. An array that has been made is there after everything that runs, whatever
becomes of its elements (`preserves_made`). Most actions keep the number of arrays, and so do all
changes of an array; the others are those which make a new one. -/

namespace Scriptlet

/-- The array has been made. -/
def Session.Made (a : Handle) (s : Session) : Prop :=
  a.index < s.heap.cells.size

variable {a : Handle}

/-- A heap with more arrays. -/
theorem Session.Made.extend {s : Session} (hs : s.Made a) {heap : Heap}
    (hheap : s.heap.Extends heap) : Session.Made a { s with heap } :=
  Nat.lt_of_lt_of_le hs hheap.size_le

/-- Writing into an array makes none. -/
theorem Heap.size_write? {heap heap' : Heap} {h : Handle} {v : Value} {path : List Value}
    (hwrite : heap.write? h v path = some heap') : heap'.cells.size = heap.cells.size := by
  induction path generalizing h with
  | nil => simp [write?] at hwrite
  | cons index path ih =>
    cases path with
    | nil =>
      obtain ⟨place, -, rfl⟩ := Option.map_eq_some_iff.1 hwrite
      simp [modify]
    | cons next path =>
      unfold write? at hwrite
      split at hwrite
      · exact ih hwrite
      · exact absurd hwrite (by simp)

namespace Eval

variable {α : Type}

/-! ## Actions -/

/-- An action that keeps the number of arrays. -/
theorem made_of_keeps {x : Eval α} (h : Keeps (·.heap.cells.size) x) :
    Preserves (Session.Made a) x := by
  intro s r t hx hs
  have hsize : t.heap.cells.size = s.heap.cells.size := h hx
  show a.index < t.heap.cells.size
  rw [hsize]
  exact hs

theorem made_allocate (elements : List Value) : Preserves (Session.Made a) (allocate elements) := by
  intro s r t ht hs
  simp only [allocate, Heap.allocValue, Option.some.injEq, Prod.mk.injEq] at ht
  exact ht.2 ▸ Session.Made.extend hs (.alloc s.heap _)

theorem made_applyBinary (op : BinaryOp) (left right : Value) :
    Preserves (Session.Made a) (applyBinary op left right) := by
  intro s r t ht hs
  unfold applyBinary at ht
  split at ht
  · exact absurd ht (by simp)
  · simp only [Option.some.injEq, Prod.mk.injEq] at ht
    exact ht.2 ▸ hs
  · next v heap happly =>
    simp only [Option.some.injEq, Prod.mk.injEq] at ht
    exact ht.2 ▸ Session.Made.extend hs (.apply happly)

theorem made_writePath (name : String) (path : List Value) (v : Value) :
    Preserves (Session.Made a) (writePath name path v) := by
  have hwritten (h : Handle) : Secures (Session.Made a) (a.index < ·.cells.size)
      (find (·.heap.write? h v path) (pathFailure name h path)) := by
    refine .find fun s heap hs hwrite => ?_
    rw [Heap.size_write? hwrite]
    exact hs
  refine (Preserves.of_keeps (.arrayNamed name)).bind fun h => ?_
  refine Secures.preserves (P := fun _ => True) ((hwritten h).bind fun heap hheap => ?_)
  exact (Preserves.update fun s _ => hheap).secures

theorem made_appendTo (h : Handle) (v : Value) : Preserves (Session.Made a) (appendTo h v) :=
  made_of_keeps (.update fun s => by simp [Heap.push, Heap.modify])

theorem made_removeFrom (h : Handle) (label : String) (v : Value) :
    Preserves (Session.Made a) (removeFrom h label v) := by
  intro s r t ht hs
  unfold removeFrom at ht
  split at ht
  · exact absurd ht (by simp)
  · simp only [Option.some.injEq, Prod.mk.injEq] at ht
    exact ht.2 ▸ hs
  · simp only [Option.some.injEq, Prod.mk.injEq] at ht
    rw [← ht.2]
    simpa [Session.Made, Heap.modify] using hs

theorem made_compoundValue (op : Arithmetic) (current v : Value) :
    Preserves (Session.Made a) (compoundValue op current v) := by
  unfold compoundValue
  split
  · next h extra =>
    have hextended : Preserves (Session.Made a)
        (Eval.update fun s => { s with heap := s.heap.modify h (· ++ s.heap.elements extra) }) :=
      made_of_keeps (.update fun s => by simp [Heap.modify])
    exact hextended.bind fun _ => .pure _
  · exact made_applyBinary _ _ _

theorem made_stepLocal (name : String) (direction : Direction) :
    Preserves (Session.Made a) (stepLocal name direction) := by
  refine (Preserves.of_keeps (.getLocal name)).bind fun current => ?_
  split
  · exact .of_keeps (.fail _)
  · exact (made_applyBinary _ _ _).bind fun v => made_of_keeps (.update fun _ => rfl)

theorem made_rollback {x : Eval α} (hx : Preserves (Session.Made a) x) :
    Preserves (Session.Made a) (rollback x) := by
  intro s r t h hs
  obtain ⟨u, hu, rfl⟩ := rollback_eq_some_iff.1 h
  have hmade : u.Made a := hx hu hs
  exact hmade

theorem made_deeper (limit : Nat) {x : Eval α} (hx : Preserves (Session.Made a) x) :
    Preserves (Session.Made a) (deeper limit x) := by
  intro s r t h hs
  rcases deeper_eq_some h with ⟨-, -, rfl⟩ | ⟨u, hu, rfl⟩
  · exact hs
  · have hmade : u.Made a := hx hu hs
    exact hmade

/-! ## Expressions and statements -/

section Levels

variable {settings : Settings} {levels : Nat}
  (he : ∀ e, Preserves (Session.Made a) (evaluate settings levels e))
  (hs : ∀ stmt frame, Preserves (Session.Made a) (execute settings levels stmt frame))

include he hs

theorem made_invoke (name : String) (arguments : List Expr) :
    Preserves (Session.Made a)
      (invoke settings (evaluate settings levels) (execute settings levels) name arguments) := by
  have htrace (t : Session → Trace) : Preserves (Session.Made a) (trace settings t) :=
    made_of_keeps (.trace (fun _ _ => rfl) settings t)
  refine (Preserves.of_keeps (.find _ _)).bind fun f => ?_
  dsimp only
  split
  · exact .of_keeps (.fail _)
  · refine (Preserves.evaluateAll fun e _ => he e).bind fun values => .bind ?_ fun result => ?_
    · refine made_deeper _ (made_rollback ((htrace _).bind fun _ => ?_))
      refine Preserves.bind ?_ fun _ => ?_
      · exact made_of_keeps (.update fun _ => rfl)
      · exact (Preserves.executeAll (fun stmt _ frame => hs stmt frame) _ _).bind fun _ => .pure _
    · exact (htrace _).bind fun _ => .pure _

omit hs in
theorem made_evaluateText (code : String) :
    Preserves (Session.Made a) (evaluateText settings (evaluate settings levels) code) := by
  refine (made_of_keeps (.trace (fun _ _ => rfl) settings _)).bind fun _ => ?_
  cases settings.dynamic with
  | disabled => exact .of_keeps (.fail _)
  | stub answer => exact .of_keeps (.reply _)
  | expression =>
    refine (made_of_keeps (.report (fun _ _ => rfl) _)).bind fun _ => ?_
    split
    · exact .of_keeps (.fail _)
    · next e _ => exact made_deeper _ (he e)

theorem made_evaluate_succ (e : Expr) :
    Preserves (Session.Made a) (evaluate settings (levels + 1) e) := by
  unfold evaluate
  cases e with
  | int n => exact .pure _
  | text s => exact .pure _
  | name x => exact .of_keeps (.resolve x)
  | binary op left right =>
    exact (he left).bind fun _ => (he right).bind fun _ => made_applyBinary _ _ _
  | call f arguments =>
    refine (made_invoke he hs f arguments).bind fun yielded => ?_
    cases yielded with
    | none => exact .of_keeps (.fail _)
    | some v => exact .pure _
  | index x indices =>
    exact (Preserves.evaluateAll fun e _ => he e).bind fun _ => .of_keeps (.readPath x _)
  | array elements =>
    exact (Preserves.evaluateAll fun e _ => he e).bind fun _ => made_allocate _
  | eval operand =>
    refine (he operand).bind fun v => ?_
    cases v with
    | text code => exact made_evaluateText he code
    | _ => exact .of_keeps (.fail _)
  | id operand => exact (he operand).bind fun _ => .pure _

theorem made_execute_succ (stmt : Stmt) (frame : Frame) :
    Preserves (Session.Made a) (execute settings (levels + 1) stmt frame) := by
  have hcondition (condition : Expr) : Preserves (Session.Made a) (do
      truthy (← evaluate settings levels condition) : Eval Bool) :=
    (he condition).bind fun v => .of_keeps (.truthy v)
  have hblock (block : Block) (frame : Frame) : Preserves (Session.Made a)
      (executeAll (execute settings levels) block frame none) :=
    .executeAll (fun stmt _ frame => hs stmt frame) frame none
  have hall (es : List Expr) :
      Preserves (Session.Made a) (evaluateAll (evaluate settings levels) es) :=
    .evaluateAll fun e _ => he e
  have htrace (t : Session → Trace) : Preserves (Session.Made a) (trace settings t) :=
    made_of_keeps (.trace (fun _ _ => rfl) settings t)
  have hlocal (name : String) (v : Value) : Preserves (Session.Made a) (setLocal name v) :=
    made_of_keeps (.update fun _ => rfl)
  have hglobal (name : String) (v : Value) : Preserves (Session.Made a) (setGlobal name v) :=
    made_of_keeps (.setGlobal (fun _ _ => rfl) name v)
  unfold execute
  split
  · exact .pure _
  · cases stmt with
    | exit => exact (made_of_keeps (.writeLine (fun _ _ => rfl) _)).bind fun _ => .of_keeps (.fail _)
    | print arguments =>
      exact (hall arguments).bind fun _ =>
        (made_of_keeps (.writeValues (fun _ _ => rfl) _)).bind fun _ => .pure _
    | branch condition thenBlock elseBlock =>
      refine made_rollback ((he condition).bind fun v => ?_)
      refine (Preserves.of_keeps (.truthy v)).bind fun more => ?_
      cases more with
      | true => exact hblock thenBlock frame
      | false => exact hblock elseBlock frame
    | whileLoop condition body =>
      exact made_rollback (.whileRounds (hcondition condition) (hblock body) levels frame)
    | forLoop init condition step body =>
      refine made_rollback ((hs init frame).bind fun yielded => ?_)
      exact .forRounds (hcondition condition) (hblock body) (hs step) levels _ none
    | define name parameters body =>
      refine (htrace _).bind fun _ => Preserves.bind ?_ fun _ => .pure _
      exact made_of_keeps (.update fun _ => rfl)
    | return_ value =>
      cases frame with
      | program => exact .of_keeps (.fail _)
      | function returned => exact (he value).bind fun _ => .pure _
    | call f arguments => exact (made_invoke he hs f arguments).bind fun _ => .pure _
    | assign name value => exact (he value).bind fun v => (hlocal name v).bind fun _ => .pure _
    | assignAll names values =>
      refine (hall values).bind fun _ => Preserves.bind ?_ fun _ => .pure _
      exact made_of_keeps (.update fun _ => rfl)
    | declareGlobal name value =>
      exact (he value).bind fun v => (htrace _).bind fun _ =>
        (hglobal name v).bind fun _ => .pure _
    | promote name =>
      exact (Preserves.of_keeps (.getLocal name)).bind fun v => (htrace _).bind fun _ =>
        (hglobal name v).bind fun _ => .pure _
    | assignIndex name indices value =>
      exact (hall indices).bind fun _ => (he value).bind fun _ =>
        (made_writePath name _ _).bind fun _ => .pure _
    | append container value =>
      exact (he container).bind fun v => (Preserves.of_keeps (.target container v)).bind fun _ =>
        (he value).bind fun _ => (made_appendTo _ _).bind fun _ => .pure _
    | remove container value =>
      exact (he container).bind fun v => (Preserves.of_keeps (.target container v)).bind fun _ =>
        (he value).bind fun _ => (made_removeFrom _ _ _).bind fun _ => .pure _
    | increment name direction => exact (made_stepLocal name direction).bind fun _ => .pure _
    | compound name op value =>
      exact (Preserves.of_keeps (.getLocal name)).bind fun _ => (he value).bind fun _ =>
        (made_compoundValue op _ _).bind fun v => (hlocal name v).bind fun _ => .pure _
    | expression e => exact (he e).bind fun _ => .pure _

end Levels

/-- What has been made is there after every expression and every statement, however they end. -/
theorem preserves_made (settings : Settings) (a : Handle) (levels : Nat) :
    (∀ e, Preserves (Session.Made a) (evaluate settings levels e)) ∧
      ∀ stmt frame, Preserves (Session.Made a) (execute settings levels stmt frame) := by
  induction levels with
  | zero =>
    constructor
    · intro e
      unfold evaluate
      exact .of_keeps .never
    · intro stmt frame
      unfold execute
      exact .of_keeps .never
  | succ levels ih =>
    obtain ⟨he, hs⟩ := ih
    exact ⟨made_evaluate_succ he hs, made_execute_succ he hs⟩

end Eval

end Scriptlet
