import Mathlib.Order.Basic
import Scriptlet.Proofs.Trail

set_option autoImplicit false

/-! # Behind a `return`

A `return` decides the result of its activation and ends it, but for one thing: the `for` loops
around it go on testing their conditions and executing their steps, with bodies that are passed
over, until their conditions do not hold. This is so as long as no `return` stands in the header
clauses of a `for`; there it would not stop the activation, or its value would be dropped.

The invariant is `Settled`. A statement either leaves control where it is and completes no `return`,
or it completes exactly one, yields its value, and leaves control behind it; then every loop and
block around it hands this value up. A `while` ends there because its body has yielded a value, and
a `for` goes on with that value, which no later round replaces. `settled_record` is the walk over
statements, and `call_result_of_return` its consequence for calls. -/

namespace Scriptlet

open Eval

/-! ## Where a `return` stands -/

mutual

/-- No `return` stands in the init or the step of a `for`, at any nesting; `inClause` says whether
    the statement itself stands in one. The bodies of function definitions do not count. -/
def Stmt.returnsOutsideClauses (inClause : Bool) : Stmt → Bool
  | .return_ _ => !inClause
  | .branch _ thenBlock elseBlock =>
    Block.returnsOutsideClauses inClause thenBlock &&
      Block.returnsOutsideClauses inClause elseBlock
  | .whileLoop _ body => Block.returnsOutsideClauses inClause body
  | .forLoop init _ step body =>
    Stmt.returnsOutsideClauses true init && Stmt.returnsOutsideClauses true step &&
      Block.returnsOutsideClauses inClause body
  | _ => true

/-- No statement of the block has a `return` in the init or the step of a `for`. -/
def Block.returnsOutsideClauses (inClause : Bool) : Block → Bool
  | [] => true
  | stmt :: rest =>
    Stmt.returnsOutsideClauses inClause stmt && Block.returnsOutsideClauses inClause rest

end

namespace Event

/-- The event is a test of the condition of the `for` at the path, or takes place in its step. -/
def InHeader (loop : List Site) (e : Event) : Prop :=
  ∃ round, e.path = loop ++ [.forCondition round] ∨
    ∃ inner, e.path = loop ++ .forStep round :: inner

/-- The event is in the header of a `for` that has the other event in its body. -/
def InHeaderAround (r e : Event) : Prop :=
  ∃ loop round inner, r.path = loop ++ .forBody round :: inner ∧ e.InHeader loop

theorem InHeader.under {loop : List Site} {e : Event} (h : e.InHeader loop) (site : Site) :
    (e.under site).InHeader (site :: loop) := by
  obtain ⟨round, htest | ⟨inner, hstep⟩⟩ := h
  · exact ⟨round, .inl (congrArg (site :: ·) htest)⟩
  · exact ⟨round, .inr ⟨inner, congrArg (site :: ·) hstep⟩⟩

theorem forall_inHeader_step (es : Trail) (round : Nat) :
    ∀ e ∈ es.map (Event.under (.forStep round)), e.InHeader [] :=
  List.forall_mem_map.2 fun e _ => ⟨round, .inr ⟨e.path, rfl⟩⟩

theorem InHeaderAround.under {r e : Event} (h : r.InHeaderAround e) (site : Site) :
    (r.under site).InHeaderAround (e.under site) := by
  obtain ⟨loop, round, inner, hpath, hheader⟩ := h
  exact ⟨site :: loop, round, inner, congrArg (site :: ·) hpath, hheader.under site⟩

end Event

/-! ## Trails with one `return` -/

/-- No `return` completes. -/
def NoReturn (es : Trail) : Prop :=
  ∀ e ∈ es, e.returned = none

/-- Exactly one `return` completes, with the value `v`, and behind it there are only events in the
    headers of the `for` loops around it. -/
def ReturnsOnce (v : Value) (es : Trail) : Prop :=
  ∃ before r after, es = before ++ r :: after ∧ r.returned = some v ∧ NoReturn (before ++ after) ∧
    ∀ e ∈ after, r.InHeaderAround e

namespace NoReturn

variable {a b es : Trail}

theorem nil : NoReturn [] :=
  List.forall_mem_nil _

theorem append (ha : NoReturn a) (hb : NoReturn b) : NoReturn (a ++ b) :=
  List.forall_mem_append.2 ⟨ha, hb⟩

theorem test (h : NoReturn es) (path : List Site) (start : Session) (condition : Expr)
    (holds : Bool) : NoReturn (⟨path, start, .test condition holds⟩ :: es) :=
  List.forall_mem_cons.2 ⟨rfl, h⟩

theorem under (h : NoReturn es) (site : Site) : NoReturn (es.map (.under site)) :=
  List.forall_mem_map.2 h

end NoReturn

namespace ReturnsOnce

variable {v : Value} {es more : Trail}

theorem singleton {e : Event} (h : e.returned = some v) : ReturnsOnce v [e] :=
  ⟨[], e, [], rfl, h, .nil, List.forall_mem_nil _⟩

theorem behind (h : ReturnsOnce v es) (hmore : NoReturn more) : ReturnsOnce v (more ++ es) := by
  obtain ⟨before, r, after, rfl, hr, hno, hafter⟩ := h
  refine ⟨more ++ before, r, after, (List.append_assoc ..).symm, hr, ?_, hafter⟩
  rw [List.append_assoc]
  exact hmore.append hno

theorem under (h : ReturnsOnce v es) (site : Site) : ReturnsOnce v (es.map (.under site)) := by
  obtain ⟨before, r, after, rfl, hr, hno, hafter⟩ := h
  refine ⟨before.map (.under site), r.under site, after.map (.under site), by simp, hr, ?_, ?_⟩
  · rw [← List.map_append]
    exact hno.under site
  · exact List.forall_mem_map.2 fun e he => (hafter e he).under site

/-- The rounds of a `for` behind the one with the `return`. -/
theorem forBody (h : ReturnsOnce v es) (round : Nat) (hmore : NoReturn more)
    (hheader : ∀ e ∈ more, e.InHeader []) :
    ReturnsOnce v (es.map (.under (.forBody round)) ++ more) := by
  obtain ⟨before, r, after, heq, hr, hno, hafter⟩ := h.under (.forBody round)
  have hinside : ∃ inner, r.path = .forBody round :: inner := by
    have hmem : r ∈ es.map (.under (.forBody round)) := by simp [heq]
    obtain ⟨r', -, rfl⟩ := List.mem_map.1 hmem
    exact ⟨r'.path, rfl⟩
  obtain ⟨inner, hpath⟩ := hinside
  refine ⟨before, r, after ++ more, by simp [heq], hr, ?_, ?_⟩
  · rw [← List.append_assoc]
    exact hno.append hmore
  · refine List.forall_mem_append.2 ⟨hafter, fun e he => ?_⟩
    exact ⟨[], round, inner, hpath, hheader e he⟩

end ReturnsOnce

/-! ## The invariant -/

/-- Either no `return` completes and control stays where it is, or one does, and its value is what
    is yielded. The latter is not possible inside a header clause. -/
def Settled (inClause : Bool) (frame : Frame) (r : Yield × Trail) : Prop :=
  r.1.2 = frame ∧ NoReturn r.2 ∨
    inClause = false ∧ ∃ v, r.1 = (some v, .function true) ∧ ReturnsOnce v r.2

namespace Settled

variable {inClause : Bool} {frame : Frame} {r : Yield × Trail}

theorem of_inClause (h : Settled true frame r) : r.1.2 = frame ∧ NoReturn r.2 := by
  rcases h with h | ⟨h, -⟩
  · exact h
  · exact absurd h (by simp)

theorem behind (h : Settled inClause frame r) {more : Trail} (hmore : NoReturn more) :
    Settled inClause frame (r.1, more ++ r.2) := by
  rcases h with ⟨hframe, hno⟩ | ⟨hclause, v, hy, honce⟩
  · exact .inl ⟨hframe, hmore.append hno⟩
  · exact .inr ⟨hclause, v, hy, honce.behind hmore⟩

theorem test (h : Settled inClause frame r) (path : List Site) (start : Session)
    (condition : Expr) (holds : Bool) :
    Settled inClause frame (r.1, ⟨path, start, .test condition holds⟩ :: r.2) :=
  h.behind (.test .nil path start condition holds)

theorem under (h : Settled inClause frame r) (site : Site) :
    Settled inClause frame (r.1, r.2.map (.under site)) := by
  rcases h with ⟨hframe, hno⟩ | ⟨hclause, v, hy, honce⟩
  · exact .inl ⟨hframe, hno.under site⟩
  · exact .inr ⟨hclause, v, hy, honce.under site⟩

end Settled

namespace Eval

variable {record : Stmt → Frame → Eval (Yield × Trail)} {condition : Expr} {test : Eval Bool}
  {body step : Frame → Eval (Yield × Trail)} {inClause : Bool}

/-- Behind a `return`, a block evaluates nothing. -/
theorem recordAll_returned
    (hpass : ∀ stmt, Ensures (· = ((none, .function true), [])) (record stmt (.function true)))
    (block : Block) (index : Nat) (last : Option Value) :
    Ensures (· = ((last, .function true), []))
      (recordAll record block index (.function true) last) := by
  induction block generalizing index with
  | nil => exact .pure rfl
  | cons stmt rest ih =>
    refine (hpass stmt).bind fun first hfirst => ?_
    subst hfirst
    refine (ih _).bind fun more hmore => .pure ?_
    subst hmore
    rfl

theorem settled_recordAll
    (hpass : ∀ stmt, Ensures (· = ((none, .function true), [])) (record stmt (.function true)))
    (h : ∀ stmt, stmt.returnsOutsideClauses inClause = true → ∀ frame,
      Ensures (Settled inClause frame) (record stmt frame))
    {block : Block} (hblock : block.returnsOutsideClauses inClause = true) (index : Nat)
    (frame : Frame) (last : Option Value) :
    Ensures (Settled inClause frame) (recordAll record block index frame last) := by
  induction block generalizing index frame last with
  | nil => exact .pure (.inl ⟨rfl, .nil⟩)
  | cons stmt rest ih =>
    rw [Block.returnsOutsideClauses, Bool.and_eq_true] at hblock
    refine (h stmt hblock.1 frame).bind fun first hfirst => ?_
    obtain ⟨⟨y, frame'⟩, es⟩ := first
    rcases hfirst with ⟨hframe, hno⟩ | ⟨hclause, v, hy, honce⟩
    · obtain rfl : frame' = frame := hframe
      exact (ih hblock.2 _ _ _).bind fun more hmore => .pure (hmore.behind (hno.under _))
    · obtain ⟨rfl, rfl⟩ := Prod.mk.inj hy
      refine (recordAll_returned hpass rest _ _).bind fun more hmore => .pure ?_
      subst hmore
      refine .inr ⟨hclause, v, rfl, ?_⟩
      rw [List.append_nil]
      exact honce.under _

theorem settled_recordWhile (h : ∀ frame, Ensures (Settled inClause frame) (body frame))
    (rounds round : Nat) (frame : Frame) :
    Ensures (Settled inClause frame) (recordWhile condition test body rounds round frame) := by
  induction rounds generalizing round frame with
  | zero => exact .never
  | succ rounds ih =>
    refine .after fun start => .after fun holds => ?_
    cases holds with
    | false => exact .pure (.inl ⟨rfl, .test .nil _ _ _ _⟩)
    | true =>
      refine (h frame).bind fun first hfirst => ?_
      obtain ⟨⟨_ | v, frame'⟩, es⟩ := first
      · -- no value, so no `return`: the loop goes on
        rcases hfirst with ⟨hframe, hno⟩ | ⟨-, v, hy, -⟩
        · obtain rfl : frame' = frame := hframe
          refine (ih _ _).bind fun more hmore => .pure ?_
          exact (hmore.behind (hno.under _)).test _ _ _ _
        · exact absurd hy (by simp)
      · exact .pure ((hfirst.under _).test _ _ _ _)

/-- Behind a `return`, a `for` tests its condition and executes its step, and keeps its value. -/
theorem recordFor_returned
    (hpass : Ensures (· = ((none, .function true), [])) (body (.function true)))
    (hstep : ∀ frame, Ensures (Settled true frame) (step frame)) (rounds round : Nat)
    (last : Option Value) :
    Ensures (fun r => r.1 = (last, .function true) ∧ NoReturn r.2 ∧ ∀ e ∈ r.2, e.InHeader [])
      (recordFor condition test body step rounds round (.function true) last) := by
  induction rounds generalizing round with
  | zero => exact .never
  | succ rounds ih =>
    refine .after fun start => .after fun holds => ?_
    cases holds with
    | false =>
      refine .pure ⟨rfl, .test .nil _ _ _ _, ?_⟩
      exact List.forall_mem_singleton.2 ⟨round, .inl rfl⟩
    | true =>
      refine hpass.bind fun first hfirst => ?_
      subst hfirst
      refine (hstep _).bind fun stepped hstepped => (ih _).bind fun more hmore => .pure ?_
      obtain ⟨hlast, hno, hheader⟩ := hmore
      rw [List.map_nil, List.nil_append]
      refine ⟨hlast, ((hstepped.of_inClause.2.under _).append hno).test _ _ _ _, ?_⟩
      refine List.forall_mem_cons.2 ⟨⟨round, .inl rfl⟩, ?_⟩
      exact List.forall_mem_append.2 ⟨Event.forall_inHeader_step _ round, hheader⟩

theorem settled_recordFor
    (hpass : Ensures (· = ((none, .function true), [])) (body (.function true)))
    (h : ∀ frame, Ensures (Settled inClause frame) (body frame))
    (hstep : ∀ frame, Ensures (Settled true frame) (step frame)) (rounds round : Nat)
    (frame : Frame) (last : Option Value) :
    Ensures (Settled inClause frame)
      (recordFor condition test body step rounds round frame last) := by
  induction rounds generalizing round frame last with
  | zero => exact .never
  | succ rounds ih =>
    refine .after fun start => .after fun holds => ?_
    cases holds with
    | false => exact .pure (.inl ⟨rfl, .test .nil _ _ _ _⟩)
    | true =>
      refine (h frame).bind fun first hfirst => (hstep _).bind fun stepped hstepped => ?_
      have hsteps := hstepped.of_inClause.2.under (.forStep round)
      obtain ⟨⟨y, frame'⟩, es⟩ := first
      rcases hfirst with ⟨hframe, hno⟩ | ⟨hclause, v, hy, honce⟩
      · obtain rfl : frame' = frame := hframe
        refine (ih _ _ _).bind fun more hmore => .pure ?_
        exact ((hmore.behind hsteps).behind (hno.under _)).test _ _ _ _
      · obtain ⟨rfl, rfl⟩ := Prod.mk.inj hy
        refine (recordFor_returned hpass hstep _ _ _).bind fun more hmore => .pure ?_
        obtain ⟨hlast, hmore, hheader⟩ := hmore
        have honce := honce.forBody round (hsteps.append hmore)
          (List.forall_mem_append.2 ⟨Event.forall_inHeader_step _ round, hheader⟩)
        exact .inr ⟨hclause, v, hlast, honce.behind (.test .nil _ _ _ _)⟩

end Eval

section Statements

variable {settings : Settings} {n : Nat} {frame : Frame} {inClause : Bool}

/-- A `return` inside a function yields the value of its operand. -/
theorem record_return_function (settings : Settings) (n : Nat) (value : Expr) :
    record settings (n + 1) (.return_ value) (.function false) = do
      let start ← read id
      let v ← evaluate settings n value
      return ((some v, .function true), [⟨[], start, .statement (.return_ value) (some v)⟩]) := by
  rw [record_simple (by simp) rfl, execute_return_function]
  simp only [bind_assoc, pure_bind]

theorem passes_record (settings : Settings) (n : Nat) (stmt : Stmt) :
    Ensures (· = ((none, .function true), [])) (record settings n stmt (.function true)) := by
  cases n with
  | zero =>
    rw [record_zero]
    exact .never
  | succ n =>
    rw [record_returned]
    exact .pure rfl

theorem settled_simple {stmt : Stmt} (hframe : frame ≠ .function true)
    (hstmt : stmt.isSimple = true) (hreturns : stmt.returnsOutsideClauses inClause = true) :
    Ensures (Settled inClause frame) (record settings (n + 1) stmt frame) := by
  by_cases hplain : stmt.isPlain = true
  · rw [record_simple hframe hstmt]
    refine .after fun start => (ensures_of_isPlain hplain).bind fun y hy => .pure ?_
    refine .inl ⟨congrArg Prod.snd hy, List.forall_mem_singleton.2 ?_⟩
    cases stmt with
    | return_ => exact absurd hplain (by simp [Stmt.isPlain])
    | _ => rfl
  · cases stmt with
    | return_ value =>
      cases frame with
      | program =>
        rw [record_simple hframe hstmt, execute_return_program]
        exact .after fun _ => (Ensures.fail (P := fun _ => False) _).bind fun _ h => h.elim
      | function returned =>
        obtain rfl : returned = false := by simpa using hframe
        rw [record_return_function]
        refine .after fun start => .after fun v => .pure (.inr ⟨?_, v, rfl, .singleton rfl⟩)
        simpa [Stmt.returnsOutsideClauses] using hreturns
    | call f arguments =>
      rw [record_simple hframe hstmt, execute_call hframe]
      refine .after fun start => ?_
      rw [bind_assoc]
      exact .after fun yielded => .pure (.inl ⟨rfl, List.forall_mem_singleton.2 rfl⟩)
    | branch | whileLoop | forLoop => exact absurd hstmt (by simp [Stmt.isSimple])
    | _ => exact absurd rfl hplain

/-- **A `return` settles a statement.** -/
theorem settled_record {stmt : Stmt} (hreturns : stmt.returnsOutsideClauses inClause = true)
    (frame : Frame) : Ensures (Settled inClause frame) (record settings n stmt frame) := by
  induction n generalizing stmt frame inClause with
  | zero =>
    rw [record_zero]
    exact .never
  | succ n ih =>
    have hpass (block : Block) : Ensures (· = ((none, .function true), []))
        (recordBlock settings n block (.function true)) :=
      recordAll_returned (passes_record settings n) block 0 none
    have hblock {inClause : Bool} {block : Block}
        (h : block.returnsOutsideClauses inClause = true) (frame : Frame) :
        Ensures (Settled inClause frame) (recordBlock settings n block frame) :=
      settled_recordAll (passes_record settings n) (fun _ => ih) h 0 frame none
    by_cases hframe : frame = .function true
    · subst hframe
      rw [record_returned]
      exact .pure (.inl ⟨rfl, .nil⟩)
    · cases stmt with
      | branch condition thenBlock elseBlock =>
        rw [Stmt.returnsOutsideClauses, Bool.and_eq_true] at hreturns
        rw [record_branch hframe]
        refine .rollback (.after fun start => .after fun holds => ?_)
        have hchosen : Ensures (Settled inClause frame)
            (recordBlock settings n (if holds then thenBlock else elseBlock) frame) := by
          cases holds with
          | true => exact hblock hreturns.1 frame
          | false => exact hblock hreturns.2 frame
        exact hchosen.bind fun r hr => .pure ((hr.under _).test _ _ _ _)
      | whileLoop condition body =>
        rw [Stmt.returnsOutsideClauses] at hreturns
        rw [record_whileLoop hframe]
        exact .rollback (settled_recordWhile (hblock hreturns) n 0 frame)
      | forLoop init condition step body =>
        rw [Stmt.returnsOutsideClauses, Bool.and_eq_true, Bool.and_eq_true] at hreturns
        obtain ⟨⟨hinit, hstep⟩, hbody⟩ := hreturns
        rw [record_forLoop hframe]
        refine .rollback ((ih hinit frame).bind fun started hstarted => ?_)
        obtain ⟨hkept, hnone⟩ := hstarted.of_inClause
        rw [hkept]
        refine (settled_recordFor (hpass body) (hblock hbody) (ih hstep) n 0 frame none).bind ?_
        exact fun r hr => .pure (hr.behind (hnone.under _))
      | _ => exact settled_simple hframe rfl hreturns

theorem settled_recordBlock {block : Block}
    (hreturns : block.returnsOutsideClauses inClause = true) (frame : Frame) :
    Ensures (Settled inClause frame) (recordBlock settings n block frame) :=
  settled_recordAll (passes_record settings n) (fun _ => settled_record) hreturns 0 frame none

end Statements

/-! ## Calls -/

/-- A `return` ends without an error only if its operand does, and yields the value of that. -/
theorem exists_evaluate_of_return {settings : Settings} {levels : Nat} {operand : Expr}
    {frame frame' : Frame} {s t : Session} {v : Value} (hframe : frame ≠ .function true)
    (h : execute settings levels (.return_ operand) frame s = some (.ok (some v, frame'), t)) :
    ∃ u, Ends (fun levels => evaluate settings levels operand) s (.ok v) u := by
  cases levels with
  | zero => exact absurd h (by simp [execute_zero, never])
  | succ n =>
    cases frame with
    | program => exact absurd h (by simp [execute_return_program, fail])
    | function returned =>
      obtain rfl : returned = false := by simpa using hframe
      rw [execute_return_function] at h
      obtain ⟨w, u, heval, hpure⟩ := bind_eq_ok_iff.1 h
      have hy := (pure_eq_some_iff.1 hpure).1
      simp only [Except.ok.injEq, Prod.mk.injEq, Option.some.injEq] at hy
      obtain ⟨rfl, -⟩ := hy
      exact ⟨u, n, heval⟩

/-- The value of a `return` that completed is that of its operand. -/
theorem Event.Happens.exists_operand {settings : Settings} {e : Event} {v : Value}
    (h : e.Happens settings) (hreturned : e.returned = some v) :
    ∃ operand t, e.act = .statement (.return_ operand) (some v) ∧
      Ends (fun levels => evaluate settings levels operand) e.start (.ok v) t := by
  obtain ⟨path, start, act⟩ := e
  rcases act with _ | ⟨stmt, yielded⟩
  · exact absurd hreturned (by simp [Event.returned])
  · cases stmt with
    | return_ operand =>
      obtain rfl : yielded = some v := hreturned
      obtain ⟨frame, frame', t, hframe, levels, hexec⟩ := h
      obtain ⟨u, heval⟩ := exists_evaluate_of_return hframe hexec
      exact ⟨operand, u, rfl, heval⟩
    | _ => exact absurd hreturned (by simp [Event.returned])

section Calls

variable {settings : Settings} {n : Nat} {name : String} {arguments : List Expr} {s t : Session}

/-- **A `return` decides the result of its call and ends it.** Suppose that a function has no
    `return` in the header clauses of `for` loops and that a call of it ends without an error. If
    a `return` of its body has completed, it is the only one, the result of the call is the value
    of its operand, and what the activation evaluates behind it are conditions and steps of the
    `for` loops around it. -/
theorem call_result_of_return {f : Function} {result : Option Value}
    (hdefined : s.functions.get? name = some f)
    (hreturns : f.body.returnsOutsideClauses false = true)
    (hcall : invoke settings (evaluate settings n) (execute settings n) name arguments s =
      some (.ok result, t)) :
    ∃ s₁ frame es u, Enters settings n name arguments s f s₁ ∧
      recordBlock settings n f.body (.function false) s₁ = some (.ok ((result, frame), es), u) ∧
      ∀ r ∈ es, r.returned ≠ none → ∃ before after operand v w,
        es = before ++ r :: after ∧ NoReturn (before ++ after) ∧
        (∀ e ∈ after, r.InHeaderAround e) ∧
        r.act = .statement (.return_ operand) (some v) ∧
        Ends (fun levels => evaluate settings levels operand) r.start (.ok v) w ∧
        result = some v := by
  obtain ⟨f', s₁, frame, u, henters, hbody⟩ := exists_invoke_eq_ok_iff.1 ⟨t, hcall⟩
  obtain rfl : f' = f := Option.some.inj (henters.defined.symm.trans hdefined)
  obtain ⟨es, hrecord⟩ := exists_recordBlock hbody
  refine ⟨s₁, frame, es, u, henters, hrecord, fun r hr hreturned => ?_⟩
  rcases settled_recordBlock hreturns _ hrecord with ⟨-, hno⟩ | ⟨-, v, hresult, honce⟩
  · exact absurd (hno r hr) hreturned
  · obtain ⟨before, r', after, rfl, hv, hno, hafter⟩ := honce
    -- any other event is not a `return`
    obtain rfl : r = r' := by
      rcases List.mem_append.1 hr with hbefore | hmem
      · exact absurd (hno r (List.mem_append_left _ hbefore)) hreturned
      · rcases List.mem_cons.1 hmem with heq | hafter
        · exact heq
        · exact absurd (hno r (List.mem_append_right _ hafter)) hreturned
    have hhappens := genuine_recordBlock _ _ _ _ hrecord r hr
    obtain ⟨operand, w, hact, hoperand⟩ := hhappens.exists_operand hv
    exact ⟨before, after, operand, v, w, rfl, hno, hafter, hact, hoperand,
      congrArg Prod.fst hresult⟩

end Calls

/-- A function that calls `g` and then returns from a branch in a `while` in a `for`, which would
    have gone through two rounds. -/
def returningInLoops : Function where
  parameters := []
  body := [
    .forLoop (.assign "i" (.int 2)) (.name "i") (.increment "i" .down)
      [.call "g" [], .whileLoop (.int 1) [.branch (.name "i") [.return_ (.int 7)] []]],
    .call "g" []]

/-- A session with this function as `f`, and a function `g` that returns one. -/
def sessionWithLoops : Session where
  functions := ({} : Bindings Function).insert "g" ⟨[], [.return_ (.int 1)]⟩
    |>.insert "f" returningInLoops

/-- The result is seven, whatever `g` returned before; what is evaluated behind the `return` is the
    step and the condition of the `for`, twice each. -/
theorem call_result_of_return_in_loops :
    ∃ frame es u, recordBlock {} 8 returningInLoops.body (.function false)
        (sessionWithLoops.entered {} "f" returningInLoops []) =
          some (.ok ((some (.int 7), frame), es), u) ∧
      es.map Event.returned =
        [none, none, none, none, none, some (.int 7), none, none, none, none] ∧
      ∃ before r after, es = before ++ r :: after ∧ r.returned = some (.int 7) ∧
        NoReturn (before ++ after) ∧ ∀ e ∈ after, r.InHeaderAround e := by
  have hresult : (invoke {} (evaluate {} 8) (execute {} 8) "f" [] sessionWithLoops).map Prod.fst =
      some (.ok (some (.int 7))) := by decide +kernel
  obtain ⟨⟨_, t⟩, hcall, rfl⟩ := Option.map_eq_some_iff.1 hresult
  obtain ⟨s₁, frame, es, u, henters, hrecord, hreturn⟩ := call_result_of_return rfl rfl hcall
  obtain ⟨values, s₀, hvalues, -, rfl⟩ := henters.evaluated
  obtain ⟨rfl, rfl⟩ : values = [] ∧ s₀ = sessionWithLoops := by
    simpa using pure_eq_some_iff.1 hvalues
  have hreturned : es.map Event.returned =
      [none, none, none, none, none, some (.int 7), none, none, none, none] := by
    have hmap := congrArg (Option.map fun x => x.1.map fun y => y.2.map Event.returned) hrecord
    have heval : ((recordBlock {} 8 returningInLoops.body (.function false)
        (sessionWithLoops.entered {} "f" returningInLoops [])).map
          fun x => x.1.map fun y => y.2.map Event.returned) =
        some (.ok [none, none, none, none, none, some (.int 7), none, none, none, none]) := by
      decide +kernel
    simpa [Except.map] using hmap.symm.trans heval
  refine ⟨frame, es, u, hrecord, hreturned, ?_⟩
  have hmem : some (.int 7) ∈ es.map Event.returned := by simp [hreturned]
  obtain ⟨r, hr, hseven⟩ := List.mem_map.1 hmem
  obtain ⟨before, after, -, -, -, heq, hno, hafter, -⟩ := hreturn r hr (by simp [hseven])
  exact ⟨before, r, after, heq, hseven, hno, hafter⟩

end Scriptlet
