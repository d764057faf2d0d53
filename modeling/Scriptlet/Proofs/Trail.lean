import Scriptlet.Proofs.Activation
import Scriptlet.Proofs.Levels

set_option autoImplicit false

/-! # The trail of an activation

What an activation evaluates itself, in order. `record` executes a statement as `execute` does and
writes down besides what is evaluated on the way: the conditions of branches and loops, and the
statements that are neither. Each event has a path that says where in the activation it happens,
with the rounds of the loops around it, and keeps the session from which on it happens. What is
written down changes nothing (`fst_record`) and is what happens (`genuine_record`); a statement that
is passed over leaves no event.

Only ends without an error have a trail. A call that ends without an error has one: it comes to the
body of its function in a session that is determined (`Enters`), and its result is what the body
yields there (`exists_invoke_eq_ok_iff`). -/

namespace Scriptlet

/-! ## Events -/

/-- One step of the way from an activation down to something that it evaluates. Statements of a
    block and rounds of a loop are numbered. -/
inductive Site where
  | item (index : Nat)
  | ifCondition
  | ifBlock
  | whileCondition (round : Nat)
  | whileBody (round : Nat)
  | forInit
  | forCondition (round : Nat)
  | forBody (round : Nat)
  | forStep (round : Nat)
deriving DecidableEq

/-- What an activation evaluates itself. -/
inductive Act where
  | test (condition : Expr) (holds : Bool)
  /-- A statement that is neither a branch nor a loop, and what it yielded. -/
  | statement (stmt : Stmt) (yielded : Option Value)

/-- Something evaluated: where in the activation, and from which session on. -/
structure Event where
  path : List Site
  start : Session
  act : Act

namespace Event

/-- The value of a `return` that completed. -/
def returned (e : Event) : Option Value :=
  match e.act with
  | .statement (.return_ _) yielded => yielded
  | _ => none

/-- The value of a call that stands as a statement. -/
def called (e : Event) : Option Value :=
  match e.act with
  | .statement (.call _ _) yielded => yielded
  | _ => none

/-- The value that an event has, if any. -/
def yielded (e : Event) : Option Value :=
  e.returned.or e.called

/-- The same event seen from one level further out. -/
def under (site : Site) (e : Event) : Event :=
  { e with path := site :: e.path }

@[simp]
theorem yielded_under (site : Site) (e : Event) : (e.under site).yielded = e.yielded := rfl

end Event

/-- The init and the step of a `for`. -/
def Site.isClause : Site → Bool
  | forInit | forStep _ => true
  | _ => false

/-- Whether the event happens in the init or the step of a `for`, at any nesting. -/
def Event.inClause (e : Event) : Bool :=
  e.path.any Site.isClause

@[simp]
theorem Event.inClause_under (site : Site) (e : Event) :
    (e.under site).inClause = (site.isClause || e.inClause) :=
  rfl

/-- Events in the order in which they happen. -/
abbrev Trail := List Event

namespace Eval

/-! ## Recording -/

/-- `executeAll` with a trail; `index` is the number of the next statement. -/
def recordAll (record : Stmt → Frame → Eval (Yield × Trail)) :
    Block → (index : Nat) → Frame → Option Value → Eval (Yield × Trail)
  | [], _, frame, last => return ((last, frame), [])
  | stmt :: rest, index, frame, last => do
    let ((yielded, frame), first) ← record stmt frame
    let (y, more) ← recordAll record rest (index + 1) frame (yielded <|> last)
    return (y, first.map (.under (.item index)) ++ more)

/-- `whileRounds` with a trail; `round` is the number of the next round. -/
def recordWhile (condition : Expr) (test : Eval Bool) (body : Frame → Eval (Yield × Trail)) :
    (rounds round : Nat) → Frame → Eval (Yield × Trail)
  | 0, _, _ => never
  | rounds + 1, round, frame => do
    let start ← read id
    let holds ← test
    let tested : Event := ⟨[.whileCondition round], start, .test condition holds⟩
    if holds then
      match ← body frame with
      | ((some v, frame), es) =>
        return ((some v, frame), tested :: es.map (.under (.whileBody round)))
      | ((none, frame), es) => do
        let (y, more) ← recordWhile condition test body rounds (round + 1) frame
        return (y, tested :: (es.map (.under (.whileBody round)) ++ more))
    else return ((none, frame), [tested])

/-- `forRounds` with a trail; `round` is the number of the next round. -/
def recordFor (condition : Expr) (test : Eval Bool) (body step : Frame → Eval (Yield × Trail)) :
    (rounds round : Nat) → Frame → Option Value → Eval (Yield × Trail)
  | 0, _, _, _ => never
  | rounds + 1, round, frame, last => do
    let start ← read id
    let holds ← test
    let tested : Event := ⟨[.forCondition round], start, .test condition holds⟩
    if holds then
      let ((yielded, frame), es) ← body frame
      let (_, stepped) ← step frame.resumed
      let (y, more) ← recordFor condition test body step rounds (round + 1) frame (yielded <|> last)
      return (y, tested :: (es.map (.under (.forBody round)) ++
        (stepped.map (.under (.forStep round)) ++ more)))
    else return ((last, frame), [tested])

end Eval

open Eval

/-- `execute` with a trail. -/
def record (settings : Settings) : (levels : Nat) → Stmt → Frame → Eval (Yield × Trail)
  | 0, _, _ => never
  | n + 1, stmt, frame =>
    if frame = .function true then return ((none, frame), [])
    else
      match stmt with
      | .branch condition thenBlock elseBlock => rollback do
        let start ← read id
        let holds ← test settings n condition
        let (y, es) ←
          recordAll (record settings n) (if holds then thenBlock else elseBlock) 0 frame none
        return (y, ⟨[.ifCondition], start, .test condition holds⟩ :: es.map (.under .ifBlock))
      | .whileLoop condition body => rollback <|
        recordWhile condition (test settings n condition)
          (fun frame => recordAll (record settings n) body 0 frame none) n 0 frame
      | .forLoop init condition step body => rollback do
        let ((_, frame), started) ← record settings n init frame
        let (y, es) ← recordFor condition (test settings n condition)
          (fun frame => recordAll (record settings n) body 0 frame none)
          (record settings n step) n 0 frame none
        return (y, started.map (.under .forInit) ++ es)
      | stmt => do
        let start ← read id
        let y ← execute settings (n + 1) stmt frame
        return (y, [⟨[], start, .statement stmt y.1⟩])

/-- `runBlock` with a trail. -/
def recordBlock (settings : Settings) (n : Nat) (block : Block) (frame : Frame) :
    Eval (Yield × Trail) :=
  recordAll (record settings n) block 0 frame none

/-! ## What is recorded changes nothing -/

namespace Eval

theorem map_rollback {α β : Type} (f : α → β) (x : Eval α) :
    f <$> rollback x = rollback (f <$> x) := by
  funext s
  show Eval.bind (rollback x) _ s = rollback (Eval.bind x _) s
  rcases hx : x s with _ | ⟨e | a, t⟩
  · simp only [Eval.bind, rollback, hx]
  · simp only [Eval.bind, rollback, hx]
  · simp only [Eval.bind, rollback, hx]
    rfl

theorem read_bind_eq {α β : Type} {f : Session → α} {k : α → Eval β} {x : Eval β}
    (h : ∀ a, k a = x) : (read f >>= k) = x := by
  funext s
  show k (f s) s = x s
  rw [h]

section Forget

variable {execute : Stmt → Frame → Eval Yield} {record : Stmt → Frame → Eval (Yield × Trail)}
  {condition : Expr} {test : Eval Bool} {body step : Frame → Eval Yield}
  {recordBody recordStep : Frame → Eval (Yield × Trail)}

theorem fst_recordAll (h : ∀ stmt frame, Prod.fst <$> record stmt frame = execute stmt frame)
    (block : Block) (index : Nat) (frame : Frame) (last : Option Value) :
    Prod.fst <$> recordAll record block index frame last = executeAll execute block frame last := by
  induction block generalizing index frame last with
  | nil => simp only [recordAll, executeAll, map_pure]
  | cons stmt rest ih =>
    simp only [recordAll, executeAll, map_bind, ← h, bind_map_left]
    refine bind_congr fun first => ?_
    simp only [← ih (index + 1), map_pure]
    rfl

theorem fst_recordWhile (h : ∀ frame, Prod.fst <$> recordBody frame = body frame)
    (rounds round : Nat) (frame : Frame) :
    Prod.fst <$> recordWhile condition test recordBody rounds round frame =
      whileRounds test body rounds frame := by
  induction rounds generalizing round frame with
  | zero => rfl
  | succ rounds ih =>
    simp only [recordWhile, whileRounds, map_bind, ← h, bind_map_left]
    refine read_bind_eq fun start => bind_congr fun holds => ?_
    cases holds with
    | false => rfl
    | true =>
      simp only [if_true, map_bind]
      refine bind_congr fun first => ?_
      obtain ⟨⟨_ | v, frame'⟩, es⟩ := first
      · simp only [← ih (round + 1), map_bind, map_pure]
        rfl
      · rfl

theorem fst_recordFor (h : ∀ frame, Prod.fst <$> recordBody frame = body frame)
    (hstep : ∀ frame, Prod.fst <$> recordStep frame = step frame) (rounds round : Nat)
    (frame : Frame) (last : Option Value) :
    Prod.fst <$> recordFor condition test recordBody recordStep rounds round frame last =
      forRounds test body step rounds frame last := by
  induction rounds generalizing round frame last with
  | zero => rfl
  | succ rounds ih =>
    simp only [recordFor, forRounds, map_bind, ← h, bind_map_left]
    refine read_bind_eq fun start => bind_congr fun holds => ?_
    cases holds with
    | false => rfl
    | true =>
      simp only [if_true, map_bind]
      refine bind_congr fun first => ?_
      simp only [← hstep, bind_map_left]
      refine bind_congr fun stepped => ?_
      simp only [← ih (round + 1), map_pure]
      rfl

end Forget

end Eval

/-- Statements that are neither a branch nor a loop. -/
def Stmt.isSimple : Stmt → Bool
  | branch _ _ _ | whileLoop _ _ | forLoop _ _ _ _ => false
  | _ => true

section Equations

variable {settings : Settings} {n : Nat} {frame : Frame}

theorem record_zero (settings : Settings) (stmt : Stmt) (frame : Frame) :
    record settings 0 stmt frame = never :=
  rfl

theorem record_returned (settings : Settings) (n : Nat) (stmt : Stmt) :
    record settings (n + 1) stmt (.function true) = pure ((none, .function true), []) :=
  rfl

theorem record_branch (hframe : frame ≠ .function true) (condition : Expr)
    (thenBlock elseBlock : Block) :
    record settings (n + 1) (.branch condition thenBlock elseBlock) frame = rollback (do
      let start ← read id
      let holds ← test settings n condition
      let r ← recordBlock settings n (if holds then thenBlock else elseBlock) frame
      return (r.1, ⟨[.ifCondition], start, .test condition holds⟩ ::
        r.2.map (.under .ifBlock))) := by
  show (if frame = .function true then _ else _) = _
  rw [if_neg hframe]
  rfl

theorem record_whileLoop (hframe : frame ≠ .function true) (condition : Expr) (body : Block) :
    record settings (n + 1) (.whileLoop condition body) frame = rollback
      (recordWhile condition (test settings n condition) (recordBlock settings n body) n 0
        frame) := by
  show (if frame = .function true then _ else _) = _
  rw [if_neg hframe]
  rfl

theorem record_forLoop (hframe : frame ≠ .function true) (init : Stmt) (condition : Expr)
    (step : Stmt) (body : Block) :
    record settings (n + 1) (.forLoop init condition step body) frame = rollback (do
      let started ← record settings n init frame
      let r ← recordFor condition (test settings n condition) (recordBlock settings n body)
        (record settings n step) n 0 started.1.2 none
      return (r.1, started.2.map (.under .forInit) ++ r.2)) := by
  show (if frame = .function true then _ else _) = _
  rw [if_neg hframe]
  rfl

theorem record_simple (hframe : frame ≠ .function true) {stmt : Stmt}
    (hstmt : stmt.isSimple = true) :
    record settings (n + 1) stmt frame = do
      let start ← read id
      let y ← execute settings (n + 1) stmt frame
      return (y, [⟨[], start, .statement stmt y.1⟩]) := by
  show (if frame = .function true then _ else _) = _
  rw [if_neg hframe]
  cases stmt with
  | branch | whileLoop | forLoop => exact absurd hstmt (by simp [Stmt.isSimple])
  | _ => rfl

end Equations

/-- Recording a statement is executing it. -/
theorem fst_record (settings : Settings) (n : Nat) (stmt : Stmt) (frame : Frame) :
    Prod.fst <$> record settings n stmt frame = execute settings n stmt frame := by
  induction n generalizing stmt frame with
  | zero => rfl
  | succ n ih =>
    have hblock (block : Block) (frame : Frame) :
        Prod.fst <$> recordBlock settings n block frame = runBlock settings n block frame :=
      fst_recordAll ih block 0 frame none
    by_cases hframe : frame = .function true
    · subst hframe
      rw [record_returned, execute_returned, map_pure]
    · cases stmt with
      | branch condition thenBlock elseBlock =>
        rw [record_branch hframe, execute_branch hframe, map_rollback]
        simp only [map_bind, map_pure, ← hblock]
        exact congrArg rollback (read_bind_eq fun start => rfl)
      | whileLoop condition body =>
        rw [record_whileLoop hframe, execute_whileLoop hframe, map_rollback,
          fst_recordWhile (hblock body)]
      | forLoop init condition step body =>
        rw [record_forLoop hframe, execute_forLoop hframe, map_rollback]
        simp only [map_bind, map_pure, ← ih init, bind_map_left]
        refine congrArg rollback (bind_congr fun started => ?_)
        exact fst_recordFor (hblock body) (ih step) n 0 started.1.2 none
      | _ =>
        rw [record_simple hframe rfl]
        simp only [map_bind, map_pure, bind_pure]
        exact read_bind_eq fun start => rfl

theorem fst_recordBlock (settings : Settings) (n : Nat) (block : Block) (frame : Frame) :
    Prod.fst <$> recordBlock settings n block frame = runBlock settings n block frame :=
  fst_recordAll (fst_record settings n) block 0 frame none

/-! ## What is recorded happens -/

namespace Event

/-- What the event says is what the evaluation from its session on gives. -/
def Happens (settings : Settings) (e : Event) : Prop :=
  match e.act with
  | .test condition holds =>
    ∃ t, Ends (fun levels => test settings levels condition) e.start (.ok holds) t
  | .statement stmt yielded =>
    ∃ frame frame' t, frame ≠ .function true ∧
      Ends (fun levels => execute settings levels stmt frame) e.start (.ok (yielded, frame')) t

end Event

/-- Every event of the trail happens. -/
def Genuine (settings : Settings) (r : Yield × Trail) : Prop :=
  ∀ e ∈ r.2, e.Happens settings

namespace Eval

/-- Behind an action, what it does from the session before it is known. -/
theorem Ensures.from_read {α β : Type} {P : β → Prop} {x : Eval α} {f : Session → α → Eval β}
    (h : ∀ s a t, x s = some (.ok a, t) → Ensures P (f s a)) :
    Ensures P (do let s ← read id; let a ← x; f s a) := by
  intro s b t hb
  have hx : (x >>= f s) s = some (.ok b, t) := hb
  obtain ⟨a, u, ha, hf⟩ := bind_eq_ok_iff.1 hx
  exact h s a u ha hf

variable {settings : Settings} {record : Stmt → Frame → Eval (Yield × Trail)} {condition : Expr}
  {body step : Frame → Eval (Yield × Trail)}

theorem genuine_recordAll (h : ∀ stmt frame, Ensures (Genuine settings) (record stmt frame))
    (block : Block) (index : Nat) (frame : Frame) (last : Option Value) :
    Ensures (Genuine settings) (recordAll record block index frame last) := by
  induction block generalizing index frame last with
  | nil => exact .pure (List.forall_mem_nil _)
  | cons stmt rest ih =>
    refine (h stmt frame).bind fun first hfirst => (ih _ _ _).bind fun more hmore => .pure ?_
    exact List.forall_mem_append.2 ⟨List.forall_mem_map.2 hfirst, hmore⟩

theorem genuine_recordWhile (n : Nat) (h : ∀ frame, Ensures (Genuine settings) (body frame))
    (rounds round : Nat) (frame : Frame) :
    Ensures (Genuine settings)
      (recordWhile condition (test settings n condition) body rounds round frame) := by
  induction rounds generalizing round frame with
  | zero => exact .never
  | succ rounds ih =>
    refine .from_read fun start holds t htest => ?_
    cases holds with
    | false => exact .pure (List.forall_mem_singleton.2 ⟨t, n, htest⟩)
    | true =>
      refine (h frame).bind fun first hfirst => ?_
      obtain ⟨⟨_ | v, frame'⟩, es⟩ := first
      · refine (ih _ _).bind fun more hmore => .pure ?_
        refine List.forall_mem_cons.2 ⟨⟨t, n, htest⟩, ?_⟩
        exact List.forall_mem_append.2 ⟨List.forall_mem_map.2 hfirst, hmore⟩
      · exact .pure (List.forall_mem_cons.2 ⟨⟨t, n, htest⟩, List.forall_mem_map.2 hfirst⟩)

theorem genuine_recordFor (n : Nat) (h : ∀ frame, Ensures (Genuine settings) (body frame))
    (hstep : ∀ frame, Ensures (Genuine settings) (step frame)) (rounds round : Nat)
    (frame : Frame) (last : Option Value) :
    Ensures (Genuine settings)
      (recordFor condition (test settings n condition) body step rounds round frame last) := by
  induction rounds generalizing round frame last with
  | zero => exact .never
  | succ rounds ih =>
    refine .from_read fun start holds t htest => ?_
    cases holds with
    | false => exact .pure (List.forall_mem_singleton.2 ⟨t, n, htest⟩)
    | true =>
      refine (h frame).bind fun first hfirst => (hstep _).bind fun stepped hstepped => ?_
      refine (ih _ _ _).bind fun more hmore => .pure (List.forall_mem_cons.2 ⟨⟨t, n, htest⟩, ?_⟩)
      refine List.forall_mem_append.2 ⟨List.forall_mem_map.2 hfirst, ?_⟩
      exact List.forall_mem_append.2 ⟨List.forall_mem_map.2 hstepped, hmore⟩

end Eval

/-- Recording a statement records only what happens. -/
theorem genuine_record (settings : Settings) (n : Nat) (stmt : Stmt) (frame : Frame) :
    Ensures (Genuine settings) (record settings n stmt frame) := by
  induction n generalizing stmt frame with
  | zero =>
    rw [record_zero]
    exact .never
  | succ n ih =>
    have hblock (block : Block) (frame : Frame) :
        Ensures (Genuine settings) (recordBlock settings n block frame) :=
      genuine_recordAll ih block 0 frame none
    by_cases hframe : frame = .function true
    · subst hframe
      rw [record_returned]
      exact .pure (List.forall_mem_nil _)
    · cases stmt with
      | branch condition thenBlock elseBlock =>
        rw [record_branch hframe]
        refine .rollback (.from_read fun start holds t htest => ?_)
        refine (hblock _ frame).bind fun r hr => .pure ?_
        exact List.forall_mem_cons.2 ⟨⟨t, n, htest⟩, List.forall_mem_map.2 hr⟩
      | whileLoop condition body =>
        rw [record_whileLoop hframe]
        exact .rollback (genuine_recordWhile n (hblock body) n 0 frame)
      | forLoop init condition step body =>
        rw [record_forLoop hframe]
        refine .rollback ((ih init frame).bind fun started hstarted => ?_)
        refine (genuine_recordFor n (hblock body) (ih step) n 0 _ none).bind fun r hr => .pure ?_
        exact List.forall_mem_append.2 ⟨List.forall_mem_map.2 hstarted, hr⟩
      | _ =>
        rw [record_simple hframe rfl]
        refine .from_read fun start y t hy => .pure (List.forall_mem_singleton.2 ?_)
        exact ⟨frame, y.2, t, hframe, n + 1, hy⟩

theorem genuine_recordBlock (settings : Settings) (n : Nat) (block : Block) (frame : Frame) :
    Ensures (Genuine settings) (recordBlock settings n block frame) :=
  genuine_recordAll (genuine_record settings n) block 0 frame none

/-! ## Calls -/

/-- The session in which the body of a called function starts. -/
def Session.entered (settings : Settings) (name : String) (f : Function) (values : List Value)
    (s : Session) : Session :=
  { s with
    depth := s.depth + 1
    locals := ({} : Bindings Value).insertAll (f.parameters.zip values)
    notices :=
      if settings.verbose then
        s.notices.push (.trace (.calling name f.parameters.length (s.depth + 1)))
      else s.notices }

/-- A call comes to the body of its function: the function is defined and has as many parameters as
    there are arguments, the arguments have values, and the limit allows one more level. The body
    starts in the session `s₁`. -/
structure Enters (settings : Settings) (n : Nat) (name : String) (arguments : List Expr)
    (s : Session) (f : Function) (s₁ : Session) : Prop where
  defined : s.functions.get? name = some f
  arity : f.parameters.length = arguments.length
  evaluated : ∃ values s₀, evaluateAll (evaluate settings n) arguments s = some (.ok values, s₀) ∧
    s₀.depth < settings.maxDepth ∧ s₁ = s₀.entered settings name f values

section Calls

variable {settings : Settings} {n : Nat} {name : String} {arguments : List Expr} {s : Session}

/-- The part of a call behind its arguments. -/
def callBody (settings : Settings) (n : Nat) (name : String) (count : Nat) (f : Function)
    (values : List Value) : Eval (Option Value) :=
  deeper settings.maxDepth <| rollback do
    trace settings fun s => .calling name count s.depth
    update fun s =>
      { s with locals := ({} : Bindings Value).insertAll (f.parameters.zip values) }
    let y ← runBlock settings n f.body (.function false)
    return y.1

theorem invoke_eq_callBody (settings : Settings) (n : Nat) (name : String)
    (arguments : List Expr) :
    invoke settings (evaluate settings n) (execute settings n) name arguments = (do
      let f ← find (·.functions.get? name) fun _ => .functionNotFound name
      if f.parameters.length ≠ arguments.length then
        fail (.argumentCount name f.parameters.length arguments.length)
      else
        let values ← evaluateAll (evaluate settings n) arguments
        let result ← callBody settings n name arguments.length f values
        trace settings fun s => .returning name (result.map s.heap.inspect)
        return result) :=
  rfl

/-- The body starts in the session that `Session.entered` gives. -/
theorem entering_eq (settings : Settings) (name : String) (f : Function) (values : List Value)
    (s : Session) (x : Eval (Option Value)) :
    (do
      trace settings fun s => .calling name f.parameters.length s.depth
      update fun s =>
        { s with locals := ({} : Bindings Value).insertAll (f.parameters.zip values) }
      x : Eval (Option Value)) { s with depth := s.depth + 1 } =
      x (s.entered settings name f values) := by
  unfold Session.entered
  cases hverbose : settings.verbose <;> simp [bind, Eval.bind, trace, update, hverbose]

theorem exists_callBody_eq_ok_iff {f : Function} {values : List Value} {result : Option Value} :
    (∃ t, callBody settings n name f.parameters.length f values s = some (.ok result, t)) ↔
      s.depth < settings.maxDepth ∧ ∃ frame u,
        runBlock settings n f.body (.function false) (s.entered settings name f values) =
          some (.ok (result, frame), u) := by
  constructor
  · rintro ⟨t, h⟩
    rcases Nat.lt_or_ge s.depth settings.maxDepth with hdepth | hdepth
    · obtain ⟨s₁, hrollback, -⟩ := (deeper_eq_some_iff_of_lt hdepth).1 h
      obtain ⟨s₂, hinside, -⟩ := rollback_eq_some_iff.1 hrollback
      rw [entering_eq] at hinside
      obtain ⟨⟨y, frame⟩, u, hbody, hpure⟩ := bind_eq_ok_iff.1 hinside
      obtain rfl : result = y := by simpa using (pure_eq_some_iff.1 hpure).1
      exact ⟨hdepth, frame, u, hbody⟩
    · rw [callBody, deeper_of_le hdepth] at h
      exact absurd h (by simp)
  · rintro ⟨hdepth, frame, u, hbody⟩
    refine ⟨_, (deeper_eq_some_iff_of_lt hdepth).2 ⟨_, rollback_eq_some_iff.2 ⟨u, ?_, rfl⟩, rfl⟩⟩
    rw [entering_eq]
    exact bind_eq_ok_iff.2 ⟨(result, frame), u, hbody, rfl⟩

/-- A call ends without an error if and only if it comes to the body of its function and the body
    ends without one; its result is what the body yields. -/
theorem exists_invoke_eq_ok_iff {result : Option Value} :
    (∃ t, invoke settings (evaluate settings n) (execute settings n) name arguments s =
      some (.ok result, t)) ↔
    ∃ f s₁ frame u, Enters settings n name arguments s f s₁ ∧
      runBlock settings n f.body (.function false) s₁ = some (.ok (result, frame), u) := by
  rw [invoke_eq_callBody]
  constructor
  · rintro ⟨t, hcall⟩
    obtain ⟨f, s', hfind, h⟩ := bind_eq_ok_iff.1 hcall
    obtain ⟨hdefined, rfl⟩ := find_eq_ok_iff.1 hfind
    by_cases harity : f.parameters.length = arguments.length
    · rw [if_neg (not_not_intro harity)] at h
      obtain ⟨values, s₀, hvalues, h⟩ := bind_eq_ok_iff.1 h
      obtain ⟨y, s₂, hcall, h⟩ := bind_eq_ok_iff.1 h
      obtain ⟨_, s₃, -, hpure⟩ := bind_eq_ok_iff.1 h
      obtain rfl : result = y := by simpa using (pure_eq_some_iff.1 hpure).1
      rw [← harity] at hcall
      obtain ⟨hdepth, frame, u, hbody⟩ := exists_callBody_eq_ok_iff.1 ⟨s₂, hcall⟩
      exact ⟨f, _, frame, u, ⟨hdefined, harity, values, s₀, hvalues, hdepth, rfl⟩, hbody⟩
    · rw [if_pos harity] at h
      exact absurd h (by simp [fail])
  · rintro ⟨f, s₁, frame, u, ⟨hdefined, harity, values, s₀, hvalues, hdepth, rfl⟩, hbody⟩
    obtain ⟨s₂, hcall⟩ := exists_callBody_eq_ok_iff.2 ⟨hdepth, frame, u, hbody⟩
    obtain ⟨notices, htrace⟩ :=
      trace_eq_some settings (fun s => .returning name (result.map s.heap.inspect)) s₂
    refine ⟨{ s₂ with notices }, bind_eq_ok_iff.2 ⟨f, s, find_eq_ok_iff.2 ⟨hdefined, rfl⟩, ?_⟩⟩
    rw [if_neg (not_not_intro harity), ← harity]
    exact bind_eq_ok_iff.2 ⟨values, s₀, hvalues, bind_eq_ok_iff.2 ⟨result, s₂, hcall,
      bind_eq_ok_iff.2 ⟨(), _, htrace, rfl⟩⟩⟩

theorem evaluate_call (settings : Settings) (n : Nat) (name : String) (arguments : List Expr) :
    evaluate settings (n + 1) (.call name arguments) = (do
      match ← invoke settings (evaluate settings n) (execute settings n) name arguments with
      | some v => return v
      | none => fail (.noReturnValue name)) :=
  rfl

/-- A block that ends without an error has a trail. -/
theorem exists_recordBlock {block : Block} {frame : Frame} {y : Yield} {t : Session}
    (h : runBlock settings n block frame s = some (.ok y, t)) :
    ∃ es, recordBlock settings n block frame s = some (.ok (y, es), t) := by
  rw [← fst_recordBlock] at h
  obtain ⟨⟨z, es⟩, u, hrecord, hpure⟩ := bind_eq_ok_iff.1 h
  obtain ⟨hz, rfl⟩ := pure_eq_some_iff.1 hpure
  obtain rfl : y = z := by simpa using hz
  exact ⟨es, hrecord⟩

end Calls

end Scriptlet
