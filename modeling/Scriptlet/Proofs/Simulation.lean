import Scriptlet.Proofs.Keeps

set_option autoImplicit false

/-! # Two evaluations side by side

What a change of the settings, of the number of levels or of some part of the session does to an
evaluation is a statement about two runs. Such a statement is a relation between actions, and every
proof of one takes the same walk through expressions and statements. The walk is made here once.

A `Simulation` is a relation with what the walk needs: it holds between the elementary actions and
themselves, and it goes through sequences and through the actions that enclose another one. Then it
holds between the two evaluations of every expression and every statement
(`Simulation.evaluate_execute`). The second evaluation may have more levels than the first, if an
action that does not end is related to every action.

An action is `Elementary` if it sees and changes neither the depth nor the notices and only adds to
the output. All actions of evaluation are put together from elementary ones, from traces and
reports, and from `rollback` and `deeper`. -/

namespace Scriptlet.Eval

variable {α β : Type}

/-! ## Output -/

/-- The action only adds to the output, however it ends; the rest of the sink stays as it is. -/
def Appends (x : Eval α) : Prop :=
  ∀ ⦃s r t⦄, x s = some (r, t) → ∃ written, t.sink = s.sink.push written

namespace Appends

theorem of_keeps {x : Eval α} (h : Keeps (·.sink) x) : Appends x := by
  intro s r t ht
  have hsink : t.sink = s.sink := h ht
  exact ⟨"", by rw [hsink, Sink.push_empty]⟩

theorem bind {x : Eval α} {f : α → Eval β} (hx : Appends x) (hf : ∀ a, Appends (f a)) :
    Appends (x >>= f) := by
  intro s r t h
  rcases bind_eq_some_iff.1 h with ⟨e, he, -⟩ | ⟨a, u, ha, hb⟩
  · exact hx he
  · obtain ⟨first, hu⟩ := hx ha
    obtain ⟨second, ht⟩ := hf a hb
    exact ⟨first ++ second, by rw [ht, hu, Sink.push_push]⟩

theorem rollback {x : Eval α} (hx : Appends x) : Appends (Eval.rollback x) := by
  intro s r t h
  obtain ⟨u, hu, rfl⟩ := rollback_eq_some_iff.1 h
  obtain ⟨written, hwritten⟩ := hx hu
  exact ⟨written, hwritten⟩

theorem deeper (limit : Nat) {x : Eval α} (hx : Appends x) : Appends (Eval.deeper limit x) := by
  intro s r t h
  rcases deeper_eq_some h with ⟨-, -, rfl⟩ | ⟨u, hu, rfl⟩
  · exact ⟨"", (Sink.push_empty _).symm⟩
  · obtain ⟨written, hwritten⟩ := hx hu
    exact ⟨written, hwritten⟩

theorem writeLine (line : String) : Appends (Eval.writeLine line) := by
  intro s r t h
  obtain ⟨_, written, hwrite, -⟩ := writeLine_eq_some line s
  obtain ⟨-, rfl⟩ : _ ∧ _ := by simpa using hwrite.symm.trans h
  exact ⟨written, rfl⟩

/-- What was written before is the beginning of what is written then. -/
theorem text_isPrefix {x : Eval α} (hx : Appends x) {s t : Session} {r : Except RuntimeError α}
    (h : x s = some (r, t)) : s.sink.text.toList <+: t.sink.text.toList := by
  obtain ⟨written, hwritten⟩ := hx h
  rw [hwritten, Sink.text_push, String.toList_append]
  exact List.prefix_append _ _

theorem flushFailure?_eq {x : Eval α} (hx : Appends x) {s t : Session}
    {r : Except RuntimeError α} (h : x s = some (r, t)) :
    t.sink.flushFailure? = s.sink.flushFailure? := by
  obtain ⟨written, hwritten⟩ := hx h
  rw [hwritten, Sink.flushFailure?_push]

end Appends

/-! ## Elementary actions -/

/-- The action neither sees nor changes the depth and the notices, and it only adds to the
    output. -/
structure Elementary (x : Eval α) : Prop where
  oblivious : ∀ s depth notices,
    x { s with depth, notices } = (x s).map fun (r, t) => (r, { t with depth, notices })
  appends : Appends x

namespace Elementary

theorem pure (a : α) : Elementary (Pure.pure a : Eval α) :=
  ⟨fun _ _ _ => rfl, .of_keeps (.pure a)⟩

theorem bind {x : Eval α} {f : α → Eval β} (hx : Elementary x) (hf : ∀ a, Elementary (f a)) :
    Elementary (x >>= f) := by
  refine ⟨fun s depth notices => ?_, hx.appends.bind fun a => (hf a).appends⟩
  have hfirst := hx.oblivious s depth notices
  show Eval.bind x f { s with depth, notices } = (Eval.bind x f s).map _
  unfold Eval.bind
  rw [hfirst]
  match x s with
  | none => rfl
  | some (.error e, t) => rfl
  | some (.ok a, t) => exact (hf a).oblivious t depth notices

theorem never : Elementary (Eval.never : Eval α) :=
  ⟨fun _ _ _ => rfl, .of_keeps .never⟩

theorem fail (e : RuntimeError) : Elementary (Eval.fail e : Eval α) :=
  ⟨fun _ _ _ => rfl, .of_keeps (.fail e)⟩

theorem reply (answer : Except Refusal α) : Elementary (Eval.reply answer) := by
  cases answer with
  | ok a => exact pure a
  | error refusal => exact fail refusal.1

theorem read {f : Session → α} (hf : ∀ s depth notices, f { s with depth, notices } = f s) :
    Elementary (Eval.read f) := by
  refine ⟨fun s depth notices => ?_, .of_keeps (.read f)⟩
  simp only [Eval.read, hf, Option.map_some]

theorem find {f : Session → Option α} {missing : Session → RuntimeError}
    (hf : ∀ s depth notices, f { s with depth, notices } = f s)
    (hm : ∀ s depth notices, missing { s with depth, notices } = missing s) :
    Elementary (Eval.find f missing) := by
  refine ⟨fun s depth notices => ?_, .of_keeps (.find f missing)⟩
  unfold Eval.find
  rw [hf, hm]
  cases f s <;> rfl

theorem update {f : Session → Session}
    (hf : ∀ s depth notices, f { s with depth, notices } = { f s with depth, notices })
    (hsink : ∀ s, (f s).sink = s.sink) : Elementary (Eval.update f) := by
  refine ⟨fun s depth notices => ?_, .of_keeps (.update hsink)⟩
  show some ((Except.ok () : Except RuntimeError Unit), f { s with depth, notices }) = _
  rw [hf]
  rfl

theorem writeLine (line : String) : Elementary (Eval.writeLine line) := by
  refine ⟨fun s depth notices => ?_, .writeLine line⟩
  unfold Eval.writeLine
  dsimp only
  cases s.sink.writeFailure? s.sink.text line <;> rfl

theorem flush : Elementary Eval.flush := by
  refine ⟨fun s depth notices => ?_, .of_keeps .flush⟩
  unfold Eval.flush
  dsimp only
  cases s.sink.flushFailure? s.sink.text <;> rfl

theorem allocate (elements : List Value) : Elementary (Eval.allocate elements) :=
  ⟨fun _ _ _ => rfl, .of_keeps (.allocate (fun _ _ => rfl) elements)⟩

theorem applyBinary (op : BinaryOp) (left right : Value) :
    Elementary (Eval.applyBinary op left right) := by
  refine ⟨fun s depth notices => ?_, .of_keeps (.applyBinary (fun _ _ => rfl) op left right)⟩
  unfold Eval.applyBinary
  dsimp only
  match s.heap.apply op left right with
  | none => rfl
  | some (.error e) => rfl
  | some (.ok (v, heap)) => rfl

theorem removeFrom (h : Handle) (label : String) (v : Value) :
    Elementary (Eval.removeFrom h label v) := by
  refine ⟨fun s depth notices => ?_, .of_keeps (.removeFrom (fun _ _ => rfl) h label v)⟩
  unfold Eval.removeFrom
  dsimp only
  match s.heap.position? v (s.heap.elements h).toList with
  | none => rfl
  | some none => rfl
  | some (some place) => rfl

/-! ### Depth and notices -/

section End

variable {x : Eval α} {s t : Session} {r : Except RuntimeError α}

theorem end_eq (hx : Elementary x) (h : x s = some (r, t)) :
    t = { t with depth := s.depth, notices := s.notices } := by
  have hsame : some (r, t) = some (r, { t with depth := s.depth, notices := s.notices }) := by
    have hoblivious := hx.oblivious s s.depth s.notices
    rw [h] at hoblivious
    exact hoblivious
  simpa using hsame

/-- Other notices change nothing about the end but the notices. -/
theorem end_notices (hx : Elementary x) (h : x s = some (r, t)) (notices : Array Notice) :
    x { s with notices } = some (r, { t with notices }) := by
  have hoblivious := hx.oblivious s s.depth notices
  rw [h] at hoblivious
  rw [hx.end_eq h]
  exact hoblivious

end End

/-! ### Put together from these -/

theorem truthy (v : Value) : Elementary (Eval.truthy v) :=
  read fun _ _ _ => rfl

theorem writeValues (values : List Value) : Elementary (Eval.writeValues values) :=
  bind (read fun _ _ _ => rfl) fun line => writeLine line

theorem setLocal (name : String) (v : Value) : Elementary (Eval.setLocal name v) :=
  update (fun _ _ _ => rfl) fun _ => rfl

theorem setGlobal (name : String) (v : Value) : Elementary (Eval.setGlobal name v) :=
  update (fun _ _ _ => rfl) fun _ => rfl

theorem getLocal (name : String) : Elementary (Eval.getLocal name) :=
  find (fun _ _ _ => rfl) fun _ _ _ => rfl

theorem resolve (name : String) : Elementary (Eval.resolve name) :=
  find (fun _ _ _ => rfl) fun _ _ _ => rfl

theorem arrayNamed (name : String) : Elementary (Eval.arrayNamed name) := by
  refine bind (find (fun _ _ _ => rfl) fun _ _ _ => rfl) fun v => ?_
  cases v with
  | array h => exact pure h
  | _ => exact fail _

theorem target (e : Expr) (v : Value) : Elementary (Eval.target e v) := by
  cases v with
  | array h => exact pure _
  | text name => exact bind (arrayNamed name) fun _ => pure _
  | _ => exact fail _

theorem readPath (name : String) (path : List Value) : Elementary (Eval.readPath name path) :=
  bind (find (fun _ _ _ => rfl) fun _ _ _ => rfl) fun _ =>
    find (fun _ _ _ => rfl) fun _ _ _ => rfl

theorem writePath (name : String) (path : List Value) (v : Value) :
    Elementary (Eval.writePath name path v) :=
  bind (arrayNamed name) fun _ => bind (find (fun _ _ _ => rfl) fun _ _ _ => rfl) fun _ =>
    update (fun _ _ _ => rfl) fun _ => rfl

theorem appendTo (h : Handle) (v : Value) : Elementary (Eval.appendTo h v) :=
  update (fun _ _ _ => rfl) fun _ => rfl

theorem stepLocal (name : String) (direction : Direction) :
    Elementary (Eval.stepLocal name direction) := by
  refine bind (getLocal name) fun current => ?_
  split
  · exact fail _
  · exact bind (applyBinary _ _ _) fun v => setLocal name v

theorem compoundValue (op : Arithmetic) (current v : Value) :
    Elementary (Eval.compoundValue op current v) := by
  unfold Eval.compoundValue
  split
  · exact bind (update (fun _ _ _ => rfl) fun _ => rfl) fun _ => pure _
  · exact applyBinary _ _ _

end Elementary

/-! ## Simulations -/

/-- A relation between actions of a first evaluation, under the settings `left`, and a second one,
    under the settings `right` and with `surplus` more levels. -/
structure Simulation (left right : Settings) (surplus : Nat) where
  /-- The relation. -/
  Rel {α : Type} : Eval α → Eval α → Prop
  never {α : Type} (y : Eval α) : surplus ≠ 0 → Rel never y
  elementary {α : Type} {x : Eval α} : Elementary x → Rel x x
  bind {α β : Type} {x y : Eval α} {f g : α → Eval β} :
    Rel x y → (∀ a, Rel (f a) (g a)) → Rel (x >>= f) (y >>= g)
  rollback {α : Type} {x y : Eval α} : Rel x y → Rel (rollback x) (rollback y)
  deeper {α : Type} {x y : Eval α} :
    Rel x y → Rel (deeper left.maxDepth x) (deeper right.maxDepth y)
  trace {t : Session → Trace} :
    (∀ s notices, t { s with notices } = t s) → Rel (trace left t) (trace right t)
  report (faults : List Fault) : Rel (report faults) (report faults)

namespace Simulation

variable {left right : Settings} {surplus : Nat} (sim : Simulation left right surplus)
  {evaluate₁ evaluate₂ : Expr → Eval Value} {execute₁ execute₂ : Stmt → Frame → Eval Yield}

/-- The relation goes through what `eval` makes of a text. -/
def RelatesTexts : Prop :=
  ∀ ⦃evaluate₁ evaluate₂ : Expr → Eval Value⦄, (∀ e, sim.Rel (evaluate₁ e) (evaluate₂ e)) →
    ∀ code, sim.Rel (evaluateText left evaluate₁ code) (evaluateText right evaluate₂ code)

theorem pure (a : α) : sim.Rel (Pure.pure a) (Pure.pure a) :=
  sim.elementary (.pure a)

/-- An elementary action in front of related ones. -/
theorem after {x : Eval α} {f g : α → Eval β} (hx : Elementary x)
    (hf : ∀ a, sim.Rel (f a) (g a)) : sim.Rel (x >>= f) (x >>= g) :=
  sim.bind (sim.elementary hx) hf

/-- Elementary actions behind related ones. -/
theorem followed {x y : Eval α} {f : α → Eval β} (hx : sim.Rel x y)
    (hf : ∀ a, Elementary (f a)) : sim.Rel (x >>= f) (y >>= f) :=
  sim.bind hx fun a => sim.elementary (hf a)

/-- Where `eval` means the same in both evaluations, the relation goes through it. -/
theorem relatesTexts (hdynamic : right.dynamic = left.dynamic) : sim.RelatesTexts := by
  intro evaluate₁ evaluate₂ he code
  refine sim.bind (sim.trace fun _ _ => rfl) fun _ => ?_
  rw [hdynamic]
  cases left.dynamic with
  | disabled => exact sim.elementary (.fail _)
  | stub answer => exact sim.elementary (.reply _)
  | expression =>
    refine sim.bind (sim.report _) fun _ => ?_
    cases (Expr.ofSource code).result with
    | error e => exact sim.elementary (.fail _)
    | ok e => exact sim.deeper (he e)

/-! ### Lists, loops and calls -/

section Related

variable (he : ∀ e, sim.Rel (evaluate₁ e) (evaluate₂ e))
  (hs : ∀ stmt frame, sim.Rel (execute₁ stmt frame) (execute₂ stmt frame))

include he in
theorem evaluateAll (es : List Expr) :
    sim.Rel (Eval.evaluateAll evaluate₁ es) (Eval.evaluateAll evaluate₂ es) := by
  induction es with
  | nil => exact sim.pure _
  | cons e es ih => exact sim.bind (he e) fun v => sim.followed ih fun vs => .pure _

include hs in
theorem executeAll (block : Block) (frame : Frame) (last : Option Value) :
    sim.Rel (Eval.executeAll execute₁ block frame last)
      (Eval.executeAll execute₂ block frame last) := by
  induction block generalizing frame last with
  | nil => exact sim.pure _
  | cons stmt rest ih => exact sim.bind (hs stmt frame) fun y => ih y.2 _

/-- Used up levels are related to whatever the second evaluation does with those that it has
    left. -/
theorem never_of_surplus {x : Nat → Eval α} (hzero : x 0 = Eval.never) :
    sim.Rel Eval.never (x surplus) := by
  by_cases hsurplus : surplus = 0
  · have hx : x surplus = Eval.never := by rw [hsurplus, hzero]
    rw [hx]
    exact sim.elementary .never
  · exact sim.never _ hsurplus

theorem whileRounds {condition₁ condition₂ : Eval Bool} {body₁ body₂ : Frame → Eval Yield}
    (hc : sim.Rel condition₁ condition₂) (hb : ∀ frame, sim.Rel (body₁ frame) (body₂ frame))
    (rounds : Nat) (frame : Frame) :
    sim.Rel (Eval.whileRounds condition₁ body₁ rounds frame)
      (Eval.whileRounds condition₂ body₂ (rounds + surplus) frame) := by
  induction rounds generalizing frame with
  | zero =>
    rw [Nat.zero_add]
    exact sim.never_of_surplus (x := fun n => Eval.whileRounds condition₂ body₂ n frame) rfl
  | succ rounds ih =>
    rw [Nat.add_right_comm]
    refine sim.bind hc fun holds => ?_
    cases holds with
    | false => exact sim.pure _
    | true =>
      refine sim.bind (hb frame) fun y => ?_
      obtain ⟨value, frame'⟩ := y
      cases value with
      | none => exact ih frame'
      | some v => exact sim.pure _

theorem forRounds {condition₁ condition₂ : Eval Bool} {body₁ body₂ step₁ step₂ : Frame → Eval Yield}
    (hc : sim.Rel condition₁ condition₂) (hb : ∀ frame, sim.Rel (body₁ frame) (body₂ frame))
    (hstep : ∀ frame, sim.Rel (step₁ frame) (step₂ frame)) (rounds : Nat) (frame : Frame)
    (last : Option Value) :
    sim.Rel (Eval.forRounds condition₁ body₁ step₁ rounds frame last)
      (Eval.forRounds condition₂ body₂ step₂ (rounds + surplus) frame last) := by
  induction rounds generalizing frame last with
  | zero =>
    rw [Nat.zero_add]
    exact sim.never_of_surplus
      (x := fun n => Eval.forRounds condition₂ body₂ step₂ n frame last) rfl
  | succ rounds ih =>
    rw [Nat.add_right_comm]
    refine sim.bind hc fun holds => ?_
    cases holds with
    | false => exact sim.pure _
    | true => exact sim.bind (hb frame) fun y => sim.bind (hstep _) fun _ => ih y.2 _

include he hs in
theorem invoke (name : String) (arguments : List Expr) :
    sim.Rel (Eval.invoke left evaluate₁ execute₁ name arguments)
      (Eval.invoke right evaluate₂ execute₂ name arguments) := by
  refine sim.after (.find (fun _ _ _ => rfl) fun _ _ _ => rfl) fun f => ?_
  dsimp only
  split
  · exact sim.elementary (.fail _)
  · refine sim.bind (sim.evaluateAll he arguments) fun values => ?_
    refine sim.bind (sim.deeper (sim.rollback ?_)) fun result => ?_
    · refine sim.bind (sim.trace fun _ _ => rfl) fun _ => ?_
      refine sim.after (.update (fun _ _ _ => rfl) fun _ => rfl) fun _ => ?_
      exact sim.followed (sim.executeAll hs f.body (.function false) none) fun y => .pure _
    · exact sim.followed (sim.trace fun _ _ => rfl) fun _ => .pure _

end Related

/-! ### Expressions and statements -/

section Step

variable {levels : Nat}
  (he : ∀ e, sim.Rel (evaluate left levels e) (evaluate right (levels + surplus) e))
  (hs : ∀ stmt frame,
    sim.Rel (execute left levels stmt frame) (execute right (levels + surplus) stmt frame))

include he hs

theorem evaluate_succ (htexts : sim.RelatesTexts) (e : Expr) :
    sim.Rel (evaluate left (levels + 1) e) (evaluate right (levels + surplus + 1) e) := by
  unfold evaluate
  cases e with
  | int n => exact sim.pure _
  | text s => exact sim.pure _
  | name x => exact sim.elementary (.resolve x)
  | binary op l r =>
    exact sim.bind (he l) fun _ => sim.followed (he r) fun _ => .applyBinary op _ _
  | call f arguments =>
    refine sim.followed (sim.invoke he hs f arguments) fun yielded => ?_
    cases yielded with
    | none => exact .fail _
    | some v => exact .pure v
  | index x indices => exact sim.followed (sim.evaluateAll he indices) fun _ => .readPath x _
  | array elements => exact sim.followed (sim.evaluateAll he elements) fun _ => .allocate _
  | eval operand =>
    refine sim.bind (he operand) fun v => ?_
    cases v with
    | text code => exact htexts he code
    | _ => exact sim.elementary (.fail _)
  | id operand => exact sim.followed (he operand) fun _ => .pure _

theorem execute_succ (stmt : Stmt) (frame : Frame) :
    sim.Rel (execute left (levels + 1) stmt frame)
      (execute right (levels + surplus + 1) stmt frame) := by
  have hcondition (condition : Expr) : sim.Rel
      (do truthy (← evaluate left levels condition) : Eval Bool)
      (do truthy (← evaluate right (levels + surplus) condition) : Eval Bool) :=
    sim.followed (he condition) fun v => .truthy v
  have hblock (block : Block) (frame : Frame) : sim.Rel
      (Eval.executeAll (execute left levels) block frame none)
      (Eval.executeAll (execute right (levels + surplus)) block frame none) :=
    sim.executeAll hs block frame none
  unfold execute
  split
  · exact sim.pure _
  · cases stmt with
    | exit => exact sim.elementary (.bind (.writeLine _) fun _ => .fail _)
    | print arguments =>
      exact sim.followed (sim.evaluateAll he arguments) fun values =>
        .bind (.writeValues values) fun _ => .pure _
    | branch condition thenBlock elseBlock =>
      refine sim.rollback (sim.bind (he condition) fun v => sim.after (.truthy v) fun holds => ?_)
      cases holds with
      | true => exact hblock thenBlock frame
      | false => exact hblock elseBlock frame
    | whileLoop condition body =>
      exact sim.rollback (sim.whileRounds (hcondition condition) (hblock body) levels frame)
    | forLoop init condition step body =>
      refine sim.rollback (sim.bind (hs init frame) fun y => ?_)
      exact sim.forRounds (hcondition condition) (hblock body) (hs step) levels y.2 none
    | define name parameters body =>
      refine sim.bind (sim.trace fun _ _ => rfl) fun _ => sim.elementary ?_
      exact .bind (.update (fun _ _ _ => rfl) fun _ => rfl) fun _ => .pure _
    | return_ value =>
      cases frame with
      | program => exact sim.elementary (.fail _)
      | function returned => exact sim.followed (he value) fun _ => .pure _
    | call f arguments => exact sim.followed (sim.invoke he hs f arguments) fun _ => .pure _
    | assign name value =>
      exact sim.followed (he value) fun v => .bind (.setLocal name v) fun _ => .pure _
    | assignAll names values =>
      refine sim.followed (sim.evaluateAll he values) fun values => ?_
      exact .bind (.update (fun _ _ _ => rfl) fun _ => rfl) fun _ => .pure _
    | declareGlobal name value =>
      refine sim.bind (he value) fun v => sim.bind (sim.trace fun _ _ => rfl) fun _ => ?_
      exact sim.elementary (.bind (.setGlobal name v) fun _ => .pure _)
    | promote name =>
      refine sim.after (.getLocal name) fun v => sim.bind (sim.trace fun _ _ => rfl) fun _ => ?_
      exact sim.elementary (.bind (.setGlobal name v) fun _ => .pure _)
    | assignIndex name indices value =>
      refine sim.bind (sim.evaluateAll he indices) fun path => sim.followed (he value) fun v => ?_
      exact .bind (.writePath name path v) fun _ => .pure _
    | append container value =>
      refine sim.bind (he container) fun c => sim.after (.target container c) fun found => ?_
      exact sim.followed (he value) fun v => .bind (.appendTo _ v) fun _ => .pure _
    | remove container value =>
      refine sim.bind (he container) fun c => sim.after (.target container c) fun found => ?_
      exact sim.followed (he value) fun v => .bind (.removeFrom _ _ v) fun _ => .pure _
    | increment name direction =>
      exact sim.elementary (.bind (.stepLocal name direction) fun _ => .pure _)
    | compound name op value =>
      refine sim.after (.getLocal name) fun current => sim.followed (he value) fun v => ?_
      exact .bind (.compoundValue op current v) fun w => .bind (.setLocal name w) fun _ => .pure _
    | expression e => exact sim.followed (he e) fun _ => .pure _

end Step

/-- The walk: both evaluations of an expression are related, and so are both executions of a
    statement. -/
theorem evaluate_execute (htexts : sim.RelatesTexts) (levels : Nat) :
    (∀ e, sim.Rel (evaluate left levels e) (evaluate right (levels + surplus) e)) ∧
      ∀ stmt frame,
        sim.Rel (execute left levels stmt frame) (execute right (levels + surplus) stmt frame) := by
  induction levels with
  | zero =>
    rw [Nat.zero_add]
    constructor
    · intro e
      exact sim.never_of_surplus (x := fun n => evaluate right n e) rfl
    · intro stmt frame
      exact sim.never_of_surplus (x := fun n => execute right n stmt frame) rfl
  | succ levels ih =>
    obtain ⟨he, hs⟩ := ih
    rw [Nat.add_right_comm]
    exact ⟨sim.evaluate_succ he hs htexts, sim.execute_succ he hs⟩

end Simulation

/-! ## Output of evaluations -/

/-- The simplest simulation: the second evaluation only adds to the output. -/
def appending (settings : Settings) : Simulation settings settings 0 where
  Rel _ y := Appends y
  never _ h := absurd rfl h
  elementary hx := hx.appends
  bind := Appends.bind
  rollback := Appends.rollback
  deeper := Appends.deeper settings.maxDepth
  trace _ := .of_keeps (.trace (fun _ _ => rfl) _ _)
  report faults := .of_keeps (.report (fun _ _ => rfl) faults)

theorem appends_executeAll (settings : Settings) (levels : Nat) (block : Block) (frame : Frame)
    (last : Option Value) :
    Appends (executeAll (execute settings levels) block frame last) := by
  have htexts := (appending settings).relatesTexts rfl
  have hs := ((appending settings).evaluate_execute htexts levels).2
  exact (appending settings).executeAll hs block frame last

end Scriptlet.Eval
