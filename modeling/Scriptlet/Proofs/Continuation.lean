import Scriptlet.Proofs.ClosedWorld

set_option autoImplicit false

/-! # From a part to the whole

What a task starts is part of what the task does. If the part ends with an error, then the task ends
with that error and nothing more is written or bound: nothing catches an error. And if the task
ends, then the part has ended before, and what lasts from then on, whatever is evaluated, still
holds when the task ends.

`Inside` says both of two actions, and goes through sequences and through the actions that enclose
another one. `Starts.inside` says it of tasks, with enough levels, and `ComesTo.inside` of
everything that a run comes to. -/

namespace Scriptlet

open Eval

/-! ## Lasting properties -/

/-- A property of the globals and the functions that lasts: however an evaluation ends, it holds
    then if it held before. -/
structure Lasting (settings : Settings) (J : Session → Prop) : Prop
    extends Persistent settings (fun _ => true) J where
  tables : ∀ ⦃s t : Session⦄, t.globals = s.globals → t.functions = s.functions → J s → J t
  setGlobal : ∀ name v, Preserves J (setGlobal name v)

namespace Lasting

variable {settings : Settings} {J : Session → Prop} {α : Type} (hJ : Lasting settings J)

include hJ

theorem harmless {x : Eval α} (hx : ∀ s, Harmless x s) : Preserves J x := by
  intro s r t h hs
  obtain ⟨r', t', ht', -, hglobals, hfunctions⟩ := hx s
  rw [h] at ht'
  simp only [Option.some.injEq, Prod.mk.injEq] at ht'
  obtain ⟨-, rfl⟩ := ht'
  exact hJ.tables hglobals hfunctions hs

theorem keeps {x : Eval α} (hx : Keeps (fun s => (s.globals, s.functions)) x) : Preserves J x := by
  intro s r t h hs
  have htables : (t.globals, t.functions) = (s.globals, s.functions) := hx h
  simp only [Prod.mk.injEq] at htables
  exact hJ.tables htables.1 htables.2 hs

theorem rollback {x : Eval α} (hx : Preserves J x) : Preserves J (Eval.rollback x) := by
  intro s r t h hs
  obtain ⟨u, hu, rfl⟩ := rollback_eq_some_iff.1 h
  exact hJ.tables (s := u) rfl rfl (hx hu hs)

theorem deeper (limit : Nat) {x : Eval α} (hx : Preserves J x) :
    Preserves J (Eval.deeper limit x) := by
  intro s r t h hs
  rcases deeper_eq_some h with ⟨-, -, rfl⟩ | ⟨u, hu, rfl⟩
  · exact hs
  · exact hJ.tables (s := u) rfl rfl (hx hu (hJ.tables (s := s) rfl rfl hs))

theorem statement (n : Nat) (stmt : Stmt) (frame : Frame) :
    Preserves J (Scriptlet.execute settings n stmt frame) :=
  hJ.execute n stmt frame (Stmt.everywhere_true stmt)

theorem runBlock (n : Nat) (block : Block) (frame : Frame) :
    Preserves J (runBlock settings n block frame) :=
  hJ.toPersistent.runBlock n (Block.everywhere_true block) frame

/-- A round of a `while`, and what comes behind it if the round yields nothing. -/
theorem whileRest (n : Nat) {body : Block} {rest : Frame → Eval Yield}
    (hrest : ∀ frame, Preserves J (rest frame)) (frame : Frame) :
    Preserves J (do
      match ← Scriptlet.runBlock settings n body frame with
      | (some v, frame) => return (some v, frame)
      | (none, frame) => rest frame : Eval Yield) := by
  refine (hJ.runBlock n body frame).bind fun y => ?_
  obtain ⟨_ | v, frame'⟩ := y
  · exact hrest frame'
  · exact .pure _

theorem whileRounds (n : Nat) (condition : Expr) (body : Block) (rounds : Nat) (frame : Frame) :
    Preserves J (Eval.whileRounds (Scriptlet.test settings n condition)
      (Scriptlet.runBlock settings n body) rounds frame) :=
  .whileRounds (hJ.test n condition) (hJ.runBlock n body) rounds frame

theorem forRounds (n : Nat) (condition : Expr) (body : Block) (step : Stmt) (rounds : Nat)
    (frame : Frame) (last : Option Value) :
    Preserves J (Eval.forRounds (Scriptlet.test settings n condition)
      (Scriptlet.runBlock settings n body) (Scriptlet.execute settings n step) rounds frame
      last) :=
  .forRounds (hJ.test n condition) (hJ.runBlock n body) (hJ.statement n step) rounds frame last

theorem callBody (n : Nat) (name : String) (count : Nat) (f : Function) (values : List Value) :
    Preserves J (callBody settings n name count f values) := by
  refine hJ.deeper _ (hJ.rollback ?_)
  refine (hJ.harmless fun _ => .trace _ _).bind fun _ => ?_
  refine .bind ?_ fun _ => (hJ.runBlock n f.body _).bind fun _ => .pure _
  exact hJ.harmless fun _ => .update rfl rfl

theorem evaluateText (n : Nat) (code : String) :
    Preserves J (Eval.evaluateText settings (Scriptlet.evaluate settings n) code) := by
  refine (hJ.harmless fun _ => .trace _ _).bind fun _ => ?_
  cases settings.dynamic with
  | disabled => exact hJ.harmless fun _ => .fail (by simp)
  | stub answer => exact hJ.harmless fun _ => .reply _
  | expression =>
    refine .bind (x := report _) (hJ.harmless fun _ => .update rfl rfl) fun _ => ?_
    cases (Expr.ofSource code).result with
    | error e => exact hJ.harmless fun _ => .fail (by simp)
    | ok e => exact hJ.deeper _ (hJ.evaluate n e)

theorem task (n : Nat) (task : Task) : Preserves J (task.run settings n) := by
  cases task with
  | expression e => exact hJ.evaluate n e
  | statement stmt frame => exact hJ.statement n stmt frame
  | comparison c => exact hJ.keeps c.keeps_perform

end Lasting

theorem lasting_true (settings : Settings) : Lasting settings fun _ => True where
  functions _ _ _ _ _ := Block.everywhere_true _
  congr _ _ _ _ _ := trivial
  evaluate _ _ _ _ _ _ _ := trivial
  execute _ _ _ _ _ _ _ _ _ := trivial
  tables _ _ _ _ _ := trivial
  setGlobal _ _ _ _ _ _ _ := trivial

/-- What no statement breaks lasts. -/
theorem lasting_of_unbroken {I : Bindings Value → Bindings Function → Prop}
    (hI : Unbroken (fun _ => true) I) (settings : Settings) :
    Lasting settings (Closed (fun _ => true) I) where
  toPersistent := persistent_closed hI settings
  tables _ _ hglobals hfunctions hs := hs.congr hglobals hfunctions
  setGlobal name v s r t h hs := by
    simp only [Eval.setGlobal, update, Option.some.injEq, Prod.mk.injEq] at h
    obtain ⟨-, rfl⟩ := h
    exact ⟨hs.functions, hI.global (.promote name) name rfl rfl _ _ v hs.tables⟩

/-! ## Parts of actions -/

namespace Eval

variable {α β γ : Type} {J : Session → Prop}

/-- The action `y` from `u` on is part of the action `x` from `s` on: its error is the error of the
    whole, with the same tables and output; and if the whole ends, so does the part, and `J` lasts
    from the end of the part to the end of the whole. -/
structure Inside (J : Session → Prop) (y : Eval β) (u : Session) (x : Eval α) (s : Session) :
    Prop where
  error : ∀ e v, y u = some (.error e, v) → ∃ t, x s = some (.error e, t) ∧
    t.globals = v.globals ∧ t.functions = v.functions ∧ t.sink = v.sink
  ends : ∀ r t, x s = some (r, t) → ∃ q v, y u = some (q, v) ∧ (J v → J t)

namespace Inside

variable {x : Eval α} {y : Eval β} {z : Eval γ} {s s₁ u w : Session}

theorem refl (x : Eval α) (s : Session) : Inside J x s x s :=
  ⟨fun _ v h => ⟨v, h, rfl, rfl, rfl⟩, fun r t h => ⟨r, t, h, fun ht => ht⟩⟩

theorem trans (hzy : Inside J z w y u) (hyx : Inside J y u x s) : Inside J z w x s := by
  refine ⟨fun e v h => ?_, fun r t h => ?_⟩
  · obtain ⟨v', hv', hglobals, hfunctions, hsink⟩ := hzy.error e v h
    obtain ⟨t, ht, hglobals', hfunctions', hsink'⟩ := hyx.error e v' hv'
    exact ⟨t, ht, hglobals'.trans hglobals, hfunctions'.trans hfunctions, hsink'.trans hsink⟩
  · obtain ⟨q, v, hv, hvt⟩ := hyx.ends r t h
    obtain ⟨q', v', hv', hvv⟩ := hzy.ends q v hv
    exact ⟨q', v', hv', fun hJ => hvt (hvv hJ)⟩

/-- Only what the whole does from its session on counts. -/
theorem congr {x' : Eval α} {s' : Session} (heq : x s = x' s') (h : Inside J y u x' s') :
    Inside J y u x s := by
  refine ⟨fun e v hv => ?_, fun r t ht => ?_⟩
  · rw [heq]
    exact h.error e v hv
  · rw [heq] at ht
    exact h.ends r t ht

/-- A part of the first of two actions. -/
theorem first {f : α → Eval γ} (h : Inside J y u x s) (hf : ∀ a, Preserves J (f a)) :
    Inside J y u (x >>= f) s := by
  refine ⟨fun e v hv => ?_, fun r t ht => ?_⟩
  · obtain ⟨t, ht, htables⟩ := h.error e v hv
    exact ⟨t, bind_eq_some_iff.2 (.inl ⟨e, ht, rfl⟩), htables⟩
  · rcases bind_eq_some_iff.1 ht with ⟨e, he, -⟩ | ⟨a, t', ha, hb⟩
    · exact h.ends _ t he
    · obtain ⟨q, v, hv, hlasts⟩ := h.ends _ t' ha
      exact ⟨q, v, hv, fun hJ => hf a hb (hlasts hJ)⟩

/-- A part of the second of two actions. -/
theorem second {f : α → Eval γ} {a : α} (hx : x s = some (.ok a, s₁))
    (h : Inside J y u (f a) s₁) : Inside J y u (x >>= f) s := by
  refine ⟨fun e v hv => ?_, fun r t ht => ?_⟩
  · obtain ⟨t, ht, htables⟩ := h.error e v hv
    exact ⟨t, bind_eq_some_iff.2 (.inr ⟨a, s₁, hx, ht⟩), htables⟩
  · rcases bind_eq_some_iff.1 ht with ⟨e, he, -⟩ | ⟨b, t', hb, hend⟩
    · exact absurd (hx.symm.trans he) (by simp)
    · have heq := hx.symm.trans hb
      simp only [Option.some.injEq, Prod.mk.injEq, Except.ok.injEq] at heq
      obtain ⟨rfl, rfl⟩ := heq
      exact h.ends r t hend

section Tables

variable (hcongr : ∀ ⦃s t : Session⦄, t.globals = s.globals → t.functions = s.functions → J s → J t)

include hcongr

theorem rollback (h : Inside J y u x s) : Inside J y u (Eval.rollback x) s := by
  refine ⟨fun e v hv => ?_, fun r t ht => ?_⟩
  · obtain ⟨t, ht, htables⟩ := h.error e v hv
    exact ⟨{ t with locals := s.locals }, rollback_eq_some_iff.2 ⟨t, ht, rfl⟩, htables⟩
  · obtain ⟨t', ht', rfl⟩ := rollback_eq_some_iff.1 ht
    obtain ⟨q, v, hv, hlasts⟩ := h.ends r t' ht'
    exact ⟨q, v, hv, fun hJ => hcongr (s := t') rfl rfl (hlasts hJ)⟩

theorem deeper {limit : Nat} (hdepth : s.depth < limit)
    (h : Inside J y u x { s with depth := s.depth + 1 }) :
    Inside J y u (Eval.deeper limit x) s := by
  refine ⟨fun e v hv => ?_, fun r t ht => ?_⟩
  · obtain ⟨t, ht, htables⟩ := h.error e v hv
    exact ⟨{ t with depth := t.depth - 1 }, (deeper_eq_some_iff_of_lt hdepth).2 ⟨t, ht, rfl⟩,
      htables⟩
  · obtain ⟨t', ht', rfl⟩ := (deeper_eq_some_iff_of_lt hdepth).1 ht
    obtain ⟨q, v, hv, hlasts⟩ := h.ends r t' ht'
    exact ⟨q, v, hv, fun hJ => hcongr (s := t') rfl rfl (hlasts hJ)⟩

end Tables

/-! ### Lists and loops -/

theorem evaluateAll {evaluate : Expr → Eval Value} (he : ∀ e, Preserves J (evaluate e))
    {es : List Expr} {e : Expr} (h : ListReaches evaluate es s e u) :
    Inside J (evaluate e) u (Eval.evaluateAll evaluate es) s := by
  induction h with
  | head e es s =>
    exact (refl _ _).first fun v => (Preserves.evaluateAll fun e _ => he e).bind fun _ => .pure _
  | tail hfirst _ ih => exact .second hfirst (ih.first fun _ => .pure _)

theorem executeAll {execute : Stmt → Frame → Eval Yield}
    (hs : ∀ stmt frame, Preserves J (execute stmt frame)) {block : Block} {frame frame' : Frame}
    {stmt : Stmt} (h : BlockReaches execute block frame s stmt frame' u) (last : Option Value) :
    Inside J (execute stmt frame') u (Eval.executeAll execute block frame last) s := by
  induction h generalizing last with
  | head stmt rest frame s =>
    exact (refl _ _).first fun y => .executeAll (fun stmt _ => hs stmt) _ _
  | tail hfirst _ ih => exact .second hfirst (ih _)

/-- Behind complete rounds of a `while`, the rounds that are left are part of it. -/
theorem whileRounds {condition : Eval Bool} {body : Frame → Eval Yield} {frame frame' : Frame}
    (h : WhileReaches condition body frame s frame' u) :
    ∃ k, ∀ condition' body', Extends condition condition' →
      (∀ frame, Extends (body frame) (body' frame)) → ∀ rounds,
      Inside J (Eval.whileRounds condition' body' rounds frame') u
        (Eval.whileRounds condition' body' (rounds + k) frame) s := by
  induction h with
  | start => exact ⟨0, fun _ _ _ _ _ => refl _ _⟩
  | round hholds hround _ ih =>
    obtain ⟨k, hk⟩ := ih
    refine ⟨k + 1, fun condition' body' hc hb rounds => ?_⟩
    exact .second (hc hholds) (.second (hb _ hround) (hk condition' body' hc hb rounds))

/-- Behind complete rounds of a `for`, the rounds that are left are part of it. -/
theorem forRounds {condition : Eval Bool} {body step : Frame → Eval Yield} {frame frame' : Frame}
    (h : ForReaches condition body step frame s frame' u) :
    ∃ k, ∀ condition' body' step', Extends condition condition' →
      (∀ frame, Extends (body frame) (body' frame)) →
      (∀ frame, Extends (step frame) (step' frame)) → ∀ rounds last, ∃ last',
      Inside J (Eval.forRounds condition' body' step' rounds frame' last') u
        (Eval.forRounds condition' body' step' (rounds + k) frame last) s := by
  induction h with
  | start => exact ⟨0, fun _ _ _ _ _ _ _ last => ⟨last, refl _ _⟩⟩
  | @round _ _ _ _ _ _ _ _ yielded _ hholds hround hstepped _ ih =>
    obtain ⟨k, hk⟩ := ih
    refine ⟨k + 1, fun condition' body' step' hc hb hs rounds last => ?_⟩
    obtain ⟨last', hinside⟩ := hk condition' body' step' hc hb hs rounds (yielded <|> last)
    exact ⟨last', .second (hc hholds) (.second (hb _ hround) (.second (hs _ hstepped) hinside))⟩

end Inside

end Eval

/-! ## Parts of tasks -/

theorem Eval.ListReaches.eq_of_singleton {evaluate : Expr → Eval Value} {e e' : Expr}
    {s u : Session} (h : ListReaches evaluate [e] s e' u) : e' = e ∧ u = s := by
  cases h with
  | head => exact ⟨rfl, rfl⟩
  | tail _ hnil => cases hnil

/-- In two lists, an expression is reached in the first one or behind it. -/
theorem Eval.ListReaches.of_append {evaluate : Expr → Eval Value} {es more : List Expr} {e : Expr}
    {s u : Session} (h : ListReaches evaluate (es ++ more) s e u) :
    ListReaches evaluate es s e u ∨ ∃ values s₁,
      evaluateAll evaluate es s = some (.ok values, s₁) ∧ ListReaches evaluate more s₁ e u := by
  induction es generalizing s with
  | nil => exact .inr ⟨[], s, rfl, h⟩
  | cons first rest ih =>
    cases h with
    | head => exact .inl (.head _ _ _)
    | @tail _ _ _ _ s₁ _ v hfirst hrest =>
      rcases ih hrest with hreach | ⟨values, s₂, hvalues, hreach⟩
      · exact .inl (.tail hfirst hreach)
      · refine .inr ⟨v :: values, s₂, bind_eq_ok_iff.2 ⟨v, s₁, hfirst, ?_⟩, hreach⟩
        exact bind_eq_ok_iff.2 ⟨values, s₂, hvalues, rfl⟩

section Tasks

variable {settings : Settings} {J : Session → Prop} (hJ : Lasting settings J) {m : Nat}

include hJ

/-! ### Calls and texts -/

theorem inside_call {task : Task} {name : String} {arguments : List Expr} {s u : Session}
    {α : Type} {y : Eval α} (hready : task.Ready s) (hcall : task.call? = some (name, arguments))
    (h : Inside J y u
      (invoke settings (evaluate settings m) (execute settings m) name arguments) s) :
    Inside J y u (task.run settings (m + 1)) s := by
  unfold Task.call? at hcall
  split at hcall
  · simp only [Option.some.injEq, Prod.mk.injEq] at hcall
    obtain ⟨rfl, rfl⟩ := hcall
    refine h.first fun yielded => ?_
    cases yielded with
    | none => exact hJ.harmless fun _ => .fail (by simp)
    | some v => exact .pure v
  · next f arguments' frame =>
    simp only [Option.some.injEq, Prod.mk.injEq] at hcall
    obtain ⟨rfl, rfl⟩ := hcall
    have hwhole := h.first (f := fun yielded => (pure (yielded, frame) : Eval Yield)) fun _ =>
      .pure _
    rw [← execute_call hready.1] at hwhole
    exact hwhole
  · exact absurd hcall (by simp)

theorem inside_arguments {name : String} {arguments : List Expr} {f : Function} {e : Expr}
    {s u : Session} (hdefined : s.functions.get? name = some f)
    (harity : f.parameters.length = arguments.length)
    (hreach : ListReaches (evaluate settings m) arguments s e u) :
    Inside J (evaluate settings m e) u
      (invoke settings (evaluate settings m) (execute settings m) name arguments) s := by
  rw [invoke_eq_callBody]
  refine .second (find_eq_ok_iff.2 ⟨hdefined, rfl⟩) ?_
  rw [if_neg (not_not_intro harity)]
  refine (Inside.evaluateAll (hJ.evaluate m) hreach).first fun values => ?_
  refine (hJ.callBody m name _ f values).bind fun result => ?_
  exact (hJ.harmless fun _ => .trace _ _).bind fun _ => .pure _

theorem inside_body {name : String} {arguments : List Expr} {f : Function} {stmt : Stmt}
    {frame : Frame} {s s₁ u : Session} (henters : Enters settings m name arguments s f s₁)
    (hreach : BlockReaches (execute settings m) f.body (.function false) s₁ stmt frame u) :
    Inside J (execute settings m stmt frame) u
      (invoke settings (evaluate settings m) (execute settings m) name arguments) s := by
  obtain ⟨hdefined, harity, values, s₀, hvalues, hdepth, rfl⟩ := henters
  rw [invoke_eq_callBody]
  refine .second (find_eq_ok_iff.2 ⟨hdefined, rfl⟩) ?_
  rw [if_neg (not_not_intro harity), ← harity]
  refine .second hvalues
    (.first (.deeper hJ.tables hdepth (.rollback hJ.tables ?_)) fun result => ?_)
  · refine .congr (entering_eq settings name f values s₀ _) ?_
    exact (Inside.executeAll (hJ.statement m) hreach none).first fun _ => .pure _
  · exact (hJ.harmless fun _ => .trace _ _).bind fun _ => .pure _

omit hJ in
theorem evaluateText_eq {code : String} {e : Expr} (hdynamic : settings.dynamic = .expression)
    (hread : (Expr.ofSource code).result = .ok e) (evaluate : Expr → Eval Value) (s : Session) :
    evaluateText settings evaluate code s =
      deeper settings.maxDepth (evaluate e) { s.reading settings code with depth := s.depth } := by
  unfold evaluateText Session.reading
  cases hverbose : settings.verbose <;>
    simp [bind, Eval.bind, trace, report, update, hverbose, hdynamic, hread]

/-! ### Operands -/

/-- What a statement evaluates first is part of it. -/
theorem inside_stmt_operand {stmt : Stmt} {frame : Frame} {e : Expr} {s u : Session}
    (hready : (Task.statement stmt frame).Ready s)
    (hreach : ListReaches (evaluate settings m) stmt.operands s e u) :
    Inside J (evaluate settings m e) u (execute settings (m + 1) stmt frame) s := by
  have he := hJ.evaluate m
  obtain ⟨hframe, hfits, hpermitted⟩ := hready
  unfold execute
  rw [if_neg hframe]
  cases stmt with
  | exit | whileLoop | forLoop | define | promote | increment => cases hreach
  | print arguments =>
    refine (Inside.evaluateAll he hreach).first fun values => hJ.harmless fun _ => ?_
    exact .bind (.writeValues values) fun _ _ => .pure _
  | branch condition thenBlock elseBlock =>
    obtain ⟨rfl, rfl⟩ := hreach.eq_of_singleton
    refine .rollback hJ.tables ((Inside.refl _ _).first fun v => ?_)
    refine (hJ.harmless fun _ => .truthy v).bind fun holds => ?_
    cases holds with
    | true => exact hJ.runBlock m thenBlock frame
    | false => exact hJ.runBlock m elseBlock frame
  | return_ value =>
    obtain ⟨rfl, rfl⟩ := hreach.eq_of_singleton
    cases frame with
    | program => exact absurd rfl hpermitted
    | function returned => exact (Inside.refl _ _).first fun _ => .pure _
  | call f arguments =>
    obtain ⟨function, hdefined, harity⟩ := hfits f arguments rfl
    exact (inside_arguments hJ hdefined harity hreach).first fun _ => .pure _
  | assign name value =>
    obtain ⟨rfl, rfl⟩ := hreach.eq_of_singleton
    refine (Inside.refl _ _).first fun v => hJ.harmless fun _ => ?_
    exact .bind (.setLocal name v) fun _ _ => .pure _
  | assignAll names values =>
    refine (Inside.evaluateAll he hreach).first fun values => hJ.harmless fun _ => ?_
    exact .bind (.update rfl rfl) fun _ _ => .pure _
  | declareGlobal name value =>
    obtain ⟨rfl, rfl⟩ := hreach.eq_of_singleton
    refine (Inside.refl _ _).first fun v => (hJ.harmless fun _ => .trace _ _).bind fun _ => ?_
    exact (hJ.setGlobal name v).bind fun _ => .pure _
  | assignIndex name indices value =>
    have hwrite (path : List Value) (v : Value) :
        Preserves J (do writePath name path v; return (none, frame) : Eval Yield) :=
      hJ.harmless fun _ => .bind (.writePath name path v) fun _ _ => .pure _
    rcases hreach.of_append with hindex | ⟨path, s₁, hpath, hvalue⟩
    · exact (Inside.evaluateAll he hindex).first fun path => (he value).bind (hwrite path)
    · obtain ⟨rfl, rfl⟩ := hvalue.eq_of_singleton
      exact .second hpath ((Inside.refl _ _).first (hwrite path))
  | append container value =>
    obtain ⟨rfl, rfl⟩ := hreach.eq_of_singleton
    refine (Inside.refl _ _).first fun c => (hJ.harmless fun _ => .target _ c).bind fun found => ?_
    refine (he value).bind fun v => hJ.harmless fun _ => ?_
    exact .bind (.appendTo _ v) fun _ _ => .pure _
  | remove container value =>
    obtain ⟨rfl, rfl⟩ := hreach.eq_of_singleton
    refine (Inside.refl _ _).first fun c => (hJ.harmless fun _ => .target _ c).bind fun found => ?_
    refine (he value).bind fun v => Preserves.bind ?_ fun _ => .pure _
    exact hJ.keeps (.removeFrom (fun _ _ => rfl) _ _ v)
  | compound name op value =>
    obtain ⟨rfl, rfl⟩ := hreach.eq_of_singleton
    obtain ⟨current, hbound⟩ := Option.isSome_iff_exists.1 hpermitted
    refine .second (find_eq_ok_iff.2 ⟨hbound, rfl⟩) ((Inside.refl _ _).first fun v => ?_)
    refine hJ.harmless fun _ => .bind (.compoundValue op current v) fun w _ => ?_
    exact .bind (.setLocal name w) fun _ _ => .pure _
  | expression e =>
    obtain ⟨rfl, rfl⟩ := hreach.eq_of_singleton
    exact (Inside.refl _ _).first fun _ => .pure _

/-- What a task evaluates first is part of it. -/
theorem inside_operand {task : Task} {e : Expr} {s u : Session} (hready : task.Ready s)
    (hreach : ListReaches (evaluate settings m) task.operands s e u) :
    Inside J (evaluate settings m e) u (task.run settings (m + 1)) s := by
  obtain ⟨he, hlist⟩ : (∀ e, Preserves J (evaluate settings m e)) ∧
      ∀ es, Preserves J (evaluateAll (evaluate settings m) es) :=
    ⟨hJ.evaluate m, fun es => .evaluateAll fun e _ => hJ.evaluate m e⟩
  cases task with
  | comparison c => cases hreach
  | expression whole =>
    cases whole with
    | int | text | name => cases hreach
    | binary op left right =>
      have hrest (l : Value) : Preserves J
          (do applyBinary op l (← evaluate settings m right)) :=
        (he right).bind fun r => hJ.keeps (.applyBinary (fun _ _ => rfl) op l r)
      cases hreach with
      | head => exact (Inside.refl _ _).first hrest
      | tail hleft hright =>
        obtain ⟨rfl, rfl⟩ := hright.eq_of_singleton
        refine .second hleft ((Inside.refl _ _).first fun r => ?_)
        exact hJ.keeps (.applyBinary (fun _ _ => rfl) op _ r)
    | call f arguments =>
      obtain ⟨function, hdefined, harity⟩ := hready f arguments rfl
      exact inside_call hJ hready rfl (inside_arguments hJ hdefined harity hreach)
    | index x indices =>
      exact (Inside.evaluateAll he hreach).first fun path => hJ.harmless fun _ => .readPath x path
    | array elements =>
      exact (Inside.evaluateAll he hreach).first fun values => hJ.harmless fun _ => .allocate values
    | eval operand =>
      obtain ⟨rfl, rfl⟩ := hreach.eq_of_singleton
      refine (Inside.refl _ _).first fun v => ?_
      cases v with
      | text code => exact hJ.evaluateText m code
      | _ => exact hJ.harmless fun _ => .fail (by simp)
    | id operand =>
      obtain ⟨rfl, rfl⟩ := hreach.eq_of_singleton
      exact (Inside.refl _ _).first fun _ => .pure _
  | statement stmt frame => exact inside_stmt_operand hJ hready hreach

/-! ### Loops

Behind complete rounds, a part of the next round is part of the loop, if the levels are enough for
one more round. -/

section Loops

variable {α : Type} {y : Nat → Eval α} {n : Nat} {condition : Expr} {body : Block}
  {frame frame₁ : Frame} {s s₁ u : Session} (hframe : frame ≠ .function true)

include hframe

theorem inside_whileLoop
    (hloop : WhileReaches (test settings n condition) (runBlock settings n body) frame s frame₁ s₁)
    (hround : ∀ m, n ≤ m → ∀ rounds, Inside J (y m) u
      (whileRounds (test settings m condition) (runBlock settings m body) (rounds + 1) frame₁) s₁) :
    ∃ N, ∀ m, N ≤ m →
      Inside J (y m) u (execute settings (m + 1) (.whileLoop condition body) frame) s := by
  obtain ⟨k, hk⟩ := Inside.whileRounds (J := J) hloop
  refine ⟨n + 1 + k, fun m hm => ?_⟩
  have hn : n ≤ m := by omega
  obtain ⟨rounds, hrounds⟩ : ∃ rounds, rounds + 1 + k = m := ⟨m - 1 - k, by omega⟩
  have hleft := hk _ _ (extends_test settings hn condition) (extends_runBlock settings hn body)
    (rounds + 1)
  rw [hrounds] at hleft
  rw [execute_whileLoop hframe]
  exact .rollback hJ.tables ((hround m hn rounds).trans hleft)

theorem inside_forLoop {init step : Stmt} {s₀ : Session} {frame₀ : Frame} {yielded : Option Value}
    (hinit : execute settings n init frame s = some (.ok (yielded, frame₀), s₀))
    (hloop : ForReaches (test settings n condition) (runBlock settings n body)
      (execute settings n step) frame₀ s₀ frame₁ s₁)
    (hround : ∀ m, n ≤ m → ∀ rounds last, Inside J (y m) u
      (forRounds (test settings m condition) (runBlock settings m body) (execute settings m step)
        (rounds + 1) frame₁ last) s₁) :
    ∃ N, ∀ m, N ≤ m → Inside J (y m) u
      (execute settings (m + 1) (.forLoop init condition step body) frame) s := by
  obtain ⟨k, hk⟩ := Inside.forRounds (J := J) hloop
  refine ⟨n + 1 + k, fun m hm => ?_⟩
  have hn : n ≤ m := by omega
  obtain ⟨rounds, hrounds⟩ : ∃ rounds, rounds + 1 + k = m := ⟨m - 1 - k, by omega⟩
  obtain ⟨last, hleft⟩ := hk _ _ _ (extends_test settings hn condition)
    (extends_runBlock settings hn body) (extends_execute settings hn step) (rounds + 1) none
  rw [hrounds] at hleft
  rw [execute_forLoop hframe]
  refine .rollback hJ.tables (.second (extends_execute settings hn init frame hinit) ?_)
  exact (hround m hn rounds last).trans hleft

end Loops

theorem inside_test (m : Nat) (condition : Expr) (s : Session) :
    Inside J (evaluate settings m condition) s (test settings m condition) s :=
  (Inside.refl _ _).first fun v => hJ.harmless fun _ => .truthy v

theorem inside_part {stmt inner : Stmt} {frame frame' : Frame} {s u : Session} {n : Nat}
    (h : Execution.PartOf settings ⟨n, inner, frame', u⟩ ⟨n + 1, stmt, frame, s⟩) :
    ∃ N, ∀ m, N ≤ m → Inside J (execute settings m inner frame') u
      (execute settings (m + 1) stmt frame) s := by
  have hblock {block : Block} {frame₁ : Frame} {s₁ : Session} (m : Nat) (hm : n ≤ m)
      (hreach : BlockReaches (execute settings n) block frame₁ s₁ inner frame' u) :
      Inside J (execute settings m inner frame') u (runBlock settings m block frame₁) s₁ :=
    .executeAll (hJ.statement m) (hreach.mono (extends_execute settings hm)) none
  cases h with
  | branch hframe htest hreach =>
    refine ⟨n, fun m hm => ?_⟩
    rw [execute_branch hframe]
    exact .rollback hJ.tables (.second (extends_test settings hm _ htest) (hblock m hm hreach))
  | whileBody hframe hloop htest hreach =>
    refine inside_whileLoop hJ hframe hloop fun m hm rounds => ?_
    refine .second (extends_test settings hm _ htest) ((hblock m hm hreach).first fun y => ?_)
    obtain ⟨_ | v, frame''⟩ := y
    · exact hJ.whileRounds m _ _ rounds frame''
    · exact .pure _
  | forInit hframe =>
    refine ⟨0, fun m _ => ?_⟩
    rw [execute_forLoop hframe]
    exact .rollback hJ.tables ((Inside.refl _ _).first fun started => hJ.forRounds m _ _ _ m _ none)
  | forBody hframe hinit hloop htest hreach =>
    refine inside_forLoop hJ hframe hinit hloop fun m hm rounds last => ?_
    refine .second (extends_test settings hm _ htest) ((hblock m hm hreach).first fun y => ?_)
    exact (hJ.statement m _ _).bind fun _ => hJ.forRounds m _ _ _ rounds _ _
  | forStep hframe hinit hloop htest hbody =>
    refine inside_forLoop hJ hframe hinit hloop fun m hm rounds last => ?_
    refine .second (extends_test settings hm _ htest) ?_
    refine .second (extends_runBlock settings hm _ _ hbody) ((Inside.refl _ _).first fun _ => ?_)
    exact hJ.forRounds m _ _ _ rounds _ _

/-! ### Comparisons -/

omit hJ in
theorem perform_inside {α : Type} {c : Comparison} {x : Eval α} {u : Session}
    (hx : Preserves J x) (hends : ∀ r t, x u = some (r, t) → c.isDecided u.heap = true) :
    Inside J c.perform u x u := by
  refine ⟨fun e v h => ?_, fun r t h => ⟨.ok (), u, ?_, hx h⟩⟩
  · unfold Comparison.perform at h
    split at h <;> simp at h
  · simp [Comparison.perform, hends r t h]

theorem inside_comparison {op : BinaryOp} {left right : Value} {c : Comparison}
    (hc : op.comparison? left right = some c) (u : Session) :
    Inside J c.perform u (applyBinary op left right) u := by
  refine perform_inside (hJ.keeps (.applyBinary (fun _ _ => rfl) op left right)) fun r t h => ?_
  cases hdecided : c.isDecided u.heap with
  | true => rfl
  | false =>
    have hnone := Heap.apply_eq_none hc hdecided
    exact absurd h (by simp [applyBinary, hnone])

theorem inside_search {h : Handle} {label : String} {v a : Value} {front rest : List Value}
    {u : Session} (hsplit : (u.heap.elements h).toList = front ++ a :: rest)
    (hfront : ∀ b ∈ front, u.heap.equal? b v = some false) :
    Inside J (Comparison.equality a v).perform u (removeFrom h label v) u := by
  refine perform_inside (hJ.keeps (.removeFrom (fun _ _ => rfl) h label v)) fun r t hend => ?_
  cases hdecided : u.heap.equal? a v with
  | some _ => simp [Comparison.isDecided, hdecided]
  | none =>
    have hnone := Heap.position?_eq_none rest hfront hdecided
    exact absurd hend (by simp [removeFrom, hsplit, hnone])

/-! ### Everything that is started -/

/-- With enough levels, what a task starts is part of the task. -/
theorem Starts.inside {a b : Point} (h : Starts settings a b) :
    ∃ N, ∀ m, N ≤ m → Inside J (b.task.run settings m) b.session
      (a.task.run settings (m + 1)) a.session := by
  cases h with
  | @operand _ _ _ _ n hready hreach =>
    refine ⟨n, fun m hm => ?_⟩
    exact inside_operand hJ hready (hreach.mono fun e => ascending_evaluate settings e hm)
  | @element stmt frame container value s s₁ u v found n hframe hstmt hcontainer hfound =>
    refine ⟨n, fun m hm => ?_⟩
    have hcontainer' := ascending_evaluate settings container hm hcontainer
    show Inside J (evaluate settings m value) u (execute settings (m + 1) stmt frame) s
    unfold execute
    rw [if_neg hframe]
    cases stmt with
    | append container' value' =>
      obtain ⟨rfl, rfl⟩ : container' = container ∧ value' = value := by
        simpa [Stmt.element?] using hstmt
      refine .second hcontainer' (.second hfound ((Inside.refl _ _).first fun v => ?_))
      exact hJ.harmless fun _ => .bind (.appendTo _ v) fun _ _ => .pure _
    | remove container' value' =>
      obtain ⟨rfl, rfl⟩ : container' = container ∧ value' = value := by
        simpa [Stmt.element?] using hstmt
      refine .second hcontainer' (.second hfound ((Inside.refl _ _).first fun v => ?_))
      exact (hJ.keeps (.removeFrom (fun _ _ => rfl) _ _ v)).bind fun _ => .pure _
    | _ => exact absurd hstmt (by simp [Stmt.element?])
  | @text operand e code s s₁ n hoperand hdynamic hread hdepth =>
    refine ⟨n, fun m hm => ?_⟩
    refine .second (ascending_evaluate settings operand hm hoperand) ?_
    refine .congr (evaluateText_eq hdynamic hread (evaluate settings m) s₁) ?_
    exact .deeper hJ.tables hdepth (.refl _ _)
  | @body task name arguments f stmt frame s s₁ u n k hready hcall henters hreach =>
    refine ⟨max n k, fun m hm => ?_⟩
    have henters' := henters.mono (Nat.le_trans (Nat.le_max_left n k) hm)
    have hreach' := hreach.mono
      (extends_execute settings (Nat.le_trans (Nat.le_max_right n k) hm))
    exact inside_call hJ hready hcall (inside_body hJ henters' hreach')
  | part hpart => exact inside_part hJ hpart
  | whileCondition hframe hloop =>
    refine inside_whileLoop hJ hframe hloop fun m _ rounds => ?_
    refine (inside_test hJ m _ _).first fun holds => ?_
    cases holds with
    | false => exact .pure _
    | true => exact hJ.whileRest m (hJ.whileRounds m _ _ rounds) _
  | forCondition hframe hinit hloop =>
    refine inside_forLoop hJ hframe hinit hloop fun m _ rounds last => ?_
    refine (inside_test hJ m _ _).first fun holds => ?_
    cases holds with
    | false => exact .pure _
    | true =>
      exact (hJ.runBlock m _ _).bind fun y => (hJ.statement m _ _).bind fun _ =>
        hJ.forRounds m _ _ _ rounds _ _
  | @comparison op left right l r c s s₁ u n hleft hright hc =>
    refine ⟨n, fun m hm => ?_⟩
    exact .second (ascending_evaluate settings left hm hleft)
      (.second (ascending_evaluate settings right hm hright) (inside_comparison hJ hc u))
  | @search container value frame c v a h label front rest s s₁ s₂ u n hframe hcontainer hfound
      hvalue hsplit hfront =>
    refine ⟨n, fun m hm => ?_⟩
    have hcontainer' := ascending_evaluate settings container hm hcontainer
    have hvalue' := ascending_evaluate settings value hm hvalue
    show Inside J _ u (execute settings (m + 1) (.remove container value) frame) s
    unfold execute
    rw [if_neg hframe]
    refine .second hcontainer' (.second hfound (.second hvalue' ?_))
    exact (inside_search hJ hsplit hfront).first fun _ => .pure _

/-- What a program comes to is part of the program, with enough levels for both. -/
theorem ComesTo.inside {program : Block} {s : Session} {a : Point}
    (h : ComesTo settings program s a) :
    ∃ N k, ∀ m, N ≤ m → Inside J (a.task.run settings m) a.session
      (runBlock settings (m + k) program .program) s := by
  obtain ⟨n, stmt, frame, u, hreach, hstarts⟩ := h
  induction hstarts with
  | refl =>
    refine ⟨n, 0, fun m hm => ?_⟩
    exact .executeAll (hJ.statement m) (hreach.mono (extends_execute settings hm)) none
  | tail _ hstep ih =>
    obtain ⟨N, k, hinside⟩ := ih
    obtain ⟨M, hlast⟩ := hstep.inside hJ
    refine ⟨max N M, k + 1, fun m hm => ?_⟩
    have hN : N ≤ m + 1 := by omega
    have hM : M ≤ m := by omega
    have hwhole := hinside (m + 1) hN
    rw [Nat.add_right_comm, Nat.add_assoc] at hwhole
    exact (hlast m hM).trans hwhole

/-- Where a run ends, everything that it came to has ended, and what has lasted since then lasts. -/
theorem ComesTo.ends {program : Block} {s t : Session} {a : Point} {levels : Nat}
    {r : Except RuntimeError Outcome} (h : ComesTo settings program s a)
    (hrun : run settings levels program s = some (r, t)) :
    ∃ q v, Ends (fun n => a.task.run settings n) a.session q v ∧ (J v → J t) := by
  obtain ⟨N, k, hinside⟩ := h.inside hJ
  have hmore := ascending_run settings program (Nat.le_add_left levels (N + k)) hrun
  obtain ⟨q, u, hblock, hend⟩ := exists_of_run hmore
  obtain rfl := eq_of_conclude hend
  rw [Nat.add_right_comm] at hblock
  obtain ⟨q', v, hv, hlasts⟩ :=
    (hinside (N + levels) (Nat.le_add_right N levels)).ends q t hblock
  exact ⟨q', v, ⟨_, hv⟩, hlasts⟩

end Tasks

/-- An error of something that a program comes to is the error of the program: nothing catches it,
    and nothing is bound or written any more. -/
theorem ComesTo.error {settings : Settings} {program : Block} {s v : Session} {a : Point} {n : Nat}
    {e : RuntimeError} (h : ComesTo settings program s a)
    (herror : a.task.run settings n a.session = some (.error e, v)) :
    ∃ levels t, runBlock settings levels program .program s = some (.error e, t) ∧
      t.globals = v.globals ∧ t.functions = v.functions ∧ t.sink = v.sink := by
  obtain ⟨N, k, hinside⟩ := h.inside (lasting_true settings)
  have hmore := extends_task settings (Nat.le_add_left n N) a.task herror
  obtain ⟨t, ht, htables⟩ := (hinside (N + n) (Nat.le_add_right N n)).error e v hmore
  exact ⟨_, t, ht, htables⟩

end Scriptlet
