import Mathlib.Data.Option.Basic
import Mathlib.Order.Basic
import Scriptlet.Proofs.ClosedWorld
import Scriptlet.Proofs.ValueKinds

set_option autoImplicit false

/-! # Where floats and truth values come from

Only division makes floats and only comparisons make truth values. So if no value of the kind occurs
at the start, and no statement in sight contains such an operator or an `eval`, none ever occurs:
neither in the bindings nor in an array nor as the result of anything.

The invariant is `Session.Confined`. It speaks of a fixed set of arrays, those that the session
reaches at the start and all that are made later, so that values which are only on their way, the
operands that have been evaluated and the bindings of callers, are covered without being mentioned.
Every expression and every statement in sight secures it together with its result
(`secures_evaluate_execute`), and what is handed on to the tasks started in between is
`sustained_confined`. -/

namespace Scriptlet

open Eval

/-! ## Programs -/

/-- The expression applies an operator that makes values of the kind, or it is an `eval`. -/
def Expr.makes (k : Kind) : Expr → Bool
  | binary op _ _ => op.makes k
  | eval _ => true
  | _ => false

/-- The operator of a compound assignment. -/
def Stmt.operator? : Stmt → Option BinaryOp
  | compound _ op _ => some (.arithmetic op)
  | _ => none

/-- The statement contains an operator that makes values of the kind, or an `eval`; what stands in
    the statements inside it does not count. -/
def Stmt.makes (k : Kind) (stmt : Stmt) : Bool :=
  stmt.operator?.any (·.makes k) ||
    stmt.expressions.any fun e => !e.everywhere (!Expr.makes k ·)

/-- No such operator and no `eval` stands in the task. -/
def Task.Spares (k : Kind) : Task → Prop
  | expression e => e.everywhere (!Expr.makes k ·) = true
  | statement stmt _ => stmt.everywhere (!Stmt.makes k ·) = true
  | comparison _ => True

/-- The task results in the value: an expression has it, or a statement yields it. -/
def Task.Gives : (task : Task) → Except RuntimeError task.Result → Value → Prop
  | expression _, r, v => r = .ok v
  | statement _ _, r, v => ∃ frame, r = .ok (some v, frame)
  | comparison _, _, _ => False

/-! ## Sessions -/

/-- The session reaches the array: a name is bound to it, or it is an element of another one that is
    reached. -/
inductive Session.Reaches (s : Session) : Handle → Prop
  | ofLocal {name : String} {h : Handle} : s.locals.get? name = some (.array h) → Reaches s h
  | ofGlobal {name : String} {h : Handle} : s.globals.get? name = some (.array h) → Reaches s h
  | element {a h : Handle} : Reaches s a → .array h ∈ s.heap.elements a → Reaches s h

/-- The arrays that may be in use in `t`, some time after `s`: those that either session reaches,
    and whatever was made since, also if it is only on its way or bound in a caller. -/
def Session.InUse (s t : Session) (h : Handle) : Prop :=
  s.Reaches h ∨ t.Reaches h ∨ s.heap.cells.size ≤ h.index

/-- No value of the kind occurs in the local bindings, in the global ones or in one of the
    arrays. -/
structure Session.Lacks (k : Kind) (arrays : Handle → Prop) (s : Session) : Prop where
  locals : ∀ name v, s.locals.get? name = some v → v.kind ≠ k
  globals : ∀ name v, s.globals.get? name = some v → v.kind ≠ k
  elements : ∀ h, arrays h → ∀ v ∈ s.heap.elements h, v.kind ≠ k

/-- All that is in the tables and in the heap is more than what can be reached, and can be
    checked. -/
theorem Session.lacks_of_entries {k : Kind} {s : Session}
    (hlocals : ∀ entry ∈ s.locals.entries, entry.2.kind ≠ k)
    (hglobals : ∀ entry ∈ s.globals.entries, entry.2.kind ≠ k)
    (hcells : ∀ cell ∈ s.heap.cells, ∀ v ∈ cell, v.kind ≠ k) (arrays : Handle → Prop) :
    s.Lacks k arrays := by
  refine ⟨fun name v hv => ?_, fun name v hv => ?_, fun h _ v hv => ?_⟩
  · obtain ⟨entry, hfound, rfl⟩ := Option.map_eq_some_iff.1 hv
    exact hlocals entry (List.mem_of_find?_eq_some hfound)
  · obtain ⟨entry, hfound, rfl⟩ := Option.map_eq_some_iff.1 hv
    exact hglobals entry (List.mem_of_find?_eq_some hfound)
  · by_cases hmade : h.index < s.heap.cells.size
    · rw [Heap.elements, Array.getD, dif_pos hmade] at hv
      exact hcells _ (Array.getElem_mem hmade) v hv
    · rw [Heap.elements_of_le (Nat.le_of_not_lt hmade)] at hv
      exact absurd hv (Array.not_mem_empty v)

/-- Everything in the session is confined, and no function makes values of the kind. -/
structure Session.Confined (k : Kind) (arrays : Handle → Prop) (s : Session) : Prop where
  locals : s.locals.Confined k arrays
  globals : s.globals.Confined k arrays
  heap : s.heap.Confined k arrays
  functions : s.Everywhere (!Stmt.makes k ·)

variable {k : Kind} {arrays : Handle → Prop}

namespace Session.Confined

variable {s : Session}

/-- What a confined session reaches is among the given arrays. -/
theorem of_reaches (hs : s.Confined k arrays) {h : Handle} (hreach : s.Reaches h) : arrays h := by
  induction hreach with
  | ofLocal hbound => exact (hs.locals _ _ hbound).handle _ rfl
  | ofGlobal hbound => exact (hs.globals _ _ hbound).handle _ rfl
  | element _ hmem ih => exact (hs.heap.elements _ ih _ hmem).handle _ rfl

theorem lacks (hs : s.Confined k arrays) : s.Lacks k arrays where
  locals name v hv := (hs.locals name v hv).kind
  globals name v hv := (hs.globals name v hv).kind
  elements h hh v hv := (hs.heap.elements h hh v hv).kind

/-- Where no value of the kind occurs, everything is confined to the arrays in use. -/
theorem of_lacks (hlacks : s.Lacks k s.Reaches) (hfunctions : s.Everywhere (!Stmt.makes k ·)) :
    s.Confined k fun h => s.Reaches h ∨ s.heap.cells.size ≤ h.index where
  locals name v hv := ⟨hlacks.locals name v hv, by rintro h rfl; exact .inl (.ofLocal hv)⟩
  globals name v hv := ⟨hlacks.globals name v hv, by rintro h rfl; exact .inl (.ofGlobal hv)⟩
  heap := by
    refine ⟨fun a ha v hv => ?_, fun h hh => .inr hh⟩
    rcases ha with hreach | hunmade
    · refine ⟨hlacks.elements a hreach v hv, ?_⟩
      rintro h rfl
      exact .inl (.element hreach hv)
    · rw [Heap.elements_of_le hunmade] at hv
      exact absurd hv (Array.not_mem_empty v)
  functions := hfunctions

theorem lookup? (hs : s.Confined k arrays) {name : String} {v : Value}
    (hv : s.lookup? name = some v) : v.Confined k arrays := by
  rcases (Option.orElse_eq_some ..).1 hv with hlocal | ⟨-, hglobal⟩
  · exact hs.locals name v hlocal
  · exact hs.globals name v hglobal

end Session.Confined

/-! ## Actions -/

namespace Eval

section Actions

variable {α : Type} {P : α → Prop} {v : Value} {h : Handle}

/-- What leaves bindings, arrays and functions alone leaves everything confined. -/
theorem confined_of_keeps {x : Eval α}
    (hx : Keeps (fun s => (s.locals, s.globals, s.heap, s.functions)) x) :
    Preserves (Session.Confined k arrays) x := by
  intro s r t h hs
  have hsame : (t.locals, t.globals, t.heap, t.functions) =
      (s.locals, s.globals, s.heap, s.functions) := hx h
  simp only [Prod.mk.injEq] at hsame
  obtain ⟨hlocals, hglobals, hheap, hfunctions⟩ := hsame
  refine ⟨hlocals ▸ hs.locals, hglobals ▸ hs.globals, hheap ▸ hs.heap, ?_⟩
  unfold Session.Everywhere
  rw [hfunctions]
  exact hs.functions

theorem confined_trace (settings : Settings) (t : Session → Trace) :
    Preserves (Session.Confined k arrays) (trace settings t) :=
  confined_of_keeps (.trace (fun _ _ => rfl) settings t)

theorem confined_writeLine (line : String) :
    Preserves (Session.Confined k arrays) (writeLine line) :=
  confined_of_keeps (.writeLine (fun _ _ => rfl) line)

theorem confined_writeValues (values : List Value) :
    Preserves (Session.Confined k arrays) (writeValues values) :=
  confined_of_keeps (.writeValues (fun _ _ => rfl) values)

theorem confined_setLocal (name : String) (hv : v.Confined k arrays) :
    Preserves (Session.Confined k arrays) (setLocal name v) :=
  .update fun _ hs => { hs with locals := hs.locals.insert name hv }

theorem confined_setGlobal (name : String) (hv : v.Confined k arrays) :
    Preserves (Session.Confined k arrays) (setGlobal name v) :=
  .update fun _ hs => { hs with globals := hs.globals.insert name hv }

theorem secures_getLocal (name : String) :
    Secures (Session.Confined k arrays) (Value.Confined k arrays) (getLocal name) :=
  .find fun _ v hs hv => hs.locals name v hv

theorem secures_lookup (name : String) :
    Secures (Session.Confined k arrays) (Value.Confined k arrays)
      (find (·.lookup? name) fun _ => .variableNotFound name) :=
  .find fun _ _ hs hv => hs.lookup? hv

theorem secures_arrayNamed (name : String) :
    Secures (Session.Confined k arrays) arrays (arrayNamed name) := by
  refine (secures_lookup name).bind fun v hv => ?_
  cases v with
  | array h => exact .pure (hv.handle h rfl)
  | _ => exact .fail _

theorem secures_target (e : Expr) (hv : v.Confined k arrays) :
    Secures (Session.Confined k arrays) (fun found => arrays found.1) (target e v) := by
  cases v with
  | array h => exact .pure (hv.handle h rfl)
  | text name => exact (secures_arrayNamed name).bind fun h hh => .pure hh
  | _ => exact .fail _

theorem confined_appendTo (hh : arrays h) (hv : v.Confined k arrays) :
    Preserves (Session.Confined k arrays) (appendTo h v) :=
  .update fun _ hs => { hs with heap := hs.heap.push hh hv }

theorem confined_removeFrom (hh : arrays h) (label : String) (v : Value) :
    Preserves (Session.Confined k arrays) (removeFrom h label v) := by
  intro s r t ht hs
  unfold removeFrom at ht
  split at ht
  · exact absurd ht (by simp)
  · simp only [Option.some.injEq, Prod.mk.injEq] at ht
    exact ht.2 ▸ hs
  · simp only [Option.some.injEq, Prod.mk.injEq] at ht
    exact ht.2 ▸ { hs with heap := hs.heap.erase hh _ }

/-- What goes on inside may bind other names, which does not matter behind it. -/
theorem Secures.rollback {x : Eval α} (hx : Secures (Session.Confined k arrays) P x) :
    Secures (Session.Confined k arrays) P (Eval.rollback x) := by
  intro s r t h hs
  obtain ⟨u, hu, rfl⟩ := rollback_eq_some_iff.1 h
  obtain ⟨hu, hresult⟩ := hx hu hs
  exact ⟨{ hu with locals := hs.locals }, hresult⟩

theorem Secures.deeper (limit : Nat) {x : Eval α} (hx : Secures (Session.Confined k arrays) P x) :
    Secures (Session.Confined k arrays) P (Eval.deeper limit x) := by
  intro s r t h hs
  rcases deeper_eq_some h with ⟨-, rfl, rfl⟩ | ⟨u, hu, rfl⟩
  · exact ⟨hs, by simp⟩
  · obtain ⟨hu, hresult⟩ := hx hu ⟨hs.locals, hs.globals, hs.heap, hs.functions⟩
    exact ⟨⟨hu.locals, hu.globals, hu.heap, hu.functions⟩, hresult⟩

section Kinds

variable (hk : k = .float ∨ k = .bool)

include hk

theorem secures_resolve (name : String) :
    Secures (Session.Confined k arrays) (Value.Confined k arrays) (resolve name) := by
  refine .find fun s v hs hv => ?_
  rcases (Option.orElse_eq_some ..).1 hv with hbound | ⟨-, hquoted⟩
  · exact hs.lookup? hbound
  · obtain ⟨text, -, rfl⟩ := Option.map_eq_some_iff.1 hquoted
    exact Value.confined_text hk text

theorem secures_allocate {values : List Value} (hvalues : ∀ v ∈ values, v.Confined k arrays) :
    Secures (Session.Confined k arrays) (Value.Confined k arrays) (allocate values) := by
  intro s r t ht hs
  simp only [allocate, Option.some.injEq, Prod.mk.injEq] at ht
  obtain ⟨rfl, rfl⟩ := ht
  have helements : ∀ v ∈ values.toArray, v.Confined k arrays := by
    intro v hv
    exact hvalues v (List.mem_toArray.1 hv)
  have hnew := hs.heap.allocValue hk helements
  refine ⟨{ hs with heap := hnew.2 }, ?_⟩
  rintro _ ⟨⟩
  exact hnew.1

theorem secures_applyBinary {op : BinaryOp} (hop : op.makes k = false) {left right : Value}
    (hleft : left.Confined k arrays) (hright : right.Confined k arrays) :
    Secures (Session.Confined k arrays) (Value.Confined k arrays)
      (applyBinary op left right) := by
  intro s r t ht hs
  unfold applyBinary at ht
  split at ht
  · exact absurd ht (by simp)
  · simp only [Option.some.injEq, Prod.mk.injEq] at ht
    obtain ⟨rfl, rfl⟩ := ht
    exact ⟨hs, by simp⟩
  · next v heap hresult =>
    simp only [Option.some.injEq, Prod.mk.injEq] at ht
    obtain ⟨rfl, rfl⟩ := ht
    have hnew := hs.heap.apply hk hleft hright hop hresult
    refine ⟨{ hs with heap := hnew.2 }, ?_⟩
    rintro _ ⟨⟩
    exact hnew.1

theorem secures_readPath (name : String) (path : List Value) :
    Secures (Session.Confined k arrays) (Value.Confined k arrays) (readPath name path) := by
  refine (secures_lookup name).bind fun start hstart => .find fun s v hs hv => ?_
  exact hs.heap.follow? hk hstart hv

theorem confined_writePath (name : String) (path : List Value) (hv : v.Confined k arrays) :
    Preserves (Session.Confined k arrays) (writePath name path v) := by
  have hwritten (h : Handle) (hh : arrays h) :
      Secures (Session.Confined k arrays) (Heap.Confined k arrays)
        (find (·.heap.write? h v path) (pathFailure name h path)) :=
    .find fun _ _ hs hwrite => hs.heap.write? hk hh hv hwrite
  refine Secures.preserves (P := fun _ => True) ((secures_arrayNamed name).bind fun h hh => ?_)
  refine (hwritten h hh).bind fun heap hheap => Preserves.secures ?_
  exact .update fun _ hs => { hs with heap := hheap }

/-- Stepping a variable adds to a number, and adding makes neither kind. -/
theorem confined_stepLocal (name : String) (direction : Direction) :
    Preserves (Session.Confined k arrays) (stepLocal name direction) := by
  have hadd : (BinaryOp.arithmetic .add).makes k = false := by rcases hk with rfl | rfl <;> rfl
  refine Secures.preserves (P := fun _ => True) ((secures_getLocal name).bind fun v hv => ?_)
  cases v.number? with
  | none => exact .fail _
  | some n =>
    refine (secures_applyBinary hk hadd hv (Value.confined_int hk _)).bind fun w hw => ?_
    exact (confined_setLocal name hw).secures

theorem secures_compoundValue {op : Arithmetic} (hop : (BinaryOp.arithmetic op).makes k = false)
    {current : Value} (hcurrent : current.Confined k arrays) (hv : v.Confined k arrays) :
    Secures (Session.Confined k arrays) (Value.Confined k arrays)
      (compoundValue op current v) := by
  unfold compoundValue
  split
  · next h extra =>
    have hextended : Preserves (Session.Confined k arrays)
        (Eval.update fun s => { s with heap := s.heap.modify h (· ++ s.heap.elements extra) }) :=
      .update fun s hs =>
        { hs with heap := hs.heap.extend (hcurrent.handle h rfl) (hv.handle extra rfl) }
    exact .after hextended fun _ => .pure hcurrent
  · exact secures_applyBinary hk hop hcurrent hv

end Kinds

end Actions

end Eval

/-! ## Tasks -/

theorem Task.not_spares_eval {operand : Expr} : ¬ (Task.expression (.eval operand)).Spares k := by
  intro h
  have hown := (Expr.everywhere_iff.1 h).1
  simp [Expr.makes] at hown

/-- What a statement that spares the kind consists of itself. -/
theorem Task.Spares.own {stmt : Stmt} {frame : Frame} (h : (Task.statement stmt frame).Spares k) :
    (∀ op, stmt.operator? = some op → op.makes k = false) ∧
      ∀ e ∈ stmt.expressions, (Task.expression e).Spares k := by
  have hown : (!stmt.makes k) = true := Stmt.of_everywhere h
  simp only [Stmt.makes, Bool.not_eq_true', Bool.or_eq_false_iff, List.any_eq_false,
    Bool.not_eq_false] at hown
  refine ⟨fun op hop => ?_, hown.2⟩
  simpa [hop] using hown.1

/-- What stands in a task that spares the kind spares it, too; no text is ever evaluated. -/
theorem Task.inherited_spares (k : Kind) : Inherited (Task.Spares k) where
  operand _ h c hmem := (Expr.everywhere_iff.1 h).2 c hmem
  expression _ _ h := h.own.2
  statement _ _ h _ hmem _ := Stmt.everywhere_inside h hmem
  text _ _ _ h _ := absurd h Task.not_spares_eval
  comparison _ := trivial

theorem Task.Spares.arguments {task : Task} (h : task.Spares k) {name : String}
    {arguments : List Expr} (hcall : task.call? = some (name, arguments)) :
    ∀ e ∈ arguments, (Task.expression e).Spares k := by
  unfold Task.call? at hcall
  split at hcall
  · simp only [Option.some.injEq, Prod.mk.injEq] at hcall
    obtain ⟨rfl, rfl⟩ := hcall
    exact (Task.inherited_spares k).operand h
  · simp only [Option.some.injEq, Prod.mk.injEq] at hcall
    obtain ⟨rfl, rfl⟩ := hcall
    exact h.own.2
  · exact absurd hcall (by simp)

/-! ### One level -/

section Level

variable (hk : k = .float ∨ k = .bool) {settings : Settings} {n : Nat}
  (he : ∀ e, (Task.expression e).Spares k →
    Secures (Session.Confined k arrays) (Value.Confined k arrays) (evaluate settings n e))
  (hx : ∀ stmt frame, (Task.statement stmt frame).Spares k →
    Secures (Session.Confined k arrays) (Yields (Value.Confined k arrays))
      (execute settings n stmt frame))

include he

theorem secures_operands {es : List Expr} (hes : ∀ e ∈ es, (Task.expression e).Spares k) :
    Secures (Session.Confined k arrays) (fun values => ∀ v ∈ values, v.Confined k arrays)
      (evaluateAll (evaluate settings n) es) :=
  .evaluateAll fun e hmem => he e (hes e hmem)

theorem confined_test {condition : Expr} (h : (Task.expression condition).Spares k) :
    Preserves (Session.Confined k arrays) (test settings n condition) :=
  (he condition h).preserves.bind fun v => .of_keeps (.truthy v)

include hx

/-- The parameters are bound to confined values, and the body is one of those that are defined. -/
theorem secures_invoke (name : String) {arguments : List Expr}
    (harguments : ∀ e ∈ arguments, (Task.expression e).Spares k) :
    Secures (Session.Confined k arrays) (fun result => ∀ v ∈ result, v.Confined k arrays)
      (invoke settings (evaluate settings n) (execute settings n) name arguments) := by
  unfold invoke
  have hdefined : Secures (Session.Confined k arrays)
      (fun f => ∀ stmt ∈ f.body, ∀ frame, (Task.statement stmt frame).Spares k)
      (find (·.functions.get? name) fun _ => .functionNotFound name) :=
    .find fun s f hs hf => hs.functions.offers name f hf
  refine hdefined.bind fun f hbody => ?_
  split
  · exact .fail _
  · refine (secures_operands he harguments).bind fun values hvalues => ?_
    refine Secures.bind (P := fun result => ∀ v ∈ result, v.Confined k arrays) ?_
      fun result hresult => .after (confined_trace _ _) fun _ => .pure hresult
    refine .deeper _ (.rollback (.after (confined_trace _ _) fun _ => ?_))
    refine .after (.update fun s hs => ?_) fun _ => ?_
    · exact { hs with locals := Bindings.Confined.empty.insertAll f.parameters hvalues }
    · refine (Secures.executeAll (fun stmt hmem frame => hx stmt frame (hbody stmt hmem frame)) _
        (yields_none _)).bind fun y hy => .pure hy

omit he in
theorem secures_runBlock {block : Block}
    (h : ∀ stmt ∈ block, ∀ frame, (Task.statement stmt frame).Spares k) (frame : Frame) :
    Secures (Session.Confined k arrays) (Yields (Value.Confined k arrays))
      (runBlock settings n block frame) :=
  .executeAll (fun stmt hmem frame => hx stmt frame (h stmt hmem frame)) frame
    (yields_none frame)

section Loops

variable {condition : Expr} {frame : Frame}

theorem secures_whileLoop {body : Block}
    (h : (Task.statement (.whileLoop condition body) frame).Spares k) :
    Secures (Session.Confined k arrays) (Yields (Value.Confined k arrays))
      (rollback <| whileRounds (test settings n condition) (runBlock settings n body) n frame) := by
  have hinherited := Task.inherited_spares k
  have hcondition := hinherited.expression h condition (by simp [Stmt.expressions])
  have hbody : ∀ stmt ∈ body, ∀ frame, (Task.statement stmt frame).Spares k := by
    intro stmt hmem
    exact hinherited.statement h stmt (.inl hmem)
  exact .rollback (.whileRounds (confined_test he hcondition) (secures_runBlock hx hbody) n frame)

theorem secures_forLoop {init step : Stmt} {body : Block}
    (h : (Task.statement (.forLoop init condition step body) frame).Spares k) :
    Secures (Session.Confined k arrays) (Yields (Value.Confined k arrays))
      (rollback do
        let started ← execute settings n init frame
        forRounds (test settings n condition) (runBlock settings n body) (execute settings n step) n
          started.2 none) := by
  have hinherited := Task.inherited_spares k
  have hcondition := hinherited.expression h condition (by simp [Stmt.expressions])
  have hbody : ∀ stmt ∈ body, ∀ frame, (Task.statement stmt frame).Spares k := by
    intro stmt hmem
    exact hinherited.statement h stmt (.inl hmem)
  have hclause (clause : Stmt) (hmem : clause ∈ [init, step]) (frame' : Frame) :
      Preserves (Session.Confined k arrays) (execute settings n clause frame') :=
    (hx clause frame' (hinherited.statement h clause (.inr hmem) frame')).preserves
  refine .rollback (.after (hclause init (by simp) frame) fun started => ?_)
  exact .forRounds (confined_test he hcondition) (secures_runBlock hx hbody)
    (hclause step (by simp)) n _ (yields_none _)

end Loops

include hk

theorem secures_evaluate {e : Expr} (h : (Task.expression e).Spares k) :
    Secures (Session.Confined k arrays) (Value.Confined k arrays)
      (evaluate settings (n + 1) e) := by
  have hinside := (Task.inherited_spares k).operand h
  cases e with
  | int m => exact .pure (Value.confined_int hk m)
  | text s => exact .pure (Value.confined_text hk s)
  | name x => exact secures_resolve hk x
  | binary op left right =>
    have hop : op.makes k = false := by simpa [Expr.makes] using (Expr.everywhere_iff.1 h).1
    refine (he left (hinside _ (by simp [Expr.operands]))).bind fun l hl => ?_
    refine (he right (hinside _ (by simp [Expr.operands]))).bind fun r hr => ?_
    exact secures_applyBinary hk hop hl hr
  | call f arguments =>
    refine (secures_invoke he hx f hinside).bind fun result hresult => ?_
    cases result with
    | none => exact .fail _
    | some v => exact .pure (hresult v rfl)
  | index x indices =>
    exact (secures_operands he hinside).bind fun path _ => secures_readPath hk x path
  | array elements => exact (secures_operands he hinside).bind fun values => secures_allocate hk
  | eval operand => exact absurd h Task.not_spares_eval
  | id operand =>
    refine (he operand (hinside _ (by simp [Expr.operands]))).bind fun v _ => ?_
    exact .pure (Value.confined_int hk _)

theorem secures_execute {stmt : Stmt} {frame : Frame} (h : (Task.statement stmt frame).Spares k) :
    Secures (Session.Confined k arrays) (Yields (Value.Confined k arrays))
      (execute settings (n + 1) stmt frame) := by
  have hinherited := Task.inherited_spares k
  have hown (e : Expr) (hmem : e ∈ stmt.expressions) :
      Secures (Session.Confined k arrays) (Value.Confined k arrays) (evaluate settings n e) :=
    he e (hinherited.expression h e hmem)
  have hall {es : List Expr} (hmem : ∀ e ∈ es, e ∈ stmt.expressions) :
      Secures (Session.Confined k arrays) (fun values => ∀ v ∈ values, v.Confined k arrays)
        (evaluateAll (evaluate settings n) es) :=
    .evaluateAll fun e he => hown e (hmem e he)
  have hblock {block : Block} (hmem : ∀ inner ∈ block, inner ∈ stmt.inBlocks) (frame' : Frame) :
      Secures (Session.Confined k arrays) (Yields (Value.Confined k arrays))
        (runBlock settings n block frame') := by
    refine secures_runBlock hx (fun inner hinner => ?_) frame'
    exact hinherited.statement h inner (.inl (hmem inner hinner))
  unfold execute
  split
  · exact .pure (yields_none frame)
  · cases stmt with
    | exit => exact .after (confined_writeLine _) fun _ => .fail _
    | print arguments =>
      refine (hall fun e he => he).bind fun values _ => ?_
      exact .done (confined_writeValues values) frame
    | branch condition thenBlock elseBlock =>
      refine .rollback ((hown condition (by simp [Stmt.expressions])).bind fun v _ => ?_)
      refine .after (.of_keeps (.truthy v)) fun holds => ?_
      cases holds with
      | true => exact hblock (by simp +contextual [Stmt.inBlocks]) frame
      | false => exact hblock (by simp +contextual [Stmt.inBlocks]) frame
    | whileLoop condition body => exact secures_whileLoop he hx h
    | forLoop init condition step body => exact secures_forLoop he hx h
    | define name parameters body =>
      refine .after (confined_trace _ _) fun _ => .done (.update fun s hs => ?_) frame
      exact { hs with functions := Session.Everywhere.define hs.functions h }
    | return_ value =>
      cases frame with
      | program => exact .fail _
      | function returned =>
        refine (hown value (by simp [Stmt.expressions])).bind fun v hv => .pure ?_
        simpa [Yields] using hv
    | call f arguments =>
      have harguments := hinherited.expression h
      refine (secures_invoke he hx f harguments).bind fun yielded hyielded => .pure hyielded
    | assign name value =>
      refine (hown value (by simp [Stmt.expressions])).bind fun v hv => ?_
      exact .done (confined_setLocal name hv) frame
    | assignAll names values =>
      refine (hall fun e he => he).bind fun vs hvs => .done (.update fun s hs => ?_) frame
      exact { hs with locals := hs.locals.insertAll names hvs }
    | declareGlobal name value =>
      refine (hown value (by simp [Stmt.expressions])).bind fun v hv => ?_
      exact .after (confined_trace _ _) fun _ => .done (confined_setGlobal name hv) frame
    | promote name =>
      refine (secures_getLocal name).bind fun v hv => ?_
      exact .after (confined_trace _ _) fun _ => .done (confined_setGlobal name hv) frame
    | assignIndex name indices value =>
      refine (hall fun e he => by simp [Stmt.expressions, he]).bind fun path _ => ?_
      refine (hown value (by simp [Stmt.expressions])).bind fun v hv => ?_
      exact .done (confined_writePath hk name path hv) frame
    | append container value =>
      refine (hown container (by simp [Stmt.expressions])).bind fun c hc => ?_
      refine (secures_target container hc).bind fun found hfound => ?_
      refine (hown value (by simp [Stmt.expressions])).bind fun v hv => ?_
      exact .done (confined_appendTo hfound hv) frame
    | remove container value =>
      refine (hown container (by simp [Stmt.expressions])).bind fun c hc => ?_
      refine (secures_target container hc).bind fun found hfound => ?_
      refine (hown value (by simp [Stmt.expressions])).bind fun v _ => ?_
      exact .done (confined_removeFrom hfound _ v) frame
    | increment name direction => exact .done (confined_stepLocal hk name direction) frame
    | compound name op value =>
      have hop : (BinaryOp.arithmetic op).makes k = false := h.own.1 _ rfl
      refine (secures_getLocal name).bind fun current hcurrent => ?_
      refine (hown value (by simp [Stmt.expressions])).bind fun v hv => ?_
      refine (secures_compoundValue hk hop hcurrent hv).bind fun w hw => ?_
      exact .done (confined_setLocal name hw) frame
    | expression e =>
      refine (hown e (by simp [Stmt.expressions])).bind fun _ _ => ?_
      exact .pure (yields_none frame)

end Level

/-! ### All levels -/

section Levels

variable (hk : k = .float ∨ k = .bool) (settings : Settings)

include hk

/-- The walk: what spares the kind keeps the session confined and gives confined values. -/
theorem secures_evaluate_execute (n : Nat) :
    (∀ e, (Task.expression e).Spares k →
      Secures (Session.Confined k arrays) (Value.Confined k arrays) (evaluate settings n e)) ∧
    ∀ stmt frame, (Task.statement stmt frame).Spares k →
      Secures (Session.Confined k arrays) (Yields (Value.Confined k arrays))
        (execute settings n stmt frame) := by
  induction n with
  | zero => exact ⟨fun _ _ => .never, fun _ _ _ => .never⟩
  | succ n ih =>
    obtain ⟨he, hx⟩ := ih
    exact ⟨fun _ h => secures_evaluate hk he hx h, fun _ _ h => secures_execute hk he hx h⟩

/-- Being confined is handed on to everything that is started. -/
theorem sustained_confined :
    Sustained settings (Task.Spares k) (Session.Confined k arrays) where
  toInherited := Task.inherited_spares k
  offers _ hs := hs.functions.offers
  evaluate e h n := ((secures_evaluate_execute hk settings n).1 e h).preserves
  execute stmt frame h n := ((secures_evaluate_execute hk settings n).2 stmt frame h).preserves
  enters := by
    rintro task n name arguments s f t htask hcall ⟨-, -, values, s₀, hvalues, -, rfl⟩ hs
    obtain ⟨hs₀, hresult⟩ :=
      secures_operands (secures_evaluate_execute hk settings n).1 (htask.arguments hcall) hvalues hs
    refine ⟨?_, hs₀.globals, hs₀.heap, hs₀.functions⟩
    exact Bindings.Confined.empty.insertAll f.parameters (hresult values rfl)
  reading _ _ _ h := absurd h Task.not_spares_eval

/-- Whatever spares the kind keeps the session confined and results in confined values. -/
theorem secures_task {task : Task} (h : task.Spares k) (n : Nat) {s t : Session}
    {r : Except RuntimeError task.Result} (hend : task.run settings n s = some (r, t))
    (hs : s.Confined k arrays) :
    t.Confined k arrays ∧ ∀ v, task.Gives r v → v.Confined k arrays := by
  cases task with
  | expression e => exact (secures_evaluate_execute hk settings n).1 e h hend hs
  | statement stmt frame =>
    obtain ⟨ht, hresult⟩ := (secures_evaluate_execute hk settings n).2 stmt frame h hend hs
    refine ⟨ht, ?_⟩
    rintro v ⟨frame', rfl⟩
    exact hresult _ rfl v rfl
  | comparison c =>
    refine ⟨Preserves.of_keeps c.keeps_perform hend hs, ?_⟩
    rintro v ⟨⟩

end Levels

/-! ## Runs -/

section Runs

variable {settings : Settings} {program : Block} {s : Session}

/-- Arrays in use are reached at the start or made since, and so all of them lack the kind. -/
theorem Session.Confined.lacks_inUse {t : Session}
    (ht : t.Confined k fun h => s.Reaches h ∨ s.heap.cells.size ≤ h.index) :
    t.Lacks k (s.InUse t) := by
  refine ⟨ht.lacks.locals, ht.lacks.globals, fun h hh => ht.lacks.elements h ?_⟩
  rcases hh with hstart | hnow | hmade
  · exact .inl hstart
  · exact ht.of_reaches hnow
  · exact .inr hmade

/-- **Floats come from divisions alone, and truth values from comparisons alone.** If no value of
    the kind occurs in a session, neither in the bindings nor in any array that it reaches, and
    neither the program nor a function that is defined contains an operator that makes such values,
    a compound assignment with one, or an `eval`, then none ever occurs: not in the bindings nor in
    any array in use where the run comes to an expression, a statement or a comparison, nor where
    that ends, nor among the results of these, and neither where the run itself ends; and however
    any of them ends. -/
theorem kind_never_occurs (hk : k = .float ∨ k = .bool) (habsent : Absent (Stmt.makes k) program s)
    (hlacks : s.Lacks k s.Reaches) :
    (∀ a, ComesTo settings program s a →
      a.session.Lacks k (s.InUse a.session) ∧
      ∀ n r t, a.task.run settings n a.session = some (r, t) →
        t.Lacks k (s.InUse t) ∧ ∀ v, a.task.Gives r v → v.kind ≠ k) ∧
    ∀ n r t, run settings n program s = some (r, t) → t.Lacks k (s.InUse t) := by
  have hprogram : ∀ stmt ∈ program, ∀ frame, (Task.statement stmt frame).Spares k := by
    intro stmt hmem _
    exact Block.everywhere_iff.1 habsent.program stmt hmem
  have hstart := Session.Confined.of_lacks hlacks habsent.functions
  refine ⟨fun a ha => ?_, fun n r t hend => ?_⟩
  · obtain ⟨htask, hsession⟩ := (sustained_confined hk settings).comesTo ha hprogram hstart
    refine ⟨hsession.lacks_inUse, fun n r t hend => ?_⟩
    obtain ⟨ht, hresult⟩ := secures_task hk settings htask n hend hsession
    exact ⟨ht.lacks_inUse, fun v hv => (hresult v hv).kind⟩
  · exact ((sustained_confined hk settings).run hprogram n hend hstart).lacks_inUse

end Runs

/-- A session with a global array `a` of a number and a text, and a function `twice`. -/
def sessionWithTwice : Session where
  globals := ({} : Bindings Value).insert "a" (.array ⟨0⟩)
  functions := ({} : Bindings Function).insert "twice"
    ⟨["n"], [.return_ (.binary (.arithmetic .multiply) (.name "n") (.int 2))]⟩
  heap := ⟨#[#[.int 1, .text "b"]]⟩

/-- `t = 1 < 2; n = twice(t); n++; append(a, n);`. -/
def doublesTruth : Block :=
  [.assign "t" (.binary (.order .less) (.int 1) (.int 2)), .assign "n" (.call "twice" [.name "t"]),
    .increment "n" .up, .append (.name "a") (.name "n")]

/-- `h = 1 / 2; h = twice(h); append(a, h);`. -/
def doublesHalf : Block :=
  [.assign "h" (.binary (.arithmetic .divide) (.int 1) (.int 2)),
    .assign "h" (.call "twice" [.name "h"]), .append (.name "a") (.name "h")]

/-- Counting with a truth value makes no float, and doubling a float makes no truth value. -/
theorem kind_never_occurs_twice :
    (∃ t, run {} 6 doublesTruth sessionWithTwice = some (.ok .completed, t) ∧
      t.Lacks .float (sessionWithTwice.InUse t)) ∧
    ∀ a, ComesTo {} doublesHalf sessionWithTwice a →
      a.session.Lacks .bool (sessionWithTwice.InUse a.session) := by
  have hresult : (run {} 6 doublesTruth sessionWithTwice).map
      (fun x => (x.1, x.2.sink.text)) = some (.ok .completed, "") := by decide +kernel
  obtain ⟨t, hrun, -⟩ := exists_of_output hresult
  have hfloats : Absent (Stmt.makes .float) doublesTruth sessionWithTwice :=
    ⟨by decide, Session.everywhere_of_entries (by decide)⟩
  have htruths : Absent (Stmt.makes .bool) doublesHalf sessionWithTwice :=
    ⟨by decide, Session.everywhere_of_entries (by decide)⟩
  have hfloat : sessionWithTwice.Lacks .float sessionWithTwice.Reaches :=
    Session.lacks_of_entries (by decide) (by decide) (by decide) _
  have hbool : sessionWithTwice.Lacks .bool sessionWithTwice.Reaches :=
    Session.lacks_of_entries (by decide) (by decide) (by decide) _
  refine ⟨⟨t, hrun, (kind_never_occurs (.inl rfl) hfloats hfloat).2 6 _ t hrun⟩, fun a ha => ?_⟩
  exact ((kind_never_occurs (.inr rfl) htruths hbool).1 a ha).1

end Scriptlet
