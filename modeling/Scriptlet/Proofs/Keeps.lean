import Scriptlet.Session.Run

set_option autoImplicit false

/-! # What an action keeps

An action *keeps* a view of the session if the view is the same before and after it, however the
action ends: with a value, with an error, or with `exit`, which is an error here. An action that
does not end keeps everything.

A view is any function of the session, so one set of lemmas serves the local bindings, the depth, a
single entry of a table and any pair of these. `Keeps.bind` carries a view through a sequence; each
action of `Session.Basic` then keeps every view that does not look at the part which it changes, and
that is the only side condition. The two enclosing actions differ: `rollback` puts the bindings
back whatever the action inside does, and `deeper` counts the depth up and down, so it restores the
depth only if the action inside does. -/

namespace Scriptlet.Eval

variable {α β γ δ : Type}

/-- The view is the same before and after the action, however it ends. -/
def Keeps (view : Session → γ) (x : Eval α) : Prop :=
  ∀ ⦃s r t⦄, x s = some (r, t) → view t = view s

/-- How a sequence of two actions ends: with the error of the first, or as the second does. -/
theorem bind_eq_some_iff {x : Eval α} {f : α → Eval β} {s t : Session}
    {r : Except RuntimeError β} :
    (x >>= f) s = some (r, t) ↔
      (∃ e, x s = some (.error e, t) ∧ r = .error e) ∨
        ∃ a u, x s = some (.ok a, u) ∧ f a u = some (r, t) := by
  change Eval.bind x f s = some (r, t) ↔ _
  unfold Eval.bind
  cases hx : x s with
  | none => simp
  | some end_ =>
    obtain ⟨result, u⟩ := end_
    cases result with
    | error e =>
      simp only [Option.some.injEq, Prod.mk.injEq, Except.error.injEq, reduceCtorEq, false_and,
        exists_false, or_false]
      constructor
      · rintro ⟨rfl, rfl⟩
        exact ⟨e, ⟨rfl, rfl⟩, rfl⟩
      · rintro ⟨e', ⟨rfl, rfl⟩, rfl⟩
        exact ⟨rfl, rfl⟩
    | ok a =>
      simp only [Option.some.injEq, Prod.mk.injEq, reduceCtorEq, false_and, exists_false, false_or,
        Except.ok.injEq]
      constructor
      · intro h
        exact ⟨a, u, ⟨rfl, rfl⟩, h⟩
      · rintro ⟨a', u', ⟨rfl, rfl⟩, h⟩
        exact h

/-- How a sequence of two actions ends with a value: both do. -/
theorem bind_eq_ok_iff {x : Eval α} {f : α → Eval β} {s t : Session} {b : β} :
    (x >>= f) s = some (.ok b, t) ↔ ∃ a u, x s = some (.ok a, u) ∧ f a u = some (.ok b, t) := by
  simp [bind_eq_some_iff]

theorem pure_eq_some_iff {a : α} {s t : Session} {r : Except RuntimeError α} :
    (pure a : Eval α) s = some (r, t) ↔ r = .ok a ∧ t = s := by
  change some ((Except.ok a : Except RuntimeError α), s) = some (r, t) ↔ _
  simp only [Option.some.injEq, Prod.mk.injEq]
  exact and_congr eq_comm eq_comm

theorem find_eq_ok_iff {f : Session → Option α} {missing : Session → RuntimeError} {s t : Session}
    {a : α} : find f missing s = some (.ok a, t) ↔ f s = some a ∧ t = s := by
  unfold find
  cases f s with
  | none => simp
  | some b =>
    simp only [Option.some.injEq, Prod.mk.injEq, Except.ok.injEq]
    exact and_congr Iff.rfl eq_comm

/-- A trace ends well and changes the notices alone. -/
theorem trace_eq_some (settings : Settings) (t : Session → Trace) (s : Session) :
    ∃ notices, trace settings t s = some (.ok (), { s with notices }) := by
  unfold trace
  split
  · exact ⟨_, rfl⟩
  · exact ⟨s.notices, rfl⟩

/-- Writing a line only adds to the output, and it does not end with `exit`. -/
theorem writeLine_eq_some (line : String) (s : Session) :
    ∃ r written, writeLine line s = some (r, { s with sink := s.sink.push written }) ∧
      r ≠ .error .exit := by
  unfold writeLine
  split
  · exact ⟨_, _, rfl, by simp⟩
  · exact ⟨_, _, rfl, by simp⟩

/-- Rolling back changes neither whether an action ends nor its result. -/
theorem rollback_eq_some_iff {x : Eval α} {r : Except RuntimeError α} {s t : Session} :
    rollback x s = some (r, t) ↔ ∃ u, x s = some (r, u) ∧ t = { u with locals := s.locals } := by
  unfold rollback
  cases x s with
  | none => simp
  | some result =>
    obtain ⟨r', u⟩ := result
    simp only [Option.some.injEq, Prod.mk.injEq]
    constructor
    · rintro ⟨rfl, rfl⟩
      exact ⟨u, ⟨rfl, rfl⟩, rfl⟩
    · rintro ⟨u', ⟨rfl, rfl⟩, rfl⟩
      exact ⟨rfl, rfl⟩

/-- How an action one level deeper ends: with an error at the limit, or as the action does. -/
theorem deeper_eq_some {limit : Nat} {x : Eval α} {r : Except RuntimeError α} {s t : Session}
    (h : deeper limit x s = some (r, t)) :
    (limit ≤ s.depth ∧ r = .error (.depthExceeded limit) ∧ t = s) ∨
      ∃ u, x { s with depth := s.depth + 1 } = some (r, u) ∧
        t = { u with depth := u.depth - 1 } := by
  unfold deeper at h
  split at h
  · next hlimit =>
    simp only [Option.some.injEq, Prod.mk.injEq] at h
    exact .inl ⟨hlimit, h.1.symm, h.2.symm⟩
  · split at h
    · exact absurd h (by simp)
    · next r' u hu =>
      simp only [Option.some.injEq, Prod.mk.injEq] at h
      obtain ⟨rfl, rfl⟩ := h
      exact .inr ⟨u, hu, rfl⟩

/-- At the limit, an action one level deeper is not started. -/
theorem deeper_of_le {limit : Nat} {s : Session} (h : limit ≤ s.depth) (x : Eval α) :
    deeper limit x s = some (.error (.depthExceeded limit), s) := by
  unfold deeper
  rw [if_pos h]

/-- Below the limit, an action one level deeper ends as the action does. -/
theorem deeper_eq_some_iff_of_lt {limit : Nat} {x : Eval α} {r : Except RuntimeError α}
    {s t : Session} (h : s.depth < limit) :
    deeper limit x s = some (r, t) ↔
      ∃ u, x { s with depth := s.depth + 1 } = some (r, u) ∧
        t = { u with depth := u.depth - 1 } := by
  unfold deeper
  rw [if_neg (Nat.not_le_of_lt h)]
  cases x { s with depth := s.depth + 1 } with
  | none => simp
  | some result =>
    obtain ⟨r', u⟩ := result
    simp only [Option.some.injEq, Prod.mk.injEq]
    constructor
    · rintro ⟨rfl, rfl⟩
      exact ⟨u, ⟨rfl, rfl⟩, rfl⟩
    · rintro ⟨u', ⟨rfl, rfl⟩, rfl⟩
      exact ⟨rfl, rfl⟩

namespace Keeps

variable {view : Session → γ}

/-! ## Sequences -/

theorem pure (a : α) : Keeps view (Pure.pure a : Eval α) := by
  intro s r t h
  rw [(pure_eq_some_iff.1 h).2]

theorem bind {x : Eval α} {f : α → Eval β} (hx : Keeps view x) (hf : ∀ a, Keeps view (f a)) :
    Keeps view (x >>= f) := by
  intro s r t h
  rcases bind_eq_some_iff.1 h with ⟨e, he, -⟩ | ⟨a, u, ha, hb⟩
  · exact hx he
  · exact (hf a hb).trans (hx ha)

/-- Whatever is computed from a view that is kept is kept. -/
theorem comp {x : Eval α} (hx : Keeps view x) (f : γ → δ) : Keeps (fun s => f (view s)) x := by
  intro s r t h
  show f (view t) = f (view s)
  rw [hx h]

/-- Two views that are kept are kept together. -/
theorem prod {x : Eval α} {other : Session → δ} (hx : Keeps view x) (ho : Keeps other x) :
    Keeps (fun s => (view s, other s)) x := by
  intro s r t h
  show (view t, other t) = (view s, other s)
  rw [hx h, ho h]

/-! ## Actions that change nothing -/

theorem never : Keeps view (Eval.never : Eval α) := by
  intro s r t h
  exact absurd h (by simp [Eval.never])

theorem fail (e : RuntimeError) : Keeps view (Eval.fail e : Eval α) := by
  intro s r t h
  simp only [Eval.fail, Option.some.injEq, Prod.mk.injEq] at h
  rw [h.2]

theorem reply (answer : Except Refusal α) : Keeps view (Eval.reply answer) := by
  cases answer with
  | ok a => exact pure a
  | error refusal => exact fail refusal.1

theorem read (f : Session → α) : Keeps view (Eval.read f) := by
  intro s r t h
  simp only [Eval.read, Option.some.injEq, Prod.mk.injEq] at h
  rw [h.2]

theorem find (f : Session → Option α) (missing : Session → RuntimeError) :
    Keeps view (Eval.find f missing) := by
  intro s r t h
  unfold Eval.find at h
  split at h <;> simp only [Option.some.injEq, Prod.mk.injEq] at h <;> rw [h.2]

theorem truthy (v : Value) : Keeps view (Eval.truthy v) := read _

theorem getLocal (name : String) : Keeps view (Eval.getLocal name) := find _ _

theorem resolve (name : String) : Keeps view (Eval.resolve name) := find _ _

theorem flush : Keeps view Eval.flush := by
  intro s r t h
  unfold Eval.flush at h
  split at h <;> simp only [Option.some.injEq, Prod.mk.injEq] at h <;> rw [h.2]

theorem arrayNamed (name : String) : Keeps view (Eval.arrayNamed name) := by
  refine bind (find _ _) fun v => ?_
  cases v with
  | array h => exact pure h
  | _ => exact fail _

theorem target (e : Expr) (v : Value) : Keeps view (Eval.target e v) := by
  cases v with
  | array h => exact pure _
  | text name => exact bind (arrayNamed name) fun _ => pure _
  | _ => exact fail _

theorem readPath (name : String) (path : List Value) : Keeps view (Eval.readPath name path) :=
  bind (find _ _) fun _ => find _ _

/-! ## Actions that change one part of the session -/

theorem update {f : Session → Session} (h : ∀ s, view (f s) = view s) :
    Keeps view (Eval.update f) := by
  intro s r t ht
  simp only [Eval.update, Option.some.injEq, Prod.mk.injEq] at ht
  rw [← ht.2, h]

theorem trace (h : ∀ s notices, view { s with notices } = view s) (settings : Settings)
    (t : Session → Trace) : Keeps view (Eval.trace settings t) := by
  intro s r u hu
  unfold Eval.trace at hu
  split at hu <;> simp only [Option.some.injEq, Prod.mk.injEq] at hu <;> rw [← hu.2]
  exact h s _

theorem report (h : ∀ s notices, view { s with notices } = view s) (faults : List Fault) :
    Keeps view (Eval.report faults) :=
  update fun s => h s _

theorem writeLine (h : ∀ s sink, view { s with sink } = view s) (line : String) :
    Keeps view (Eval.writeLine line) := by
  intro s r t ht
  obtain ⟨_, written, hwrite, -⟩ := writeLine_eq_some line s
  obtain ⟨-, rfl⟩ : _ ∧ _ := by simpa using hwrite.symm.trans ht
  exact h s _

theorem writeValues (h : ∀ s sink, view { s with sink } = view s) (values : List Value) :
    Keeps view (Eval.writeValues values) :=
  bind (read _) fun line => writeLine h line

theorem setGlobal (h : ∀ s globals, view { s with globals } = view s) (name : String) (v : Value) :
    Keeps view (Eval.setGlobal name v) :=
  update fun s => h s _

section Heap

variable (h : ∀ s heap, view { s with heap } = view s)

include h

theorem allocate (elements : List Value) : Keeps view (Eval.allocate elements) := by
  intro s r t ht
  simp only [Eval.allocate, Option.some.injEq, Prod.mk.injEq] at ht
  rw [← ht.2, h]

theorem applyBinary (op : BinaryOp) (left right : Value) :
    Keeps view (Eval.applyBinary op left right) := by
  intro s r t ht
  unfold Eval.applyBinary at ht
  -- comparing need not end; with an error the session stays, and a result may be a new array
  split at ht
  · exact absurd ht (by simp)
  · simp only [Option.some.injEq, Prod.mk.injEq] at ht
    rw [ht.2]
  · simp only [Option.some.injEq, Prod.mk.injEq] at ht
    rw [← ht.2, h]

theorem writePath (name : String) (path : List Value) (v : Value) :
    Keeps view (Eval.writePath name path v) :=
  bind (arrayNamed name) fun _ => bind (find _ _) fun _ => update fun s => h s _

theorem appendTo (a : Handle) (v : Value) : Keeps view (Eval.appendTo a v) :=
  update fun s => h s _

theorem removeFrom (a : Handle) (label : String) (v : Value) :
    Keeps view (Eval.removeFrom a label v) := by
  intro s r t ht
  unfold Eval.removeFrom at ht
  split at ht
  · exact absurd ht (by simp)
  · simp only [Option.some.injEq, Prod.mk.injEq] at ht
    rw [ht.2]
  · simp only [Option.some.injEq, Prod.mk.injEq] at ht
    rw [← ht.2, h]

theorem compoundValue (op : Arithmetic) (current v : Value) :
    Keeps view (Eval.compoundValue op current v) := by
  unfold Eval.compoundValue
  split
  · exact bind (update fun s => h s _) fun _ => pure _
  · exact applyBinary h _ _ _

end Heap

/-! ## Actions around an action -/

/-- What a rolled back action keeps besides the local bindings is what it keeps inside. -/
theorem rollback {x : Eval α} (h : ∀ s locals, view { s with locals } = view s)
    (hx : Keeps view x) : Keeps view (Eval.rollback x) := by
  intro s r t ht
  obtain ⟨u, hu, rfl⟩ := rollback_eq_some_iff.1 ht
  rw [h, hx hu]

theorem locals_rollback (x : Eval α) : Keeps (·.locals) (Eval.rollback x) := by
  intro s r t ht
  obtain ⟨u, -, rfl⟩ := rollback_eq_some_iff.1 ht
  rfl

/-- What an action one level deeper keeps besides the depth is what it keeps inside. -/
theorem deeper {x : Eval α} (h : ∀ s depth, view { s with depth } = view s) (limit : Nat)
    (hx : Keeps view x) : Keeps view (Eval.deeper limit x) := by
  intro s r t ht
  rcases deeper_eq_some ht with ⟨-, -, rfl⟩ | ⟨u, hu, rfl⟩
  · rfl
  -- the depth changes twice: on the way in and on the way out
  · rw [h, hx hu, h]

theorem depth_deeper (limit : Nat) {x : Eval α} (hx : Keeps (·.depth) x) :
    Keeps (·.depth) (Eval.deeper limit x) := by
  intro s r t ht
  rcases deeper_eq_some ht with ⟨-, -, rfl⟩ | ⟨u, hu, rfl⟩
  · rfl
  · have hdepth : u.depth = s.depth + 1 := hx hu
    show u.depth - 1 = s.depth
    rw [hdepth, Nat.add_sub_cancel]

/-! ## Lists and loops -/

theorem evaluateAll {evaluate : Expr → Eval Value} (h : ∀ e, Keeps view (evaluate e))
    (es : List Expr) : Keeps view (Eval.evaluateAll evaluate es) := by
  induction es with
  | nil => exact pure _
  | cons e es ih => exact bind (h e) fun _ => bind ih fun _ => pure _

theorem executeAll {execute : Stmt → Frame → Eval Yield}
    (h : ∀ stmt frame, Keeps view (execute stmt frame)) (block : Block) (frame : Frame)
    (last : Option Value) : Keeps view (Eval.executeAll execute block frame last) := by
  induction block generalizing frame last with
  | nil => exact pure _
  | cons stmt rest ih => exact bind (h stmt frame) fun _ => ih _ _

theorem whileRounds {condition : Eval Bool} {body : Frame → Eval Yield}
    (hc : Keeps view condition) (hb : ∀ frame, Keeps view (body frame)) (rounds : Nat)
    (frame : Frame) : Keeps view (Eval.whileRounds condition body rounds frame) := by
  induction rounds generalizing frame with
  | zero => exact never
  | succ rounds ih =>
    refine bind hc fun more => ?_
    cases more with
    | false => exact pure _
    | true =>
      refine bind (hb frame) fun yielded => ?_
      -- only a body that yields nothing goes on to the rounds that are left
      obtain ⟨value, frame'⟩ := yielded
      cases value with
      | none => exact ih frame'
      | some v => exact pure _

theorem forRounds {condition : Eval Bool} {body step : Frame → Eval Yield}
    (hc : Keeps view condition) (hb : ∀ frame, Keeps view (body frame))
    (hs : ∀ frame, Keeps view (step frame)) (rounds : Nat) (frame : Frame)
    (last : Option Value) :
    Keeps view (Eval.forRounds condition body step rounds frame last) := by
  induction rounds generalizing frame last with
  | zero => exact never
  | succ rounds ih =>
    refine bind hc fun more => ?_
    cases more with
    | false => exact pure _
    | true => exact bind (hb frame) fun _ => bind (hs _) fun _ => ih _ _

end Keeps

end Scriptlet.Eval
