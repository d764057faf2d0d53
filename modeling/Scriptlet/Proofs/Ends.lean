import Scriptlet.Proofs.Tasks

set_option autoImplicit false

/-! # How evaluations end

`Ends` says how an evaluation ends with enough levels. These are its laws without any levels in
them: an action that does not depend on them ends as it does, two actions one after another end as
`ends_bind_iff` says, and an expression ends as its parts do. The levels are counted in two places
only: `Ascending.bind` lets two actions use the greater number of theirs, and `ends_add_iff` gives an
evaluation as many levels more as it has over what goes on inside. -/

namespace Scriptlet.Eval

variable {α β : Type} {settings : Settings} {s t : Session}

/-! ## Actions -/

theorem ascending_const (x : Eval α) : Ascending fun _ => x := by
  intro n m _ s r t h
  exact h

theorem Ascending.bind {x : Nat → Eval α} {f : Nat → α → Eval β} (hx : Ascending x)
    (hf : ∀ a, Ascending (f · a)) : Ascending fun n => x n >>= f n := by
  intro n m h
  exact (hx h).bind fun a => hf a h

theorem ascending_execute (settings : Settings) (stmt : Stmt) (frame : Frame) :
    Ascending fun levels => execute settings levels stmt frame := by
  intro n m h
  exact extends_execute settings h stmt frame

theorem ascending_evaluateAll (settings : Settings) (es : List Expr) :
    Ascending fun levels => evaluateAll (evaluate settings levels) es := by
  intro n m h
  exact extends_evaluateAll settings h es

/-- An evaluation has one end at most. -/
theorem Ends.unique {x : Nat → Eval α} (hx : Ascending x) {r r' : Except RuntimeError α}
    {t t' : Session} (h : Ends x s r t) (h' : Ends x s r' t') : r' = r ∧ t' = t := by
  obtain ⟨levels, hend, hend'⟩ := h.common hx hx h'
  rw [hend, Option.some.injEq, Prod.mk.injEq] at hend'
  exact ⟨hend'.1.symm, hend'.2.symm⟩

@[simp]
theorem ends_const_iff {x : Eval α} {r : Except RuntimeError α} :
    Ends (fun _ => x) s r t ↔ x s = some (r, t) := by
  constructor
  · rintro ⟨_, h⟩
    exact h
  · intro h
    exact ⟨0, h⟩

/-- Only what the action does in this session counts. -/
theorem ends_congr {x y : Nat → Eval α} (h : ∀ n, x n s = y n s) {r : Except RuntimeError α} :
    Ends x s r t ↔ Ends y s r t := by
  constructor
  · rintro ⟨n, hn⟩
    exact ⟨n, (h n).symm.trans hn⟩
  · rintro ⟨n, hn⟩
    exact ⟨n, (h n).trans hn⟩

/-- The first levels may be left out. -/
theorem ends_add_iff {x : Nat → Eval α} (hx : Ascending x) (k : Nat) {r : Except RuntimeError α} :
    Ends (fun n => x (n + k)) s r t ↔ Ends x s r t := by
  constructor
  · rintro ⟨n, h⟩
    exact ⟨n + k, h⟩
  · rintro ⟨n, h⟩
    exact ⟨n, hx (Nat.le_add_right n k) h⟩

/-- Two actions one after another end with the error of the first, or as the second does. -/
theorem ends_bind_iff {x : Nat → Eval α} {f : Nat → α → Eval β} (hx : Ascending x)
    (hf : ∀ a, Ascending (f · a)) {r : Except RuntimeError β} :
    Ends (fun n => x n >>= f n) s r t ↔
      (∃ e, Ends x s (.error e) t ∧ r = .error e) ∨
        ∃ a u, Ends x s (.ok a) u ∧ Ends (f · a) u r t := by
  constructor
  · rintro ⟨levels, h⟩
    rcases bind_eq_some_iff.1 h with ⟨e, he, hr⟩ | ⟨a, u, ha, hb⟩
    · exact .inl ⟨e, ⟨levels, he⟩, hr⟩
    · exact .inr ⟨a, u, ⟨levels, ha⟩, levels, hb⟩
  · rintro (⟨e, ⟨levels, he⟩, hr⟩ | ⟨a, u, ha, hb⟩)
    · exact ⟨levels, bind_eq_some_iff.2 (.inl ⟨e, he, hr⟩)⟩
    · obtain ⟨levels, hfirst, hsecond⟩ := ha.common hx (hf a) hb
      exact ⟨levels, bind_eq_some_iff.2 (.inr ⟨a, u, hfirst, hsecond⟩)⟩

theorem ends_bind_const_iff {x : Nat → Eval α} {f : α → Eval β} (hx : Ascending x)
    {r : Except RuntimeError β} :
    Ends (fun n => x n >>= f) s r t ↔
      (∃ e, Ends x s (.error e) t ∧ r = .error e) ∨
        ∃ a u, Ends x s (.ok a) u ∧ f a u = some (r, t) := by
  rw [ends_bind_iff hx fun a => ascending_const (f a)]
  exact or_congr Iff.rfl <| exists_congr fun a => exists_congr fun u =>
    and_congr Iff.rfl ends_const_iff

/-- Behind an action that succeeds, only the second one counts. -/
theorem ends_bind_iff_of_ok {x : Nat → Eval α} {f : Nat → α → Eval β} (hx : Ascending x)
    (hf : ∀ a, Ascending (f · a)) {a : α} {u : Session} (h : Ends x s (.ok a) u)
    {r : Except RuntimeError β} :
    Ends (fun n => x n >>= f n) s r t ↔ Ends (f · a) u r t := by
  rw [ends_bind_iff hx hf]
  constructor
  · rintro (⟨e, he, -⟩ | ⟨b, w, hb, hrest⟩)
    · exact absurd (h.unique hx he).1 (by simp)
    · obtain ⟨hsame, rfl⟩ := h.unique hx hb
      obtain rfl := Except.ok.inj hsame
      exact hrest
  · intro hrest
    exact .inr ⟨a, u, h, hrest⟩

/-- An arithmetic operator ends as it does on the arrays of the session. -/
theorem applyBinary_arithmetic (op : Arithmetic) (left right : Value) (s : Session) :
    applyBinary (.arithmetic op) left right s =
      match s.heap.arithmetic op left right with
      | .error e => some (.error e, s)
      | .ok (v, heap) => some (.ok v, { s with heap }) := by
  unfold applyBinary
  rw [show s.heap.apply (.arithmetic op) left right = some (s.heap.arithmetic op left right) from rfl]
  cases s.heap.arithmetic op left right <;> rfl

/-! ## Expressions -/

theorem ends_int (n : Int64) : Ends (evaluate settings · (.int n)) s (.ok (.int n)) s :=
  ⟨1, rfl⟩

theorem ends_text (text : String) :
    Ends (evaluate settings · (.text text)) s (.ok (.text text)) s :=
  ⟨1, rfl⟩

theorem ends_evaluateAll_nil : Ends (fun n => evaluateAll (evaluate settings n) []) s (.ok []) s :=
  ⟨0, rfl⟩

theorem ends_evaluateAll_cons {e : Expr} {es : List Expr} {v : Value} {vs : List Value}
    {u : Session} (hfirst : Ends (evaluate settings · e) s (.ok v) u)
    (hrest : Ends (fun n => evaluateAll (evaluate settings n) es) u (.ok vs) t) :
    Ends (fun n => evaluateAll (evaluate settings n) (e :: es)) s (.ok (v :: vs)) t := by
  have hmore : Ends (fun n => evaluateAll (evaluate settings n) es >>= fun vs => pure (v :: vs))
      u (.ok (v :: vs)) t :=
    (ends_bind_const_iff (ascending_evaluateAll settings es)).2 (.inr ⟨vs, t, hrest, rfl⟩)
  have hboth (v : Value) :
      Ascending fun n => evaluateAll (evaluate settings n) es >>= fun vs => pure (v :: vs) :=
    (ascending_evaluateAll settings es).bind fun _ => ascending_const _
  exact (ends_bind_iff (ascending_evaluate settings e) hboth).2 (.inr ⟨v, u, hfirst, hmore⟩)

/-- The elements are evaluated, and then a new array is made of them. -/
theorem ends_array {es : List Expr} {vs : List Value}
    (h : Ends (fun n => evaluateAll (evaluate settings n) es) s (.ok vs) t) :
    Ends (evaluate settings · (.array es)) s (.ok (t.heap.allocValue vs.toArray).1)
      { t with heap := (t.heap.allocValue vs.toArray).2 } := by
  rw [← ends_add_iff (ascending_evaluate settings _) 1]
  simp only [evaluate]
  exact (ends_bind_const_iff (ascending_evaluateAll settings es)).2 (.inr ⟨vs, t, h, rfl⟩)

/-- Both operands are evaluated, the left one first, and then the operator is applied. -/
theorem ends_binary_iff {op : BinaryOp} {left right : Expr} {r : Except RuntimeError Value} :
    Ends (evaluate settings · (.binary op left right)) s r t ↔
      (∃ e, Ends (evaluate settings · left) s (.error e) t ∧ r = .error e) ∨
        ∃ v u, Ends (evaluate settings · left) s (.ok v) u ∧
          ((∃ e, Ends (evaluate settings · right) u (.error e) t ∧ r = .error e) ∨
            ∃ w u', Ends (evaluate settings · right) u (.ok w) u' ∧
              applyBinary op v w u' = some (r, t)) := by
  rw [← ends_add_iff (ascending_evaluate settings _) 1]
  simp only [evaluate]
  have hright (v : Value) :
      Ascending fun n => evaluate settings n right >>= fun w => applyBinary op v w :=
    (ascending_evaluate settings right).bind fun w => ascending_const _
  rw [ends_bind_iff (ascending_evaluate settings left) hright]
  exact or_congr Iff.rfl <| exists_congr fun v => exists_congr fun u =>
    and_congr Iff.rfl (ends_bind_const_iff (ascending_evaluate settings right))

end Scriptlet.Eval
