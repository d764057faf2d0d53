import Scriptlet.Proofs.Keeps

set_option autoImplicit false

/-! # Invariants and results

An action *preserves* a property of sessions if the property holds at the end, however the action
ends, given that it held before. It *secures* a property of its results besides if a value that it
ends with is as stated. What a later action is given is then known when it is that action's turn, so
an invariant of the session may rest on what is put into it (`Secures.bind`).

To preserve is to secure nothing in particular, so lists, blocks and loops are dealt with once. -/

namespace Scriptlet.Eval

variable {α β : Type} {I : Session → Prop} {P : α → Prop} {Q : β → Prop}

/-- However the action ends, the property holds then if it held before. -/
def Preserves (I : Session → Prop) (x : Eval α) : Prop :=
  ∀ ⦃s r t⦄, x s = some (r, t) → I s → I t

/-- However the action ends, the property of sessions holds then if it held before, and a value is
    as stated. -/
def Secures (I : Session → Prop) (P : α → Prop) (x : Eval α) : Prop :=
  ∀ ⦃s r t⦄, x s = some (r, t) → I s → I t ∧ ∀ a, r = .ok a → P a

/-- The value that is yielded, if there is one, is as stated. -/
def Yields (P : Value → Prop) (y : Yield) : Prop :=
  ∀ v ∈ y.1, P v

/-! ## Single actions -/

namespace Preserves

theorem pure (a : α) : Preserves I (Pure.pure a : Eval α) := by
  intro s r t h hs
  rw [(pure_eq_some_iff.1 h).2]
  exact hs

theorem bind {x : Eval α} {f : α → Eval β} (hx : Preserves I x) (hf : ∀ a, Preserves I (f a)) :
    Preserves I (x >>= f) := by
  intro s r t h hs
  rcases bind_eq_some_iff.1 h with ⟨e, he, -⟩ | ⟨a, u, ha, hb⟩
  · exact hx he hs
  · exact hf a hb (hx ha hs)

/-- An action that leaves the session as it is preserves everything. -/
theorem of_keeps {x : Eval α} (h : Keeps (fun s => s) x) : Preserves I x := by
  intro s r t hx hs
  have hsame : t = s := h hx
  exact hsame ▸ hs

theorem update {f : Session → Session} (h : ∀ s, I s → I (f s)) :
    Preserves I (Eval.update f) := by
  intro s r t ht hs
  simp only [Eval.update, Option.some.injEq, Prod.mk.injEq] at ht
  exact ht.2 ▸ h s hs

theorem secures {x : Eval α} (h : Preserves I x) : Secures I (fun _ => True) x := by
  intro s r t hx hs
  exact ⟨h hx hs, fun _ _ => trivial⟩

theorem yields {x : Eval Yield} (h : Preserves I x) : Secures I (Yields fun _ => True) x := by
  intro s r t hx hs
  exact ⟨h hx hs, fun _ _ _ _ => trivial⟩

end Preserves

namespace Secures

theorem preserves {x : Eval α} (h : Secures I P x) : Preserves I x := by
  intro s r t hx hs
  exact (h hx hs).1

theorem pure {a : α} (h : P a) : Secures I P (Pure.pure a : Eval α) := by
  intro s r t ht hs
  obtain ⟨rfl, rfl⟩ := pure_eq_some_iff.1 ht
  refine ⟨hs, fun b hb => ?_⟩
  rw [Except.ok.injEq] at hb
  exact hb ▸ h

theorem bind {x : Eval α} {f : α → Eval β} (hx : Secures I P x)
    (hf : ∀ a, P a → Secures I Q (f a)) : Secures I Q (x >>= f) := by
  intro s r t h hs
  rcases bind_eq_some_iff.1 h with ⟨e, he, rfl⟩ | ⟨a, u, ha, hb⟩
  · exact ⟨(hx he hs).1, by simp⟩
  · obtain ⟨hu, hresult⟩ := hx ha hs
    exact hf a (hresult a rfl) hb hu

/-- An action in front of whose results nothing needs to be known. -/
theorem after {x : Eval α} {f : α → Eval β} (hx : Preserves I x) (hf : ∀ a, Secures I Q (f a)) :
    Secures I Q (x >>= f) :=
  hx.secures.bind fun a _ => hf a

theorem never : Secures I P (Eval.never : Eval α) := by
  intro s r t h
  exact absurd h (by simp [Eval.never])

theorem fail (e : RuntimeError) : Secures I P (Eval.fail e : Eval α) := by
  intro s r t h hs
  simp only [Eval.fail, Option.some.injEq, Prod.mk.injEq] at h
  obtain ⟨rfl, rfl⟩ := h
  exact ⟨hs, by simp⟩

theorem find {f : Session → Option α} {missing : Session → RuntimeError}
    (h : ∀ s a, I s → f s = some a → P a) : Secures I P (Eval.find f missing) := by
  intro s r t ht hs
  refine ⟨Preserves.of_keeps (.find f missing) ht hs, ?_⟩
  rintro a rfl
  exact h s a hs (find_eq_ok_iff.1 ht).1

end Secures

/-! ## Lists and loops -/

section Loops

variable {p : Value → Prop} {evaluate : Expr → Eval Value} {execute : Stmt → Frame → Eval Yield}
  {condition : Eval Bool} {body step : Frame → Eval Yield}

/-- The last value yielded is one of those yielded. -/
theorem yields_orElse {first last : Option Value} {frame frame₁ frame₂ : Frame}
    (hfirst : Yields p (first, frame₁)) (hlast : Yields p (last, frame₂)) :
    Yields p (first <|> last, frame) := by
  cases first with
  | none => exact hlast
  | some v => exact hfirst

theorem yields_none (frame : Frame) : Yields p (none, frame) := by
  simp [Yields]

namespace Secures

/-- What is behind the last change of the session yields nothing. -/
theorem done {x : Eval Unit} (hx : Preserves I x) (frame : Frame) :
    Secures I (Yields p) (do x; return (none, frame)) :=
  after hx fun _ => .pure (yields_none frame)

theorem evaluateAll {es : List Expr} (h : ∀ e ∈ es, Secures I p (evaluate e)) :
    Secures I (fun values => ∀ v ∈ values, p v) (Eval.evaluateAll evaluate es) := by
  induction es with
  | nil => exact .pure (by simp)
  | cons e es ih =>
    refine (h e (List.mem_cons_self ..)).bind fun v hv => ?_
    refine (ih fun e' hmem => h e' (List.mem_cons_of_mem _ hmem)).bind fun vs hvs => .pure ?_
    exact List.forall_mem_cons.2 ⟨hv, hvs⟩

theorem executeAll {block : Block}
    (h : ∀ stmt ∈ block, ∀ frame, Secures I (Yields p) (execute stmt frame)) (frame : Frame)
    {last : Option Value} (hlast : Yields p (last, frame)) :
    Secures I (Yields p) (Eval.executeAll execute block frame last) := by
  induction block generalizing frame last with
  | nil => exact .pure hlast
  | cons stmt rest ih =>
    refine (h stmt (List.mem_cons_self ..) frame).bind fun y hy => ?_
    exact ih (fun stmt' hmem => h stmt' (List.mem_cons_of_mem _ hmem)) _ (yields_orElse hy hlast)

theorem whileRounds (hc : Preserves I condition) (hb : ∀ frame, Secures I (Yields p) (body frame))
    (rounds : Nat) (frame : Frame) :
    Secures I (Yields p) (Eval.whileRounds condition body rounds frame) := by
  induction rounds generalizing frame with
  | zero => exact never
  | succ rounds ih =>
    refine after hc fun holds => ?_
    cases holds with
    | false => exact .pure (yields_none frame)
    | true =>
      refine (hb frame).bind fun y hy => ?_
      -- only a body that yields nothing goes on to the rounds that are left
      obtain ⟨_ | v, frame'⟩ := y
      · exact ih frame'
      · exact .pure hy

theorem forRounds (hc : Preserves I condition) (hb : ∀ frame, Secures I (Yields p) (body frame))
    (hs : ∀ frame, Preserves I (step frame)) (rounds : Nat) (frame : Frame) {last : Option Value}
    (hlast : Yields p (last, frame)) :
    Secures I (Yields p) (Eval.forRounds condition body step rounds frame last) := by
  induction rounds generalizing frame last with
  | zero => exact never
  | succ rounds ih =>
    refine after hc fun holds => ?_
    cases holds with
    | false => exact .pure hlast
    | true =>
      refine (hb frame).bind fun y hy => after (hs _) fun _ => ?_
      exact ih y.2 (yields_orElse hy hlast)

end Secures

namespace Preserves

theorem evaluateAll {es : List Expr} (h : ∀ e ∈ es, Preserves I (evaluate e)) :
    Preserves I (Eval.evaluateAll evaluate es) :=
  (Secures.evaluateAll fun e hmem => (h e hmem).secures).preserves

theorem executeAll {block : Block} (h : ∀ stmt ∈ block, ∀ frame, Preserves I (execute stmt frame))
    (frame : Frame) (last : Option Value) :
    Preserves I (Eval.executeAll execute block frame last) :=
  (Secures.executeAll (fun stmt hmem frame => (h stmt hmem frame).yields) frame
    fun _ _ => trivial).preserves

theorem whileRounds (hc : Preserves I condition) (hb : ∀ frame, Preserves I (body frame))
    (rounds : Nat) (frame : Frame) :
    Preserves I (Eval.whileRounds condition body rounds frame) :=
  (Secures.whileRounds hc (fun frame => (hb frame).yields) rounds frame).preserves

theorem forRounds (hc : Preserves I condition) (hb : ∀ frame, Preserves I (body frame))
    (hs : ∀ frame, Preserves I (step frame)) (rounds : Nat) (frame : Frame) (last : Option Value) :
    Preserves I (Eval.forRounds condition body step rounds frame last) :=
  (Secures.forRounds hc (fun frame => (hb frame).yields) hs rounds frame
    fun _ _ => trivial).preserves

end Preserves

end Loops

end Scriptlet.Eval
