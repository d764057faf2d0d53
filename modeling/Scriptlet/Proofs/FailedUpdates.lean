import Scriptlet.Proofs.Contents
import Scriptlet.Proofs.Securing
import Scriptlet.Proofs.ValueKinds

set_option autoImplicit false

/-! # Updates that fail

A statement that binds names or changes an array does so last. Should it fail, then whatever failed
came before: its expressions, and the tests of what they gave. So a failing update changes nothing,
as long as its expressions run no code of their own (`failed_update_unchanged`); all that they can
leave behind are new arrays, which nothing refers to.

Expressions without calls and without `eval` preserve everything but the number of arrays
(`preserves_evaluate`). An update is such expressions followed by an action that cannot fail, which
is what `PreservesOnFailure` is about: of an action that cannot fail nothing need be known
(`PreservesOnFailure.before`). -/

namespace Scriptlet

/-! ## New arrays -/

/-- The second heap has all arrays of the first one, as they are there, and maybe more. -/
structure Heap.Extends (heap heap' : Heap) : Prop where
  size_le : heap.cells.size ≤ heap'.cells.size
  elements : ∀ h, h.index < heap.cells.size → heap'.elements h = heap.elements h

namespace Heap.Extends

variable {heap heap' heap'' : Heap}

theorem refl (heap : Heap) : heap.Extends heap where
  size_le := Nat.le_refl _
  elements _ _ := rfl

theorem trans (h : heap.Extends heap') (h' : heap'.Extends heap'') : heap.Extends heap'' where
  size_le := Nat.le_trans h.size_le h'.size_le
  elements a lt := (h'.elements a (Nat.lt_of_lt_of_le lt h.size_le)).trans (h.elements a lt)

theorem alloc (heap : Heap) (elements : Array Value) : heap.Extends (heap.alloc elements).2 where
  size_le := by simp [Heap.alloc]
  elements _ lt := elements_alloc_of_lt heap elements lt

/-- A result that comes with the heap itself. -/
theorem of_ok {w v : Value}
    (h : (.ok (w, heap) : Except RuntimeError (Value × Heap)) = .ok (v, heap')) :
    heap.Extends heap' := by
  cases h
  exact refl heap

/-- A result that is a new array. -/
theorem of_allocValue {elements : Array Value} {v : Value}
    (h : (.ok (heap.allocValue elements) : Except RuntimeError (Value × Heap)) = .ok (v, heap')) :
    heap.Extends heap' := by
  cases h
  exact alloc heap elements

theorem numbers {op : Arithmetic} {left right v : Value}
    (h : (left.arithmetic op right).map (·, heap) = .ok (v, heap')) : heap.Extends heap' := by
  cases hvalue : left.arithmetic op right with
  | error e => simp [hvalue, Except.map] at h
  | ok w =>
    rw [hvalue] at h
    exact of_ok h

/-- Sums and products of arrays are new arrays. -/
theorem arithmetic {op : Arithmetic} {left right v : Value}
    (h : heap.arithmetic op left right = .ok (v, heap')) : heap.Extends heap' := by
  cases op with
  | add =>
    unfold Heap.arithmetic Heap.add at h
    dsimp only at h
    split at h
    · exact of_ok h
    · exact of_allocValue h
    · exact numbers h
  | multiply =>
    unfold Heap.arithmetic Heap.multiply at h
    dsimp only at h
    split at h
    · split at h
      · exact of_ok h
      · exact absurd h (by simp)
    · split at h
      · exact of_allocValue h
      · exact absurd h (by simp)
    · exact numbers h
  | subtract | divide => exact numbers h

/-- An operator leaves the arrays alone and may make a new one. -/
theorem apply {op : BinaryOp} {left right v : Value}
    (h : heap.apply op left right = some (.ok (v, heap'))) : heap.Extends heap' := by
  cases op with
  | and | or => exact of_ok (Option.some.inj h)
  | equal | notEqual =>
    obtain ⟨same, -, hresult⟩ := Option.map_eq_some_iff.1 h
    exact of_ok hresult
  | order r =>
    obtain ⟨answer, -, hresult⟩ := Option.map_eq_some_iff.1 h
    cases answer with
    | none => exact absurd hresult (by simp)
    | some o => exact of_ok hresult
  | arithmetic op => exact arithmetic (Option.some.inj h)

end Heap.Extends

/-- The second session is the first one but for new arrays. -/
structure Session.Allocates (s t : Session) : Prop where
  session : t = { s with heap := t.heap }
  heap : s.heap.Extends t.heap

namespace Session.Allocates

variable {s t : Session}

theorem refl (s : Session) : s.Allocates s where
  session := rfl
  heap := .refl _

theorem trans {u : Session} (h : s.Allocates t) (h' : t.Allocates u) : s.Allocates u where
  session := by rw [h'.session, h.session]
  heap := h.heap.trans h'.heap

theorem extend (h : s.Allocates t) {heap : Heap} (hheap : t.heap.Extends heap) :
    s.Allocates { t with heap } where
  session := by rw [h.session]
  heap := h.heap.trans hheap

end Session.Allocates

/-! ## Programs -/

/-- The expression runs statements or a text that is not in it. -/
def Expr.runsCode : Expr → Bool
  | call _ _ | eval _ => true
  | _ => false

/-- The statement binds names or changes an array, and that is all it does. -/
def Stmt.isUpdate : Stmt → Bool
  | assign _ _ | assignAll _ _ | declareGlobal _ _ | promote _ | assignIndex _ _ _ | append _ _
  | remove _ _ | increment _ _ | compound _ _ _ => true
  | _ => false

namespace Eval

variable {α β : Type} {I : Session → Prop}

/-! ## Expressions -/

section Expressions

variable {s : Session}

theorem preserves_allocate (elements : List Value) :
    Preserves s.Allocates (allocate elements) := by
  intro u r t ht hu
  simp only [allocate, Heap.allocValue, Option.some.injEq, Prod.mk.injEq] at ht
  exact ht.2 ▸ hu.extend (.alloc u.heap _)

theorem preserves_applyBinary (op : BinaryOp) (left right : Value) :
    Preserves s.Allocates (applyBinary op left right) := by
  intro u r t ht hu
  unfold applyBinary at ht
  split at ht
  · exact absurd ht (by simp)
  · simp only [Option.some.injEq, Prod.mk.injEq] at ht
    exact ht.2 ▸ hu
  · next v heap happly =>
    simp only [Option.some.injEq, Prod.mk.injEq] at ht
    exact ht.2 ▸ hu.extend (.apply happly)

/-- An expression that runs no code changes nothing but the number of arrays, however it ends. -/
theorem preserves_evaluate (settings : Settings) (levels : Nat) {e : Expr}
    (he : e.everywhere (!Expr.runsCode ·) = true) :
    Preserves s.Allocates (evaluate settings levels e) := by
  induction levels generalizing e with
  | zero =>
    unfold evaluate
    exact .of_keeps .never
  | succ levels ih =>
    obtain ⟨hself, hoperands⟩ := Expr.everywhere_iff.1 he
    have hinner : ∀ c ∈ e.operands, Preserves s.Allocates (evaluate settings levels c) :=
      fun c hc => ih (hoperands c hc)
    unfold evaluate
    cases e with
    | int n => exact .pure _
    | text s => exact .pure _
    | name x => exact .of_keeps (.resolve x)
    | binary op left right =>
      exact (hinner left (by simp [Expr.operands])).bind fun _ =>
        (hinner right (by simp [Expr.operands])).bind fun _ => preserves_applyBinary _ _ _
    | index x indices =>
      exact (Preserves.evaluateAll hinner).bind fun _ => .of_keeps (.readPath x _)
    | array elements => exact (Preserves.evaluateAll hinner).bind fun _ => preserves_allocate _
    | id operand => exact (hinner operand (by simp [Expr.operands])).bind fun _ => .pure _
    | call f arguments | eval operand => exact absurd hself (by simp [Expr.runsCode])

end Expressions

/-! ## Actions that cannot fail -/

/-- The action does not end with an error. -/
def CannotFail (x : Eval α) : Prop :=
  ∀ ⦃s e t⦄, x s ≠ some (.error e, t)

namespace CannotFail

theorem pure (a : α) : CannotFail (Pure.pure a : Eval α) := by
  intro s e t h
  exact absurd (pure_eq_some_iff.1 h).1 (by simp)

theorem bind {x : Eval α} {f : α → Eval β} (hx : CannotFail x) (hf : ∀ a, CannotFail (f a)) :
    CannotFail (x >>= f) := by
  intro s e t h
  rcases bind_eq_some_iff.1 h with ⟨e', he, -⟩ | ⟨a, u, -, hb⟩
  · exact hx he
  · exact hf a hb

theorem update (f : Session → Session) : CannotFail (Eval.update f) := by
  intro s e t h
  simp [Eval.update] at h

theorem trace (settings : Settings) (t : Session → Trace) :
    CannotFail (Eval.trace settings t) := by
  intro s e u h
  obtain ⟨notices, hend⟩ := trace_eq_some settings t s
  exact absurd (hend.symm.trans h) (by simp)

end CannotFail

/-! ## Failing actions -/

/-- If the action fails, the property holds then if it held before. -/
def PreservesOnFailure (I : Session → Prop) (x : Eval α) : Prop :=
  ∀ ⦃s e t⦄, x s = some (.error e, t) → I s → I t

namespace PreservesOnFailure

theorem of_preserves {x : Eval α} (hx : Preserves I x) : PreservesOnFailure I x := by
  intro s e t h hs
  exact hx h hs

theorem of_cannotFail {x : Eval α} (hx : CannotFail x) : PreservesOnFailure I x := by
  intro s e t h
  exact (hx h).elim

/-- What comes behind a first part may fail, as long as it changes nothing then. -/
theorem bind {x : Eval α} {f : α → Eval β} (hx : Preserves I x)
    (hf : ∀ a, PreservesOnFailure I (f a)) : PreservesOnFailure I (x >>= f) := by
  intro s e t h hs
  rcases bind_eq_some_iff.1 h with ⟨e', he, -⟩ | ⟨a, u, ha, hb⟩
  · exact hx he hs
  · exact hf a hb (hx ha hs)

/-- In front of what cannot fail. -/
theorem before {x : Eval α} {f : α → Eval β} (hx : PreservesOnFailure I x)
    (hf : ∀ a, CannotFail (f a)) : PreservesOnFailure I (x >>= f) := by
  intro s e t h hs
  rcases bind_eq_some_iff.1 h with ⟨e', he, -⟩ | ⟨a, u, -, hb⟩
  · exact hx he hs
  · exact (hf a hb).elim

theorem writePath (name : String) (path : List Value) (v : Value) :
    PreservesOnFailure I (Eval.writePath name path v) :=
  bind (.of_keeps (.arrayNamed name)) fun _ => bind (.of_keeps (.find _ _)) fun _ =>
    of_cannotFail (.update _)

theorem removeFrom (h : Handle) (label : String) (v : Value) :
    PreservesOnFailure I (Eval.removeFrom h label v) := by
  intro s e t ht hs
  unfold Eval.removeFrom at ht
  split at ht <;> simp only [Option.some.injEq, Prod.mk.injEq, reduceCtorEq, false_and] at ht
  exact ht.2 ▸ hs

section Heap

variable {s : Session}

theorem stepLocal (name : String) (direction : Direction) :
    PreservesOnFailure s.Allocates (Eval.stepLocal name direction) := by
  refine bind (.of_keeps (.getLocal name)) fun current => ?_
  split
  · exact of_preserves (.of_keeps (.fail _))
  · exact bind (preserves_applyBinary _ _ _) fun v => of_cannotFail (.update _)

theorem compoundValue (op : Arithmetic) (current v : Value) :
    PreservesOnFailure s.Allocates (Eval.compoundValue op current v) := by
  unfold Eval.compoundValue
  split
  · exact of_cannotFail ((CannotFail.update _).bind fun _ => .pure _)
  · exact of_preserves (preserves_applyBinary _ _ _)

end Heap

end PreservesOnFailure

/-- An update whose expressions run no code changes nothing but the number of arrays if it fails. -/
theorem preservesOnFailure_execute (settings : Settings) (levels : Nat) {s : Session} {stmt : Stmt}
    (hupdate : stmt.isUpdate = true)
    (hfree : ∀ e ∈ stmt.expressions, e.everywhere (!Expr.runsCode ·) = true) (frame : Frame) :
    PreservesOnFailure s.Allocates (execute settings levels stmt frame) := by
  cases levels with
  | zero =>
    unfold execute
    exact .of_preserves (.of_keeps .never)
  | succ levels =>
    have hpart : ∀ e ∈ stmt.expressions, Preserves s.Allocates (evaluate settings levels e) :=
      fun e he => preserves_evaluate settings levels (hfree e he)
    have hdone (y : Yield) : CannotFail (Pure.pure y : Eval Yield) := .pure y
    unfold execute
    split
    · exact .of_cannotFail (hdone _)
    · cases stmt with
      | assign name value =>
        exact .bind (hpart value (by simp [Stmt.expressions])) fun v =>
          .of_cannotFail ((CannotFail.update _).bind fun _ => hdone _)
      | assignAll names values =>
        exact .bind (.evaluateAll hpart) fun vs =>
          .of_cannotFail ((CannotFail.update _).bind fun _ => hdone _)
      | declareGlobal name value =>
        exact .bind (hpart value (by simp [Stmt.expressions])) fun v =>
          .of_cannotFail ((CannotFail.trace _ _).bind fun _ =>
            (CannotFail.update _).bind fun _ => hdone _)
      | promote name =>
        exact .bind (.of_keeps (.getLocal name)) fun v =>
          .of_cannotFail ((CannotFail.trace _ _).bind fun _ =>
            (CannotFail.update _).bind fun _ => hdone _)
      | assignIndex name indices value =>
        have hindices : ∀ e ∈ indices, Preserves s.Allocates (evaluate settings levels e) :=
          fun e he => hpart e (by simp [Stmt.expressions, he])
        exact .bind (.evaluateAll hindices) fun path =>
          .bind (hpart value (by simp [Stmt.expressions])) fun v =>
            (PreservesOnFailure.writePath name path v).before fun _ => hdone _
      | append container value =>
        exact .bind (hpart container (by simp [Stmt.expressions])) fun a =>
          .bind (.of_keeps (.target container a)) fun _ =>
            .bind (hpart value (by simp [Stmt.expressions])) fun v =>
              .of_cannotFail ((CannotFail.update _).bind fun _ => hdone _)
      | remove container value =>
        exact .bind (hpart container (by simp [Stmt.expressions])) fun a =>
          .bind (.of_keeps (.target container a)) fun _ =>
            .bind (hpart value (by simp [Stmt.expressions])) fun v =>
              (PreservesOnFailure.removeFrom _ _ v).before fun _ => hdone _
      | increment name direction =>
        exact (PreservesOnFailure.stepLocal name direction).before fun _ => hdone _
      | compound name op value =>
        exact .bind (.of_keeps (.getLocal name)) fun current =>
          .bind (hpart value (by simp [Stmt.expressions])) fun v =>
            (PreservesOnFailure.compoundValue op current v).before fun _ =>
              (CannotFail.update _).bind fun _ => hdone _
      | _ => exact absurd hupdate (by simp [Stmt.isUpdate])

end Eval

/-- **A failing update changes nothing.** If a statement that binds names or changes an array fails,
    with whatever error, and its expressions contain no call and no `eval`, then the session is what
    it was before in all its parts, but for arrays that were not there before. -/
theorem failed_update_unchanged (settings : Settings) (levels : Nat) {stmt : Stmt} {frame : Frame}
    {s t : Session} {e : RuntimeError} (hupdate : stmt.isUpdate = true)
    (hfree : ∀ e ∈ stmt.expressions, e.everywhere (!Expr.runsCode ·) = true)
    (h : execute settings levels stmt frame s = some (.error e, t)) :
    t = { s with heap := t.heap } ∧ s.heap.cells.size ≤ t.heap.cells.size ∧
      ∀ h, h.index < s.heap.cells.size → t.heap.elements h = s.heap.elements h := by
  have hpreserved := Eval.preservesOnFailure_execute (s := s) settings levels hupdate hfree frame
  obtain ⟨hsession, hheap⟩ := hpreserved h (.refl s)
  exact ⟨hsession, hheap.size_le, hheap.elements⟩

/-- A session whose local `a` is the array `[1]`. -/
def sessionWithArray : Session where
  heap := ⟨#[#[.int 1]]⟩
  locals := ({} : Bindings Value).insert "a" (.array ⟨0⟩)

/-- `a, b = [2], a - "t";`. -/
def bindsDifference : Stmt :=
  .assignAll ["a", "b"] [.array [.int 2], .binary (.arithmetic .subtract) (.name "a") (.text "t")]

/-- When the second value of two fails, the first one is an array already, but not bound. -/
theorem failed_update_unchanged_assignAll :
    ∃ t, execute {} 3 bindsDifference .program sessionWithArray =
        some (.error (.unsupportedOperands (.arithmetic .subtract) .array .text), t) ∧
      t.heap.cells.size = 2 ∧ t = { sessionWithArray with heap := t.heap } ∧
      t.heap.elements ⟨0⟩ = #[.int 1] := by
  obtain ⟨t, ht, hsize⟩ : ∃ t, execute {} 3 bindsDifference .program sessionWithArray =
      some (.error (.unsupportedOperands (.arithmetic .subtract) .array .text), t) ∧
      t.heap.cells.size = 2 := ⟨_, rfl, rfl⟩
  obtain ⟨hsession, -, helements⟩ := failed_update_unchanged {} 3 (by decide) (by decide) ht
  exact ⟨t, ht, hsize, hsession, helements ⟨0⟩ (by decide)⟩

end Scriptlet
