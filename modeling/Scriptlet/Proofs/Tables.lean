import Mathlib.Order.Basic
import Scriptlet.Proofs.Continuation

set_option autoImplicit false

/-! # Globals and functions

The two tables that outlive the activation of a function, the globals and the functions, are changed
by three statements: two bind a global name, one defines a function. Nothing else changes them, and
no text given to `eval` does by itself: it can only call functions that are in sight already. And
since no rollback reaches the tables, an entry once made is never lost again
(`tables_change_by_statements`). -/

namespace Scriptlet

open Eval

/-- Whether the statement binds the global name. -/
def Stmt.bindsGlobal (name : String) (stmt : Stmt) : Bool :=
  stmt.globalName? == some name

/-- Whether the statement defines the function. -/
def Stmt.defines (name : String) : Stmt → Bool
  | define other _ _ => other == name
  | _ => false

/-- Whatever has an entry in the tables of the first session has one in those of the second. -/
structure Session.EntriesIn (s t : Session) : Prop where
  globals : ∀ name, s.globals.contains name = true → t.globals.contains name = true
  functions : ∀ name, s.functions.contains name = true → t.functions.contains name = true

theorem Bindings.contains_insert {α : Type} (b : Bindings α) {name other : String} (a : α)
    (h : b.contains other = true) : (b.insert name a).contains other = true := by
  by_cases hname : name = other
  · subst hname
    simp [contains]
  · unfold contains
    rw [get?_insert_of_ne b a hname]
    exact h

/-! ## What no permitted statement breaks -/

theorem unbroken_global (name : String) (bound : Option Value) :
    Unbroken (!Stmt.bindsGlobal name ·) fun globals _ => globals.get? name = bound := by
  refine ⟨fun stmt other hstmt hother globals _ v h => ?_, fun _ _ _ _ _ _ h => h⟩
  have hne : other ≠ name := by
    rintro rfl
    simp [Stmt.bindsGlobal, hother] at hstmt
  rw [Bindings.get?_insert_of_ne globals v hne]
  exact h

theorem unbroken_function (name : String) (defined : Option Function) :
    Unbroken (!Stmt.defines name ·) fun _ functions => functions.get? name = defined := by
  refine ⟨fun _ _ _ _ _ _ _ h => h, fun other parameters body hstmt _ functions h => ?_⟩
  have hne : other ≠ name := by
    rintro rfl
    simp [Stmt.defines] at hstmt
  rw [Bindings.get?_insert_of_ne functions _ hne]
  exact h

theorem unbroken_contains_global (name : String) :
    Unbroken (fun _ => true) fun globals _ => globals.contains name = true :=
  ⟨fun _ _ _ _ globals _ v h => globals.contains_insert v h, fun _ _ _ _ _ _ h => h⟩

theorem unbroken_contains_function (name : String) :
    Unbroken (fun _ => true) fun _ functions => functions.contains name = true :=
  ⟨fun _ _ _ _ _ _ _ h => h, fun _ _ _ _ _ functions h => functions.contains_insert _ h⟩

/-- Entries are what no statement breaks. -/
theorem Session.EntriesIn.of_unbroken {s t : Session}
    (h : ∀ I, Unbroken (fun _ => true) I → Closed (fun _ => true) I s →
      Closed (fun _ => true) I t) : s.EntriesIn t := by
  have hs {I : Bindings Value → Bindings Function → Prop} (hI : I s.globals s.functions) :
      Closed (fun _ => true) I s := ⟨fun _ _ _ => Block.everywhere_true _, hI⟩
  refine ⟨fun name hname => ?_, fun name hname => ?_⟩
  · exact (h _ (unbroken_contains_global name) (hs hname)).tables
  · exact (h _ (unbroken_contains_function name) (hs hname)).tables

/-! ## Runs -/

section Runs

variable {settings : Settings} {program : Block} {s t : Session} {a : Point} {levels : Nat}
  {r : Except RuntimeError Outcome}

theorem entriesIn_run (h : run settings levels program s = some (r, t)) : s.EntriesIn t := by
  refine .of_unbroken fun I hI hs => ?_
  exact (persistent_closed hI settings).run levels (Block.everywhere_true program) h hs

theorem ComesTo.entriesIn (h : ComesTo settings program s a) : s.EntriesIn a.session := by
  refine .of_unbroken fun I hI hs => ?_
  exact (h.inherits (persistent_closed hI settings) (Block.everywhere_true program) hs).2

theorem ComesTo.entriesIn_end (h : ComesTo settings program s a)
    (hrun : run settings levels program s = some (r, t)) : a.session.EntriesIn t := by
  refine .of_unbroken fun I hI ha => ?_
  -- the entry is there when the task ends, and lasts from then on
  have hJ := lasting_of_unbroken hI settings
  obtain ⟨q, v, ⟨n, hv⟩, hlasts⟩ := h.ends hJ hrun
  exact hlasts (hJ.task n a.task hv ha)

/-- **Globals and functions change by their own statements alone.** However a run ends: a global
    name that no statement in sight binds, neither in the program nor in a function that is defined
    nor in a function definition in either, is bound to what it was bound to before, or not bound if
    it was not; the same holds of a function that no statement in sight defines; and no entry is
    ever lost, neither from the start to the end nor from anything that the run comes to on the way,
    inside whatever branches, loops, calls and texts given to `eval`, to the end. -/
theorem tables_change_by_statements (h : run settings levels program s = some (r, t)) :
    (∀ name, Absent (Stmt.bindsGlobal name) program s →
      t.globals.get? name = s.globals.get? name) ∧
    (∀ name, Absent (Stmt.defines name) program s →
      t.functions.get? name = s.functions.get? name) ∧
    s.EntriesIn t ∧
    ∀ a, ComesTo settings program s a → s.EntriesIn a.session ∧ a.session.EntriesIn t := by
  refine ⟨fun name habsent => ?_, fun name habsent => ?_, entriesIn_run h,
    fun a ha => ⟨ha.entriesIn, ha.entriesIn_end h⟩⟩
  · have hI := unbroken_global name (s.globals.get? name)
    have hkept := (persistent_closed hI settings).run levels habsent.program h
    exact (hkept ⟨habsent.functions, rfl⟩).tables
  · have hI := unbroken_function name (s.functions.get? name)
    have hkept := (persistent_closed hI settings).run levels habsent.program h
    exact (hkept ⟨habsent.functions, rfl⟩).tables

end Runs

/-- A session with a global `x` and a function `h` that returns one. -/
def sessionWithGlobal : Session where
  globals := ({} : Bindings Value).insert "x" (.int 1)
  functions := ({} : Bindings Function).insert "h" ⟨[], [.return_ (.int 1)]⟩

/-- `if 1 { global y = 2; } eval("h()");`. -/
def declaresInBranch : Block :=
  [.branch (.int 1) [.declareGlobal "y" (.int 2)] [], .expression (.eval (.text "h()"))]

/-- A global bound inside a branch is still bound at the end; the other entries are as before. -/
theorem tables_change_by_statements_branch :
    ∃ t, run {} 6 declaresInBranch sessionWithGlobal = some (.ok .completed, t) ∧
      t.globals.get? "x" = some (.int 1) ∧ t.functions.contains "h" = true ∧
      ∀ a, ComesTo {} declaresInBranch sessionWithGlobal a → a.session.EntriesIn t := by
  have hresult : (run {} 6 declaresInBranch sessionWithGlobal).map
      (fun x => (x.1, x.2.sink.text)) = some (.ok .completed, "") := by decide +kernel
  obtain ⟨t, hrun, -⟩ := exists_of_output hresult
  obtain ⟨hglobals, hfunctions, hentries, hcomes⟩ := tables_change_by_statements hrun
  have habsent : Absent (Stmt.bindsGlobal "x") declaresInBranch sessionWithGlobal :=
    ⟨by decide, Session.everywhere_of_entries (by decide)⟩
  refine ⟨t, hrun, (hglobals "x" habsent).trans (by decide), ?_, fun a ha => (hcomes a ha).2⟩
  exact hentries.functions "h" (by decide)

end Scriptlet
