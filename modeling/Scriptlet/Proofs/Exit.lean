import Mathlib.Order.Basic
import Scriptlet.Proofs.Continuation

set_option autoImplicit false

/-! # Exit

An `exit` is an error inside and a good end outside. Nothing but the statement raises it, and it is
raised by the statement alone: behind an evaluation that ends with it lies an `exit` statement which
was executed, and what was written in the end is what was written when it was reached, and the line
`Bye` (`exists_exit_of_error`). Nothing catches it either, so a run that comes to an `exit` ends
there, and a run that ends so has come to one (`run_exits`). -/

namespace Scriptlet

open Eval

/-- Whether the statement is an `exit`. -/
def Stmt.isExit : Stmt → Bool
  | exit => true
  | _ => false

/-! ## Where it comes from -/

/-- If the action ends with `exit`, then the sink is as stated. -/
def exiting (P : Sink → Prop) : Guarantee where
  Holds x s := ∀ k t, x k s = some (.error .exit, t) → P t.sink
  harmless := by
    rintro α x s ⟨r, t, hx, hr, -, -⟩ _ t' hx'
    have hend := hx.symm.trans hx'
    simp only [Option.some.injEq, Prod.mk.injEq] at hend
    exact absurd hend.1 hr
  endless := by
    intro α β x y s hx _ _ k t h
    exact absurd h (by simp [hx])
  bind := by
    intro α β x f s hx hf k t h
    rcases bind_eq_some_iff.1 h with ⟨e, he, hexit⟩ | ⟨a, u, ha, hb⟩
    · simp only [Except.error.injEq] at hexit
      exact hx k t (hexit ▸ he)
    · exact hf k a u ha k t hb
  rollback := by
    intro α x s hx k t h
    obtain ⟨u, hu, rfl⟩ := rollback_eq_some_iff.1 h
    exact hx k u hu
  deeper := by
    intro α x s limit hx k t h
    rcases Nat.lt_or_ge s.depth limit with hbelow | hlimit
    · obtain ⟨u, hu, rfl⟩ := (deeper_eq_some_iff_of_lt hbelow).1 h
      exact hx hbelow k u hu
    · have hend := (deeper_of_le hlimit (x k)).symm.trans h
      simp at hend

section Origin

variable {settings : Settings}

/-- The own part: binding and defining do not end with `exit`, and the statement itself writes its
    line before it does. -/
theorem own_exiting {P : Sink → Prop} {stmt : Stmt} {s : Session}
    (hexit : stmt = .exit → P (s.sink.push "Bye\n")) : (exiting P).Own stmt s := by
  have hglobal (name : String) (v : Value) (u : Session) :
      (exiting P).Holds (fun _ => setGlobal name v) u := by
    intro _ t h
    simp [setGlobal, update] at h
  cases stmt with
  | exit =>
    intro _ t h
    rcases bind_eq_some_iff.1 h with ⟨e, he, heq⟩ | ⟨_, u, hu, hfail⟩
    · obtain ⟨r, _, hwrite, hr⟩ := writeLine_eq_some "Bye" s
      obtain ⟨rfl, -⟩ : _ ∧ _ := by simpa using hwrite.symm.trans he
      obtain rfl : RuntimeError.exit = e := by simpa using heq
      exact absurd rfl hr
    · simp only [fail, Option.some.injEq, Prod.mk.injEq] at hfail
      obtain ⟨-, rfl⟩ := hfail
      unfold writeLine at hu
      split at hu
      · simp at hu
      · simp only [Option.some.injEq, Prod.mk.injEq] at hu
        obtain ⟨-, rfl⟩ := hu
        exact hexit rfl
  | define name parameters body =>
    intro u _ t h
    simp [update] at h
  | declareGlobal name value => exact hglobal name
  | promote name => exact hglobal name
  | _ => trivial

/-- Behind a task that ends with `exit` lies an `exit` statement, and since it was executed nothing
    but its line was written. -/
theorem exists_exit_of_error (n : Nat) (a : Point) :
    (exiting fun sink => ∃ frame u, frame ≠ .function true ∧
      Relation.ReflTransGen (Starts settings) a ⟨.statement .exit frame, u⟩ ∧
        sink = u.sink.push "Bye\n").Holds (fun _ => a.task.run settings n) a.session := by
  have hnever (P : Sink → Prop) (u : Session) :
      (exiting P).Holds (fun _ => (never : Eval Yield)) u := by
    intro _ t h
    exact absurd h (by simp [never])
  induction n generalizing a with
  | zero => exact Guarantee.holds_zero _ (hnever _) a
  | succ n ih =>
    refine Guarantee.holds_task _ (hnever _) (fun stmt frame htask hframe => own_exiting ?_)
      fun b hb k t h => ?_
    · rintro rfl
      refine ⟨frame, a.session, hframe, ?_, rfl⟩
      rw [← htask]
    · obtain ⟨frame, u, hframe, hreach, hsink⟩ := ih b k t h
      exact ⟨frame, u, hframe, .head hb hreach, hsink⟩

/-- The same of a program. -/
theorem exists_exit_of_block {n : Nat} {program : Block} {s t : Session}
    (h : runBlock settings n program .program s = some (.error .exit, t)) :
    ∃ frame u, frame ≠ .function true ∧ ComesTo settings program s ⟨.statement .exit frame, u⟩ ∧
      t.sink = u.sink.push "Bye\n" := by
  let P (sink : Sink) : Prop := ∃ frame u, frame ≠ .function true ∧
    ComesTo settings program s ⟨.statement .exit frame, u⟩ ∧ sink = u.sink.push "Bye\n"
  have hblock : (exiting P).Holds (fun _ => runBlock settings n program .program) s := by
    refine (exiting P).holds_executeAll (fun m stmt frame' u hreach k t h => ?_) none
    obtain ⟨frame, u', hframe, hstarts, hsink⟩ :=
      exists_exit_of_error n ⟨.statement stmt frame', u⟩ k t h
    exact ⟨frame, u', hframe, ⟨m, stmt, frame', u, hreach, hstarts⟩, hsink⟩
  exact hblock 0 t h

end Origin

/-! ## Where it leads to -/

/-- Whatever is evaluated only adds to the output. -/
theorem persistent_appends (settings : Settings) (s : Session) :
    Persistent settings (fun _ => true) fun u =>
      ∃ written, u.sink = s.sink.push written := by
  have happends {α : Type} {x : Eval α} (hx : Appends x) : Preserves
      (fun u => ∃ written, u.sink = s.sink.push written) x := by
    rintro u r t h ⟨first, hu⟩
    obtain ⟨second, ht⟩ := hx h
    exact ⟨first ++ second, by rw [ht, hu, Sink.push_push]⟩
  have hwalk := (appending settings).evaluate_execute ((appending settings).relatesTexts rfl)
  refine ⟨fun _ _ _ _ _ => Block.everywhere_true _, fun _ _ _ _ hs => hs, fun n e => ?_,
    fun n stmt frame _ => ?_⟩
  · exact happends ((hwalk n).1 e)
  · exact happends ((hwalk n).2 stmt frame)

theorem ComesTo.appends {settings : Settings} {program : Block} {s : Session} {a : Point}
    (h : ComesTo settings program s a) :
    ∃ written, a.session.sink = s.sink.push written :=
  (h.inherits (persistent_appends settings s) (Block.everywhere_true program)
    ⟨"", (Sink.push_empty _).symm⟩).2

theorem execute_exit {settings : Settings} {frame : Frame} (hframe : frame ≠ .function true)
    {s : Session} (hwrite : ∀ text line, s.sink.writeFailure? text line = none) (n : Nat) :
    execute settings (n + 1) .exit frame s =
      some (.error .exit, { s with sink := s.sink.push "Bye\n" }) := by
  unfold execute
  rw [if_neg hframe]
  simp [bind, Eval.bind, writeLine, hwrite, fail]

section Runs

variable {settings : Settings} {program : Block} {s t : Session} {levels : Nat}
  {r : Except RuntimeError Outcome}

/-- A program that comes to an `exit` ends there. -/
theorem ComesTo.exits {frame : Frame} {u : Session}
    (hwrite : ∀ text line, s.sink.writeFailure? text line = none)
    (hflush : ∀ text, s.sink.flushFailure? text = none)
    (h : ComesTo settings program s ⟨.statement .exit frame, u⟩) (hframe : frame ≠ .function true)
    (hrun : run settings levels program s = some (r, t)) :
    r = .ok .exited ∧ t.sink = u.sink.push "Bye\n" := by
  obtain ⟨written, hsink⟩ := h.appends
  have hwrite' : ∀ text line, u.sink.writeFailure? text line = none := by
    rw [hsink]
    exact hwrite
  have hexit : execute settings 1 .exit frame u = _ := execute_exit hframe hwrite' 0
  obtain ⟨n, t', hblock, -, -, hlast⟩ := h.error (n := 1) hexit
  have hexited : run settings n program s = some (.ok .exited, t') := by
    rw [run_eq_map hflush]
    exact congrArg (Option.map _) hblock
  obtain ⟨m, hm, hm'⟩ := Ends.common (ascending_run settings program)
    (ascending_run settings program) ⟨levels, hrun⟩ ⟨n, hexited⟩
  rw [hm] at hm'
  simp only [Option.some.injEq, Prod.mk.injEq] at hm'
  obtain ⟨rfl, rfl⟩ := hm'
  exact ⟨rfl, hlast⟩

/-- Where output can be flushed, the end of a run is that of its block. -/
theorem exists_block_of_run (hflush : ∀ text, s.sink.flushFailure? text = none)
    (h : run settings levels program s = some (r, t)) :
    ∃ q, runBlock settings levels program .program s = some (q, t) ∧ r = outcomeOf q := by
  rw [run_eq_map hflush, Option.map_eq_some_iff] at h
  obtain ⟨⟨q, t'⟩, hblock, heq⟩ := h
  simp only [Prod.mk.injEq] at heq
  obtain ⟨rfl, rfl⟩ := heq
  exact ⟨q, hblock, rfl⟩

/-- A run that is ended by an `exit` has come to the statement. -/
theorem exists_exit_of_run (hflush : ∀ text, s.sink.flushFailure? text = none)
    (h : run settings levels program s = some (.ok .exited, t)) :
    ∃ frame u, frame ≠ .function true ∧ ComesTo settings program s ⟨.statement .exit frame, u⟩ ∧
      t.sink = u.sink.push "Bye\n" := by
  obtain ⟨q, hblock, hexited⟩ := exists_block_of_run hflush h
  obtain rfl := eq_exit_of_outcomeOf hexited.symm
  exact exists_exit_of_block hblock

/-- **`exit` is neither missed, nor caught, nor followed by anything.** Where output works, a run
    never fails with it. A run that is ended by it has come to an `exit` statement outside of what a
    `return` passes over, and what it has written is what was written then and the line `Bye`. A run
    that comes to such a statement is ended by it. And where no `exit` is in sight, neither in the
    program nor in a function that is defined nor in a function definition in either, no run is
    ended by one, whatever texts it gives to `eval`. -/
theorem run_exits (hwrite : ∀ text line, s.sink.writeFailure? text line = none)
    (hflush : ∀ text, s.sink.flushFailure? text = none)
    (h : run settings levels program s = some (r, t)) :
    r ≠ .error .exit ∧
    (r = .ok .exited → ∃ frame u written, frame ≠ .function true ∧
      ComesTo settings program s ⟨.statement .exit frame, u⟩ ∧
      u.sink.text = s.sink.text ++ written ∧
      t.sink.text = s.sink.text ++ written ++ "Bye\n") ∧
    (∀ frame u, frame ≠ .function true →
      ComesTo settings program s ⟨.statement .exit frame, u⟩ →
        r = .ok .exited ∧ t.sink.text = u.sink.text ++ "Bye\n") ∧
    (Absent Stmt.isExit program s → r ≠ .ok .exited) := by
  refine ⟨?_, fun hexited => ?_, fun frame u hframe hcomes => ?_, fun habsent hexited => ?_⟩
  · obtain ⟨q, -, rfl⟩ := exists_block_of_run hflush h
    exact outcomeOf_ne_exit q
  · obtain ⟨frame, u, hframe, hcomes, hsink⟩ := exists_exit_of_run hflush (hexited ▸ h)
    obtain ⟨written, hwritten⟩ := hcomes.appends
    have htext : u.sink.text = s.sink.text ++ written := by rw [hwritten, Sink.text_push]
    refine ⟨frame, u, written, hframe, hcomes, htext, ?_⟩
    rw [hsink, Sink.text_push, htext]
  · obtain ⟨hexited, hsink⟩ := hcomes.exits hwrite hflush hframe h
    exact ⟨hexited, by rw [hsink, Sink.text_push]⟩
  · obtain ⟨frame, u, -, hcomes, -⟩ := exists_exit_of_run hflush (hexited ▸ h)
    have htask := (hcomes.inherits (persistent_everywhere _ settings) habsent.program
      habsent.functions).1
    exact absurd htask (by simp [Task.Everywhere, Stmt.everywhere, Stmt.isExit])

end Runs

/-- A session with a function `f` that exits. -/
def sessionWithExit : Session where
  functions := ({} : Bindings Function).insert "f" ⟨[], [.exit]⟩

/-- `print("a"); eval("f()"); print("b");`. -/
def exitsInEval : Block :=
  [.print [.text "a"], .expression (.eval (.text "f()")), .print [.text "b"]]

/-- The `exit` of a function that is called by a text given to `eval` ends the run. -/
theorem run_exits_in_eval :
    ∃ t, run {} 7 exitsInEval sessionWithExit = some (.ok .exited, t) ∧
      ∃ frame u, ComesTo {} exitsInEval sessionWithExit ⟨.statement .exit frame, u⟩ ∧
        u.sink.text ++ "Bye\n" = t.sink.text ∧ t.sink.text = "a\nBye\n" := by
  have hresult : (run {} 7 exitsInEval sessionWithExit).map
      (fun x => (x.1, x.2.sink.text)) = some (.ok .exited, "a\nBye\n") := by decide +kernel
  obtain ⟨t, hrun, htext⟩ := exists_of_output hresult
  obtain ⟨-, hexited, hcomes, -⟩ := run_exits (fun _ _ => rfl) (fun _ => rfl) hrun
  obtain ⟨frame, u, written, hframe, hreach, -, -⟩ := hexited rfl
  exact ⟨t, hrun, frame, u, hreach, (hcomes frame u hframe hreach).2.symm, htext⟩

end Scriptlet
