import Mathlib.Order.Basic
import Scriptlet.Proofs.Levels

set_option autoImplicit false

/-! # Restrictions

A restriction of evaluation stops some programs with an error of its own. It should do nothing else:
no construct of the language can observe the error or swallow it, and nothing is written while it
unwinds. `Outlasts` says so for a set of such errors. Whenever the restricted action ends in another
way, the unrestricted one does the same; and where the restriction stops it, the unrestricted one
goes on from there, so whatever it ends with, its output starts with what was written before.

The depth limit is such a restriction, and a smaller limit a stricter one
(`run_maxDepth_transparent`). Disabling `eval` is another one, whatever `eval` does otherwise
(`run_disabled_conservative`). -/

namespace Scriptlet.Eval

variable {α β : Type} {stops : RuntimeError → Prop}

/-! ## Stopped early -/

/-- Whenever the action ends from the session `s`, its output starts with that of `t`. -/
def Passes (y : Eval α) (s t : Session) : Prop :=
  ∀ ⦃r u⦄, y s = some (r, u) → t.sink.text.toList <+: u.sink.text.toList

/-- The second action does what the first one does, unless one of the given errors stops the
    first; then it gets at least as far. -/
structure Outlasts (stops : RuntimeError → Prop) (x y : Eval α) : Prop where
  appends : Appends y
  follows : ∀ ⦃s r t⦄, x s = some (r, t) →
    y s = some (r, t) ∨ ∃ e, stops e ∧ r = .error e ∧ Passes y s t

namespace Outlasts

theorem elementary {x : Eval α} (hx : Elementary x) : Outlasts stops x x :=
  ⟨hx.appends, fun _ _ _ h => .inl h⟩

theorem bind {x y : Eval α} {f g : α → Eval β} (hx : Outlasts stops x y)
    (hf : ∀ a, Outlasts stops (f a) (g a)) : Outlasts stops (x >>= f) (y >>= g) := by
  refine ⟨hx.appends.bind fun a => (hf a).appends, fun s r t h => ?_⟩
  rcases bind_eq_some_iff.1 h with ⟨e, he, rfl⟩ | ⟨a, u, ha, hb⟩
  · rcases hx.follows he with hsame | ⟨e', hstops, heq, hpasses⟩
    · exact .inl (bind_eq_some_iff.2 (.inl ⟨e, hsame, rfl⟩))
    · obtain rfl : e = e' := by simpa using heq
      refine .inr ⟨e, hstops, rfl, fun r' u' h' => ?_⟩
      -- the second sequence may go on behind `y`, but what follows only adds to the output
      rcases bind_eq_some_iff.1 h' with ⟨e', he', -⟩ | ⟨a, u, ha, hb⟩
      · exact hpasses he'
      · exact (hpasses ha).trans ((hf a).appends.text_isPrefix hb)
  · have hsame : y s = some (.ok a, u) := by
      rcases hx.follows ha with hsame | ⟨e, -, heq, -⟩
      · exact hsame
      · exact absurd heq (by simp)
    -- both sequences go on with the same value in the same session
    have hrest (r' : Except RuntimeError β) (u' : Session) :
        (y >>= g) s = some (r', u') ↔ g a u = some (r', u') := by
      rw [bind_eq_some_iff, hsame]
      constructor
      · rintro (⟨e, he, -⟩ | ⟨a', u₁, ha', hb'⟩)
        · exact absurd he (by simp)
        · simp only [Option.some.injEq, Prod.mk.injEq, Except.ok.injEq] at ha'
          obtain ⟨rfl, rfl⟩ := ha'
          exact hb'
      · intro hb'
        exact .inr ⟨a, u, rfl, hb'⟩
    rcases (hf a).follows hb with hsame' | ⟨e, hstops, heq, hpasses⟩
    · exact .inl ((hrest r t).2 hsame')
    · exact .inr ⟨e, hstops, heq, fun r' u' h' => hpasses ((hrest r' u').1 h')⟩

theorem rollback {x y : Eval α} (hx : Outlasts stops x y) :
    Outlasts stops (Eval.rollback x) (Eval.rollback y) := by
  refine ⟨hx.appends.rollback, fun s r t h => ?_⟩
  obtain ⟨u, hu, rfl⟩ := rollback_eq_some_iff.1 h
  rcases hx.follows hu with hsame | ⟨e, hstops, heq, hpasses⟩
  · exact .inl (rollback_eq_some_iff.2 ⟨u, hsame, rfl⟩)
  · refine .inr ⟨e, hstops, heq, fun r' u' h' => ?_⟩
    obtain ⟨v, hv, rfl⟩ := rollback_eq_some_iff.1 h'
    have hinside : u.sink.text.toList <+: v.sink.text.toList := hpasses hv
    exact hinside

/-- A level of calls may be harder to enter in the first evaluation, if the error that says so
    counts as a stop. -/
theorem deeper {limit limit' : Nat} (hle : limit ≤ limit')
    (hstops : limit ≠ limit' → stops (.depthExceeded limit)) {x y : Eval α}
    (hx : Outlasts stops x y) : Outlasts stops (Eval.deeper limit x) (Eval.deeper limit' y) := by
  have happends : Appends (Eval.deeper limit' y) := hx.appends.deeper limit'
  refine ⟨happends, fun s r t h => ?_⟩
  rcases Nat.lt_or_ge s.depth limit with hbelow | hlimit
  · have hbelow' : s.depth < limit' := Nat.lt_of_lt_of_le hbelow hle
    obtain ⟨u, hu, rfl⟩ := (deeper_eq_some_iff_of_lt hbelow).1 h
    rcases hx.follows hu with hsame | ⟨e, hstop, heq, hpasses⟩
    · exact .inl ((deeper_eq_some_iff_of_lt hbelow').2 ⟨u, hsame, rfl⟩)
    · refine .inr ⟨e, hstop, heq, fun r' u' h' => ?_⟩
      obtain ⟨v, hv, rfl⟩ := (deeper_eq_some_iff_of_lt hbelow').1 h'
      have hinside : u.sink.text.toList <+: v.sink.text.toList := hpasses hv
      exact hinside
  · rw [deeper_of_le hlimit] at h
    simp only [Option.some.injEq, Prod.mk.injEq] at h
    obtain ⟨rfl, rfl⟩ := h
    by_cases heq : limit = limit'
    · subst heq
      exact .inl (deeper_of_le hlimit y)
    · exact .inr ⟨_, hstops heq, rfl, fun r' u' h' => happends.text_isPrefix h'⟩

/-- Whatever relates the blocks of two runs relates the runs, unless `exit` counts as a stop: a run
    turns it into an outcome. -/
theorem run {left right : Settings} {levels : Nat} {program : Block} (hexit : ¬ stops .exit)
    (hblock : Outlasts stops
      (executeAll (execute left levels) program .program none)
      (executeAll (execute right levels) program .program none)) :
    Outlasts stops (Eval.run left levels program) (Eval.run right levels program) := by
  constructor
  · intro s r t h
    obtain ⟨q, u, hu, hend⟩ := exists_of_run h
    obtain rfl := eq_of_conclude hend
    exact hblock.appends hu
  · intro s r t h
    obtain ⟨q, u, hu, hend⟩ := exists_of_run h
    rcases hblock.follows hu with hsame | ⟨e, hstop, rfl, hpasses⟩
    · rw [run_eq_conclude, hsame]
      exact .inl hend
    · have hne : e ≠ .exit := by
        rintro rfl
        exact hexit hstop
      rw [conclude_error hne] at hend
      simp only [Option.some.injEq, Prod.mk.injEq] at hend
      obtain ⟨rfl, rfl⟩ := hend
      refine .inr ⟨e, hstop, rfl, fun r' t' h' => ?_⟩
      obtain ⟨q', u', hu', hend'⟩ := exists_of_run h'
      obtain rfl := eq_of_conclude hend'
      exact hpasses hu'

/-- An error that counts as a stop is outlasted by whatever only adds to the output. -/
theorem fail {e : RuntimeError} (he : stops e) {y : Eval α} (hy : Appends y) :
    Outlasts stops (Eval.fail e) y := by
  refine ⟨hy, fun s r t h => ?_⟩
  simp only [Eval.fail, Option.some.injEq, Prod.mk.injEq] at h
  obtain ⟨rfl, rfl⟩ := h
  exact .inr ⟨e, he, rfl, fun r' u h' => hy.text_isPrefix h'⟩

/-- What outlasting says about how two evaluations end. -/
theorem ends {x y : Nat → Eval α} (hxy : ∀ levels, Outlasts stops (x levels) (y levels))
    (hx : Ascending x) (hy : Ascending y) {s t : Session} {r : Except RuntimeError α}
    (h : Ends x s r t) :
    ((∀ e, stops e → r ≠ .error e) → Ends y s r t) ∧
    ∀ e, stops e → r = .error e → ∀ r' t', Ends y s r' t' →
      t.sink.text.toList <+: t'.sink.text.toList := by
  constructor
  · intro hother
    obtain ⟨levels, hrun⟩ := h
    rcases (hxy levels).follows hrun with hsame | ⟨e, he, heq, -⟩
    · exact ⟨levels, hsame⟩
    · exact absurd heq (hother e he)
  · intro e he heq r' t' h'
    obtain ⟨levels, hrun, hrun'⟩ := h.common hx hy h'
    rcases (hxy levels).follows hrun with hsame | ⟨-, -, -, hpasses⟩
    -- an end with the same error is an end in the same session
    · have hends : some (r, t) = some (r', t') := hsame.symm.trans hrun'
      simp only [Option.some.injEq, Prod.mk.injEq] at hends
      obtain ⟨-, rfl⟩ := hends
      exact List.prefix_rfl
    · exact hpasses hrun'

end Outlasts

/-! ## The depth limit -/

/-- The error of the depth limit, whatever the limit is. -/
def IsDepthExceeded (e : RuntimeError) : Prop :=
  ∃ limit, e = .depthExceeded limit

/-- The same evaluation with a greater depth limit. -/
def greaterDepth (settings : Settings) {limit limit' : Nat} (hle : limit ≤ limit') :
    Simulation { settings with maxDepth := limit } { settings with maxDepth := limit' } 0 where
  Rel := Outlasts IsDepthExceeded
  never _ h := absurd rfl h
  elementary := Outlasts.elementary
  bind := Outlasts.bind
  rollback := Outlasts.rollback
  deeper := Outlasts.deeper hle fun _ => ⟨limit, rfl⟩
  trace _ := ⟨.of_keeps (.trace (fun _ _ => rfl) _ _), fun _ _ _ h => .inl h⟩
  report faults := ⟨.of_keeps (.report (fun _ _ => rfl) faults), fun _ _ _ h => .inl h⟩

theorem outlasts_run_maxDepth (settings : Settings) {limit limit' : Nat} (hle : limit ≤ limit')
    (levels : Nat) (program : Block) :
    Outlasts IsDepthExceeded (run { settings with maxDepth := limit } levels program)
      (run { settings with maxDepth := limit' } levels program) := by
  have htexts := (greaterDepth settings hle).relatesTexts rfl
  have hs := ((greaterDepth settings hle).evaluate_execute htexts levels).2
  refine .run ?_ ((greaterDepth settings hle).executeAll hs program .program none)
  rintro ⟨limit, h⟩
  exact absurd h (by simp)

end Scriptlet.Eval

namespace Scriptlet

open Eval

/-- **The depth limit is transparent.** A run that ends in any way but at the depth limit ends in
    the same way, with the same session, under every greater limit. A run that ends at the limit has
    written the beginning of what a run under a greater limit writes, if that one ends. -/
theorem run_maxDepth_transparent (settings : Settings) {limit limit' : Nat}
    (hle : limit ≤ limit') (program : Block) {s t : Session} {r : Except RuntimeError Outcome}
    (h : Ends (fun levels => run { settings with maxDepth := limit } levels program) s r t) :
    ((∀ e, IsDepthExceeded e → r ≠ .error e) →
      Ends (fun levels => run { settings with maxDepth := limit' } levels program) s r t) ∧
    ∀ e, IsDepthExceeded e → r = .error e → ∀ r' t',
      Ends (fun levels => run { settings with maxDepth := limit' } levels program) s r' t' →
        t.sink.text.toList <+: t'.sink.text.toList :=
  Outlasts.ends (outlasts_run_maxDepth settings hle · program) (ascending_run _ program)
    (ascending_run _ program) h

/-- `f` writes `a` and calls `g`, which writes `b`. -/
def nestedCalls : Block :=
  [.define "g" [] [.print [.text "b"]], .define "f" [] [.print [.text "a"], .call "g" []],
    .call "f" []]

/-- Under a limit of one the inner call fails behind the output of the outer one; under a limit of
    two the program completes, and so it does under a limit of three. -/
theorem run_maxDepth_transparent_nestedCalls :
    ∃ t t', Ends (fun levels => run { maxDepth := 1 } levels nestedCalls) {}
        (.error (.depthExceeded 1)) t ∧ t.sink.text = "a\n" ∧
      Ends (fun levels => run { maxDepth := 2 } levels nestedCalls) {} (.ok .completed) t' ∧
      t'.sink.text = "a\nb\n" ∧ t.sink.text.toList <+: t'.sink.text.toList ∧
      Ends (fun levels => run { maxDepth := 3 } levels nestedCalls) {} (.ok .completed) t' := by
  have hstopped : (run { maxDepth := 1 } 5 nestedCalls {}).map (fun x => (x.1, x.2.sink.text)) =
      some (.error (.depthExceeded 1), "a\n") := by decide +kernel
  have hcompleted : (run { maxDepth := 2 } 5 nestedCalls {}).map (fun x => (x.1, x.2.sink.text)) =
      some (.ok .completed, "a\nb\n") := by decide +kernel
  obtain ⟨t, hrun, htext⟩ := exists_of_output hstopped
  obtain ⟨t', hrun', htext'⟩ := exists_of_output hcompleted
  have hends : Ends (fun levels => run { maxDepth := 1 } levels nestedCalls) {} _ t := ⟨5, hrun⟩
  have hends' : Ends (fun levels => run { maxDepth := 2 } levels nestedCalls) {} _ t' :=
    ⟨5, hrun'⟩
  have htwo := (run_maxDepth_transparent {} (show 1 ≤ 2 by decide) nestedCalls hends).2 _ ⟨1, rfl⟩
    rfl _ t' hends'
  have hthree := (run_maxDepth_transparent {} (show 2 ≤ 3 by decide) nestedCalls hends').1
    fun e _ => by simp
  exact ⟨t, t', hends, htext, hends', htext', htwo, hthree⟩

end Scriptlet

/-! ## Disabled `eval` -/

namespace Scriptlet.Eval

/-- The same evaluation with `eval` enabled: all that differs is what becomes of its texts. -/
def enabledEval (settings : Settings) (dynamic : Dynamic) :
    Simulation { settings with dynamic := .disabled } { settings with dynamic } 0 where
  Rel := Outlasts (· = .evalDisabled)
  never _ h := absurd rfl h
  elementary := Outlasts.elementary
  bind := Outlasts.bind
  rollback := Outlasts.rollback
  deeper := Outlasts.deeper (Nat.le_refl _) fun h => absurd rfl h
  trace _ := ⟨.of_keeps (.trace (fun _ _ => rfl) _ _), fun _ _ _ h => .inl h⟩
  report faults := ⟨.of_keeps (.report (fun _ _ => rfl) faults), fun _ _ _ h => .inl h⟩

/-- A disabled `eval` fails at once, and its error is the one that counts as a stop. -/
theorem relatesTexts_enabledEval (settings : Settings) (dynamic : Dynamic) :
    (enabledEval settings dynamic).RelatesTexts := by
  intro evaluate₁ evaluate₂ he code
  refine (enabledEval settings dynamic).bind ((enabledEval settings dynamic).trace fun _ _ => rfl)
    fun _ => Outlasts.fail ?_ ?_
  · rfl
  -- whatever the text is taken for, the enabled `eval` only adds to the output
  · cases dynamic with
    | disabled => exact .of_keeps (.fail _)
    | stub answer => exact .of_keeps (.reply _)
    | expression =>
      refine .bind (.of_keeps (.report (fun _ _ => rfl) _)) fun _ => ?_
      cases (Expr.ofSource code).result with
      | error e => exact .of_keeps (.fail _)
      | ok e => exact (he e).appends.deeper _

theorem outlasts_run_enabledEval (settings : Settings) (dynamic : Dynamic) (levels : Nat)
    (program : Block) :
    Outlasts (· = .evalDisabled) (run { settings with dynamic := .disabled } levels program)
      (run { settings with dynamic } levels program) := by
  have htexts := relatesTexts_enabledEval settings dynamic
  have hs := ((enabledEval settings dynamic).evaluate_execute htexts levels).2
  exact .run (by simp) ((enabledEval settings dynamic).executeAll hs program .program none)

end Scriptlet.Eval

namespace Scriptlet

open Eval

/-- **Disabling `eval` is conservative.** A run with `eval` disabled that ends in any way but with
    the error for it ends in the same way, with the same session, whatever `eval` does. A run that
    ends with that error has written the beginning of what a run with another `eval` writes, if that
    one ends. -/
theorem run_disabled_conservative (settings : Settings) (dynamic : Dynamic) (program : Block)
    {s t : Session} {r : Except RuntimeError Outcome}
    (h : Ends (fun levels => run { settings with dynamic := .disabled } levels program) s r t) :
    (r ≠ .error .evalDisabled →
      Ends (fun levels => run { settings with dynamic } levels program) s r t) ∧
    (r = .error .evalDisabled → ∀ r' t',
      Ends (fun levels => run { settings with dynamic } levels program) s r' t' →
        t.sink.text.toList <+: t'.sink.text.toList) := by
  have hends := Outlasts.ends (outlasts_run_enabledEval settings dynamic · program)
    (ascending_run _ program) (ascending_run _ program) h
  refine ⟨fun hother => hends.1 ?_, hends.2 _ rfl⟩
  rintro e rfl
  exact hother

/-- Gives every text back. -/
def echo : Dynamic := .stub fun code => .ok (.text code)

/-- Writes `a`, and then what `eval` makes of the text `"b"`. -/
def printsEval : Block :=
  [.print [.text "a"], .print [.eval (.text "\"b\"")]]

/-- With `eval` disabled the program fails behind its first line; with a stub that gives every text
    back it completes, and the first line is the beginning of what it writes. A program without
    `eval` completes both ways. -/
theorem run_disabled_conservative_printsEval :
    ∃ t t' u, Ends (fun levels => run { dynamic := .disabled } levels printsEval) {}
        (.error .evalDisabled) t ∧ t.sink.text = "a\n" ∧
      Ends (fun levels => run { dynamic := echo } levels printsEval) {} (.ok .completed) t' ∧
      t'.sink.text = "a\n\"b\"\n" ∧ t.sink.text.toList <+: t'.sink.text.toList ∧
      Ends (fun levels => run { dynamic := .disabled } levels nestedCalls) {} (.ok .completed) u ∧
      Ends (fun levels => run {} levels nestedCalls) {} (.ok .completed) u := by
  have hstopped : (run { dynamic := .disabled } 5 printsEval {}).map
      (fun x => (x.1, x.2.sink.text)) = some (.error .evalDisabled, "a\n") := by decide +kernel
  have hstub : (run { dynamic := echo } 5 printsEval {}).map
      (fun x => (x.1, x.2.sink.text)) = some (.ok .completed, "a\n\"b\"\n") := by decide +kernel
  have hnested : (run { dynamic := .disabled } 5 nestedCalls {}).map
      (fun x => (x.1, x.2.sink.text)) = some (.ok .completed, "a\nb\n") := by decide +kernel
  obtain ⟨t, hrun, htext⟩ := exists_of_output hstopped
  obtain ⟨t', hrun', htext'⟩ := exists_of_output hstub
  obtain ⟨u, hcompleted, -⟩ := exists_of_output hnested
  have hends : Ends (fun levels => run { dynamic := .disabled } levels printsEval) {} _ t :=
    ⟨5, hrun⟩
  have hends' : Ends (fun levels => run { dynamic := echo } levels printsEval) {} _ t' :=
    ⟨5, hrun'⟩
  have hdisabled : Ends (fun levels => run { dynamic := .disabled } levels nestedCalls) {} _ u :=
    ⟨5, hcompleted⟩
  have hbeginning := (run_disabled_conservative {} echo printsEval hends).2 rfl _ t' hends'
  have hsame := (run_disabled_conservative {} .expression nestedCalls hdisabled).1 (by simp)
  exact ⟨t, t', u, hends, htext, hends', htext', hbeginning, hdisabled, hsame⟩

end Scriptlet
