import Mathlib.Order.Basic
import Scriptlet.Proofs.Levels
import Scriptlet.Proofs.PrintedForm
import Scriptlet.Proofs.ScopeRestoration

set_option autoImplicit false

/-! # Evaluating written expressions

`eval` takes an expression through its written form and back: what the text of an expression
evaluates to is what the expression evaluates to, one level of calls deeper (`eval_render`). That
the text is read as the expression is a matter of writing and reading. What is left is that `eval`
also leaves notices, a trace and the faults of the text; evaluation never looks at notices, so they
make no difference to anything else (`ignoresNotices_evaluate`). -/

namespace Scriptlet

/-- Two sessions with the same bindings, functions, arrays and output. They may differ in the depth
    and in the notices. -/
structure Session.SameContents (s t : Session) : Prop where
  locals : s.locals = t.locals
  globals : s.globals = t.globals
  functions : s.functions = t.functions
  heap : s.heap = t.heap
  sink : s.sink = t.sink

namespace Eval

variable {α β : Type}

/-! ## Notices -/

/-- Whenever the first action ends, the second one ends with the same result, whatever the notices
    are, and leaves a session that differs in its notices alone. -/
def IgnoresNotices (x y : Eval α) : Prop :=
  ∀ ⦃s r t⦄, x s = some (r, t) → ∀ notices, ∃ notices',
    y { s with notices } = some (r, { t with notices := notices' })

namespace IgnoresNotices

theorem elementary {x : Eval α} (hx : Elementary x) : IgnoresNotices x x := by
  intro s r t h notices
  exact ⟨notices, hx.end_notices h notices⟩

theorem bind {x y : Eval α} {f g : α → Eval β} (hx : IgnoresNotices x y)
    (hf : ∀ a, IgnoresNotices (f a) (g a)) : IgnoresNotices (x >>= f) (y >>= g) := by
  intro s r t h notices
  rcases bind_eq_some_iff.1 h with ⟨e, he, hr⟩ | ⟨a, u, ha, hb⟩
  · obtain ⟨notices', he'⟩ := hx he notices
    exact ⟨notices', bind_eq_some_iff.2 (.inl ⟨e, he', hr⟩)⟩
  · obtain ⟨between, ha'⟩ := hx ha notices
    obtain ⟨notices', hb'⟩ := hf a hb between
    exact ⟨notices', bind_eq_some_iff.2 (.inr ⟨a, _, ha', hb'⟩)⟩

theorem rollback {x y : Eval α} (hx : IgnoresNotices x y) :
    IgnoresNotices (Eval.rollback x) (Eval.rollback y) := by
  intro s r t h notices
  obtain ⟨u, hu, rfl⟩ := rollback_eq_some_iff.1 h
  obtain ⟨notices', hu'⟩ := hx hu notices
  exact ⟨notices', rollback_eq_some_iff.2 ⟨_, hu', rfl⟩⟩

theorem deeper (limit : Nat) {x y : Eval α} (hx : IgnoresNotices x y) :
    IgnoresNotices (Eval.deeper limit x) (Eval.deeper limit y) := by
  intro s r t h notices
  rcases Nat.lt_or_ge s.depth limit with hbelow | hlimit
  · obtain ⟨u, hu, rfl⟩ := (deeper_eq_some_iff_of_lt hbelow).1 h
    obtain ⟨notices', hu'⟩ := hx hu notices
    have hbelow' : ({ s with notices } : Session).depth < limit := hbelow
    exact ⟨notices', (deeper_eq_some_iff_of_lt hbelow').2 ⟨_, hu', rfl⟩⟩
  · rw [deeper_of_le hlimit] at h
    simp only [Option.some.injEq, Prod.mk.injEq] at h
    obtain ⟨rfl, rfl⟩ := h
    have hlimit' : limit ≤ ({ s with notices } : Session).depth := hlimit
    exact ⟨notices, deeper_of_le hlimit' y⟩

end IgnoresNotices

theorem report_eq_some (faults : List Fault) (s : Session) :
    ∃ notices, report faults s = some (.ok (), { s with notices }) :=
  ⟨_, rfl⟩

/-- An action that ends well whatever the session is, and changes the notices alone. -/
theorem IgnoresNotices.of_forall {x : Eval Unit}
    (hx : ∀ s, ∃ notices, x s = some (.ok (), { s with notices })) : IgnoresNotices x x := by
  intro s r t h notices
  obtain ⟨left, hleft⟩ := hx s
  obtain ⟨notices', hright⟩ := hx { s with notices }
  rw [hleft] at h
  simp only [Option.some.injEq, Prod.mk.injEq] at h
  obtain ⟨rfl, rfl⟩ := h
  exact ⟨notices', hright⟩

/-- The same evaluation with other notices. -/
def otherNotices (settings : Settings) : Simulation settings settings 0 where
  Rel := IgnoresNotices
  never _ h := absurd rfl h
  elementary := IgnoresNotices.elementary
  bind := IgnoresNotices.bind
  rollback := IgnoresNotices.rollback
  deeper := IgnoresNotices.deeper settings.maxDepth
  trace _ := .of_forall (trace_eq_some settings _)
  report faults := .of_forall (report_eq_some faults)

theorem ignoresNotices_evaluate (settings : Settings) (levels : Nat) (e : Expr) :
    IgnoresNotices (evaluate settings levels e) (evaluate settings levels e) :=
  ((otherNotices settings).evaluate_execute ((otherNotices settings).relatesTexts rfl) levels).1 e

/-! ## Texts -/

section Texts

variable {settings : Settings} {code : String} {e : Expr} {s : Session}

/-- A text that reads as an expression is evaluated as that expression, one level deeper and with
    other notices. -/
theorem evaluateText_of_ofSource (hdynamic : settings.dynamic = .expression)
    (hread : (Expr.ofSource code).result = .ok e) (evaluate : Expr → Eval Value) (s : Session) :
    ∃ notices, evaluateText settings evaluate code s =
      deeper settings.maxDepth (evaluate e) { s with notices } := by
  obtain ⟨traced, htrace⟩ := trace_eq_some settings (fun _ => .evaluating code) s
  obtain ⟨reported, hreport⟩ :=
    report_eq_some (Expr.ofSource code).faults { s with notices := traced }
  refine ⟨reported, ?_⟩
  unfold evaluateText
  simp only [hdynamic, hread, bind, Eval.bind, htrace, hreport]

variable (hdynamic : settings.dynamic = .expression) (hread : (Expr.ofSource code).result = .ok e)
  (hdepth : s.depth < settings.maxDepth) {levels : Nat} {r : Except RuntimeError Value}

include hdynamic hread hdepth

theorem evaluate_of_evaluateText {t : Session}
    (h : evaluateText settings (evaluate settings levels) code s = some (r, t)) :
    ∃ t', evaluate settings levels e { s with depth := s.depth + 1 } = some (r, t') ∧
      t.SameContents t' := by
  obtain ⟨notices, htext⟩ := evaluateText_of_ofSource hdynamic hread (evaluate settings levels) s
  rw [htext] at h
  have hbelow : ({ s with notices } : Session).depth < settings.maxDepth := hdepth
  obtain ⟨u, hu, rfl⟩ := (deeper_eq_some_iff_of_lt hbelow).1 h
  -- without the notices that the text has left, the expression ends in the same way
  obtain ⟨notices', hu'⟩ := ignoresNotices_evaluate settings levels e hu s.notices
  exact ⟨{ u with notices := notices' }, hu', ⟨rfl, rfl, rfl, rfl, rfl⟩⟩

theorem evaluateText_of_evaluate {t' : Session}
    (h : evaluate settings levels e { s with depth := s.depth + 1 } = some (r, t')) :
    ∃ t, evaluateText settings (evaluate settings levels) code s = some (r, t) ∧
      t.SameContents t' := by
  obtain ⟨notices, htext⟩ := evaluateText_of_ofSource hdynamic hread (evaluate settings levels) s
  rw [htext]
  have hbelow : ({ s with notices } : Session).depth < settings.maxDepth := hdepth
  obtain ⟨notices', hu⟩ := ignoresNotices_evaluate settings levels e h notices
  have hdeeper := (deeper_eq_some_iff_of_lt hbelow).2 ⟨_, hu, rfl⟩
  exact ⟨_, hdeeper, ⟨rfl, rfl, rfl, rfl, rfl⟩⟩

end Texts

/-- With fewer levels than these, a text given to `eval` is not even reached. -/
theorem evaluate_eval_text (settings : Settings) (levels : Nat) (code : String) :
    evaluate settings (levels + 2) (.eval (.text code)) =
      evaluateText settings (evaluate settings (levels + 1)) code :=
  rfl

theorem exists_levels_of_eval_text {settings : Settings} {levels : Nat} {code : String}
    {s t : Session} {r : Except RuntimeError Value}
    (h : evaluate settings levels (.eval (.text code)) s = some (r, t)) :
    ∃ n, evaluateText settings (evaluate settings (n + 1)) code s = some (r, t) := by
  cases levels with
  | zero => exact absurd h (by simp [evaluate, never])
  | succ levels =>
    cases levels with
    | zero => exact absurd h (by simp [evaluate, never, bind, Eval.bind])
    | succ n =>
      rw [evaluate_eval_text] at h
      exact ⟨n, h⟩

end Eval

/-! ## Written expressions -/

theorem Expr.ofSource_render_of_nesting_le {e : Expr} (h : e.Printable)
    (hn : e.nesting ≤ nestingLimit) : (Expr.ofSource e.render).result = .ok e :=
  ofSource_of_spells (spells_render h) (expression_lexemes h hn)

open Eval

/-- **`eval` of a written expression is the expression.** Where `eval` reads expressions and one
    more level of calls is allowed, the text of a printable expression evaluates with the same
    result as the expression does one level deeper, and to the same bindings, functions, arrays and
    output; each of the two ends if the other does, and `eval` leaves the depth as it was. -/
theorem eval_render {e : Expr} (he : e.Printable) (hnesting : e.nesting ≤ nestingLimit)
    {settings : Settings} (hdynamic : settings.dynamic = .expression) {s : Session}
    (hdepth : s.depth < settings.maxDepth) :
    (∀ r t, Ends (fun levels => evaluate settings levels (.eval (.text e.render))) s r t →
      t.depth = s.depth ∧ ∃ t',
        Ends (fun levels => evaluate settings levels e) { s with depth := s.depth + 1 } r t' ∧
          t.SameContents t') ∧
    ∀ r t', Ends (fun levels => evaluate settings levels e) { s with depth := s.depth + 1 } r t' →
      ∃ t, Ends (fun levels => evaluate settings levels (.eval (.text e.render))) s r t ∧
        t.depth = s.depth ∧ t.SameContents t' := by
  have hread := Expr.ofSource_render_of_nesting_le he hnesting
  have hkeeps (levels : Nat) :
      Keeps (·.depth) (evaluate settings levels (.eval (.text e.render))) :=
    ((keeps_scope settings levels).1 _).depth_of_scope
  constructor
  · rintro r t ⟨levels, h⟩
    obtain ⟨n, htext⟩ := exists_levels_of_eval_text h
    obtain ⟨t', h', hsame⟩ := evaluate_of_evaluateText hdynamic hread hdepth htext
    exact ⟨hkeeps levels h, t', ⟨n + 1, h'⟩, hsame⟩
  · rintro r t' ⟨levels, h⟩
    have hmore : evaluate settings (levels + 1) e { s with depth := s.depth + 1 } = some (r, t') :=
      ascending_evaluate settings e (Nat.le_succ levels) h
    obtain ⟨t, htext, hsame⟩ := evaluateText_of_evaluate hdynamic hread hdepth hmore
    rw [← evaluate_eval_text] at htext
    exact ⟨t, ⟨levels + 2, htext⟩, hkeeps (levels + 2) htext, hsame⟩

/-- A session with a function `g` that writes `hi` and returns one. -/
def sessionWithGreeting : Session :=
  { functions :=
      ({} : Bindings Function).insert "g" ⟨[], [.print [.text "hi"], .return_ (.int 1)]⟩ }

/-- `(g() + eval("g()"))`. -/
def Expr.greetTwice : Expr :=
  .binary (.arithmetic .add) (.call "g" []) (.eval (.text "g()"))

theorem Expr.printable_greetTwice : greetTwice.Printable :=
  .binary _ (.call (by decide) (by simp)) (.eval (.text (by decide)))

/-- The text of an expression with a call and a further `eval` has the value and the output of the
    expression. -/
theorem eval_render_greetTwice :
    Expr.greetTwice.Printable ∧ Expr.greetTwice.nesting ≤ nestingLimit ∧
      ∃ t, Ends (fun levels => evaluate {} levels (.eval (.text Expr.greetTwice.render)))
          sessionWithGreeting (.ok (.int 2)) t ∧ t.depth = 0 ∧ t.sink.text = "hi\nhi\n" := by
  have hnesting : Expr.greetTwice.nesting ≤ nestingLimit := by decide
  have hresult : (evaluate {} 5 Expr.greetTwice { sessionWithGreeting with depth := 1 }).map
      (fun x => (x.1, x.2.sink.text)) = some (.ok (.int 2), "hi\nhi\n") := by decide +kernel
  obtain ⟨t', hrun, htext⟩ := exists_of_output hresult
  have hdynamic : ({} : Settings).dynamic = .expression := rfl
  have hbelow : sessionWithGreeting.depth < ({} : Settings).maxDepth := by decide
  obtain ⟨t, hends, hdepth, hsame⟩ :=
    (eval_render Expr.printable_greetTwice hnesting hdynamic hbelow).2 _ t' ⟨5, hrun⟩
  exact ⟨Expr.printable_greetTwice, hnesting, t, hends, hdepth, hsame.sink ▸ htext⟩

end Scriptlet
