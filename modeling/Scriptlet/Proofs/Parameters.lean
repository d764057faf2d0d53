import Scriptlet.Proofs.ScopeRestoration
import Scriptlet.Proofs.Tasks

set_option autoImplicit false

/-! # Calls and their parameters

A call is refused before anything else happens if its function is not defined or takes another
number of arguments. Otherwise its arguments are evaluated, which may run any code and even define
the function anew, but not change what was found: the body that runs is the one found, in bindings
made of the parameters found and the values of the arguments, and of nothing else
(`call_binds_parameters`).

What was found fits, so no parameter is left without a value. Where a parameter is named twice, the
pair of name and value that comes last counts (`Bindings.get?_insertAll_empty`). -/

namespace Scriptlet

/-! ## Bindings made in order -/

namespace Bindings

variable {α : Type}

/-- The last pair with the name counts, and without one the binding that was there. -/
theorem get?_insertAll (b : Bindings α) (pairs : List (String × α)) (name : String) :
    (b.insertAll pairs).get? name =
      ((pairs.reverse.find? (·.1 == name)).map (·.2)).or (b.get? name) := by
  induction pairs generalizing b with
  | nil => rfl
  | cons pair pairs ih =>
    have hinsert : (b.insertAll (pair :: pairs)) = (b.insert pair.1 pair.2).insertAll pairs := rfl
    rw [hinsert, ih, List.reverse_cons, List.find?_append, Option.map_or, Option.or_assoc]
    congr 1
    by_cases hname : pair.1 = name
    · subst hname
      simp
    · simp [hname, get?_insert_of_ne b pair.2 hname]

theorem get?_insertAll_empty {pairs : List (String × α)} {name : String} {a : α} :
    (({} : Bindings α).insertAll pairs).get? name = some a ↔
      ∃ front back, pairs = front ++ (name, a) :: back ∧ ∀ pair ∈ back, pair.1 ≠ name := by
  rw [get?_insertAll, get?_empty, Option.or_none, Option.map_eq_some_iff]
  constructor
  · rintro ⟨⟨_, _⟩, hfound, rfl⟩
    obtain ⟨hname, before, after, hpairs, hbefore⟩ := List.find?_eq_some_iff_append.1 hfound
    obtain rfl := beq_iff_eq.1 hname
    refine ⟨after.reverse, before.reverse, ?_, fun pair hmem => ?_⟩
    · rw [← List.reverse_reverse pairs, hpairs]
      simp
    · simpa using hbefore pair (List.mem_reverse.1 hmem)
  · rintro ⟨front, back, rfl, hback⟩
    refine ⟨(name, a), List.find?_eq_some_iff_append.2 ⟨beq_self_eq_true name, back.reverse,
      front.reverse, by simp, fun pair hmem => ?_⟩, rfl⟩
    simpa using hback pair (List.mem_reverse.1 hmem)

/-- Exactly the names of the pairs are bound. -/
theorem contains_insertAll_empty {pairs : List (String × α)} {name : String} :
    (({} : Bindings α).insertAll pairs).contains name = true ↔ name ∈ pairs.map (·.1) := by
  simp [contains, get?_insertAll]

end Bindings

namespace Eval

variable {settings : Settings} {n : Nat} {name : String} {arguments : List Expr} {f : Function}
  {values : List Value} {s s₀ : Session}

/-! ## Arguments -/

theorem length_of_evaluateAll {evaluate : Expr → Eval Value} {es : List Expr} {t : Session}
    (h : evaluateAll evaluate es s = some (.ok values, t)) : values.length = es.length := by
  induction es generalizing s values with
  | nil =>
    obtain ⟨hvalues, -⟩ := pure_eq_some_iff.1 h
    obtain rfl : values = [] := by simpa using hvalues
    rfl
  | cons e es ih =>
    obtain ⟨v, s₁, -, hrest⟩ := bind_eq_ok_iff.1 h
    obtain ⟨vs, s₂, hvs, hpure⟩ := bind_eq_ok_iff.1 hrest
    obtain ⟨hvalues, rfl⟩ := pure_eq_some_iff.1 hpure
    obtain rfl : values = v :: vs := by simpa using hvalues
    simp [ih hvs]

/-- Each expression of a list is evaluated in the scope in which the list is. -/
theorem scope_of_listReaches {es : List Expr} {e : Expr} {u : Session}
    (h : ListReaches (evaluate settings n) es s e u) : u.scope = s.scope := by
  induction h with
  | head => rfl
  | tail hfirst _ ih => rw [ih, (keeps_scope settings n).1 _ hfirst]

/-! ## Refused calls -/

/-- A call ends with the error and changes nothing, in an expression and as a statement; and it does
    so whatever evaluating expressions and executing statements may do. -/
structure Refuses (settings : Settings) (name : String) (arguments : List Expr) (s : Session)
    (e : RuntimeError) : Prop where
  whatever : ∀ evaluate execute, invoke settings evaluate execute name arguments s =
    some (.error e, s)
  expression : ∀ n, evaluate settings (n + 1) (.call name arguments) s = some (.error e, s)
  statement : ∀ n frame, frame ≠ .function true →
    execute settings (n + 1) (.call name arguments) frame s = some (.error e, s)

theorem Refuses.of_invoke {e : RuntimeError}
    (h : ∀ evaluate execute, invoke settings evaluate execute name arguments s =
      some (.error e, s)) : Refuses settings name arguments s e where
  whatever := h
  expression n := bind_eq_some_iff.2 (.inl ⟨e, h _ _, rfl⟩)
  statement n frame hframe := by
    rw [execute_call hframe]
    exact bind_eq_some_iff.2 (.inl ⟨e, h _ _, rfl⟩)

theorem refuses_of_undefined (h : s.functions.get? name = none) :
    Refuses settings name arguments s (.functionNotFound name) := by
  refine .of_invoke fun evaluate execute => bind_eq_some_iff.2 (.inl ⟨_, ?_, rfl⟩)
  simp [find, h]

theorem refuses_of_arity (h : s.functions.get? name = some f)
    (harity : f.parameters.length ≠ arguments.length) :
    Refuses settings name arguments s
      (.argumentCount name f.parameters.length arguments.length) := by
  refine .of_invoke fun evaluate execute => bind_eq_some_iff.2 (.inr ⟨f, s, ?_, ?_⟩)
  · exact find_eq_ok_iff.2 ⟨h, rfl⟩
  · rw [if_pos harity]
    rfl

/-! ## Calls that come to the body -/

/-- How a call ends, from how the body of the function ends: with the bindings and the depth of the
    caller, with what the body yields, and with a trace if the body ends without an error. -/
def callEnd (settings : Settings) (name : String) (caller : Session) :
    Except RuntimeError Yield × Session → Except RuntimeError (Option Value) × Session
  | (.error e, u) => (.error e, { u with locals := caller.locals, depth := u.depth - 1 })
  | (.ok (yielded, _), u) =>
    (.ok yielded, { u with
      locals := caller.locals
      depth := u.depth - 1
      notices :=
        if settings.verbose then
          u.notices.push (.trace (.returning name (yielded.map u.heap.inspect)))
        else u.notices })

/-- A call in an expression needs a value. -/
def neededValue (name : String) : Except RuntimeError (Option Value) → Except RuntimeError Value
  | .error e => .error e
  | .ok none => .error (.noReturnValue name)
  | .ok (some v) => .ok v

theorem callBody_eq_map (hdepth : s.depth < settings.maxDepth) :
    callBody settings n name f.parameters.length f values s =
      (runBlock settings n f.body (.function false) (s.entered settings name f values)).map
        fun (r, u) => (r.map (·.1), { u with locals := s.locals, depth := u.depth - 1 }) := by
  unfold callBody deeper rollback
  rw [if_neg (Nat.not_le_of_lt hdepth), entering_eq]
  simp only [bind, Eval.bind]
  rcases runBlock settings n f.body (.function false) (s.entered settings name f values) with
    _ | ⟨e | y, u⟩ <;> rfl

theorem invoke_eq_map (hdefined : s.functions.get? name = some f)
    (harity : f.parameters.length = arguments.length)
    (hvalues : evaluateAll (evaluate settings n) arguments s = some (.ok values, s₀))
    (hdepth : s₀.depth < settings.maxDepth) :
    invoke settings (evaluate settings n) (execute settings n) name arguments s =
      (runBlock settings n f.body (.function false) (s₀.entered settings name f values)).map
        (callEnd settings name s₀) := by
  have hfind : find (·.functions.get? name) (fun _ => .functionNotFound name) s =
      some (.ok f, s) := find_eq_ok_iff.2 ⟨hdefined, rfl⟩
  rw [invoke_eq_callBody]
  simp only [bind, Eval.bind, hfind, harity, ne_eq, not_true_eq_false, if_false, hvalues]
  rw [← harity, callBody_eq_map hdepth]
  rcases runBlock settings n f.body (.function false) (s₀.entered settings name f values) with
    _ | ⟨e | y, u⟩
  · rfl
  · rfl
  · -- only here, where the body ends well, is the return traced
    simp only [Option.map_some, Except.map, trace, callEnd]
    cases settings.verbose <;> rfl

end Eval

open Eval

/-- **A call binds exactly its parameters.** If the function is not defined, or takes another number
    of arguments, the call fails and changes nothing, whatever its arguments are. Otherwise, if
    these evaluate to `values`, each of them in the scope of the caller, and one more level of calls
    is allowed, the call ends as the body ends that the function had before, run in bindings where
    exactly its parameters are bound: to `v` where `v` belongs to the last pair with that name. The
    session in which the arguments have been evaluated need not have the same function any more. -/
theorem call_binds_parameters (settings : Settings) (name : String) (arguments : List Expr)
    (s : Session) :
    (s.functions.get? name = none →
      Refuses settings name arguments s (.functionNotFound name)) ∧
    (∀ f, s.functions.get? name = some f → f.parameters.length ≠ arguments.length →
      Refuses settings name arguments s
        (.argumentCount name f.parameters.length arguments.length)) ∧
    ∀ f n values s₀, s.functions.get? name = some f → f.parameters.length = arguments.length →
      evaluateAll (evaluate settings n) arguments s = some (.ok values, s₀) →
      s.depth < settings.maxDepth →
        (∀ e u, ListReaches (evaluate settings n) arguments s e u →
          u.locals = s.locals ∧ u.depth = s.depth) ∧
        values.length = f.parameters.length ∧
        (∀ x, (s₀.entered settings name f values).locals.contains x = true ↔ x ∈ f.parameters) ∧
        (∀ x v, (s₀.entered settings name f values).locals.get? x = some v ↔
          ∃ front back, f.parameters.zip values = front ++ (x, v) :: back ∧
            ∀ pair ∈ back, pair.1 ≠ x) ∧
        evaluate settings (n + 1) (.call name arguments) s =
          ((runBlock settings n f.body (.function false)
              (s₀.entered settings name f values)).map (callEnd settings name s₀)).map
            (fun (r, t) => (neededValue name r, t)) ∧
        ∀ frame, frame ≠ .function true →
          execute settings (n + 1) (.call name arguments) frame s =
            ((runBlock settings n f.body (.function false)
                (s₀.entered settings name f values)).map (callEnd settings name s₀)).map
              (fun (r, t) => (r.map (·, frame), t)) := by
  refine ⟨refuses_of_undefined, fun f => refuses_of_arity, ?_⟩
  intro f n values s₀ hdefined harity hvalues hdepth
  have hlength : values.length = f.parameters.length :=
    (length_of_evaluateAll hvalues).trans harity.symm
  have hscope : s₀.scope = s.scope :=
    Keeps.evaluateAll (keeps_scope settings n).1 arguments hvalues
  have hdepth₀ : s₀.depth < settings.maxDepth := by
    have hsame : s₀.depth = s.depth := congrArg Prod.snd hscope
    rwa [hsame]
  have hinvoke := invoke_eq_map hdefined harity hvalues hdepth₀
  refine ⟨fun e u hreach => ?_, hlength, fun x => ?_, fun x v => Bindings.get?_insertAll_empty,
    ?_, fun frame hframe => ?_⟩
  · have hreached := scope_of_listReaches hreach
    exact ⟨congrArg Prod.fst hreached, congrArg Prod.snd hreached⟩
  · have hnames : (f.parameters.zip values).map (·.1) = f.parameters :=
      List.map_fst_zip (Nat.le_of_eq hlength.symm)
    exact Bindings.contains_insertAll_empty.trans (by rw [hnames])
  · rw [evaluate_call]
    simp only [bind, Eval.bind, hinvoke]
    rcases runBlock settings n f.body (.function false) (s₀.entered settings name f values) with
      _ | ⟨e | ⟨_ | v, frame⟩, u⟩ <;> rfl
  · rw [execute_call hframe]
    simp only [bind, Eval.bind, hinvoke]
    rcases runBlock settings n f.body (.function false) (s₀.entered settings name f values) with
      _ | ⟨e | y, u⟩ <;> rfl

/-- `function f() { return 5; }`, inside a function. -/
def redefiningBody : Block :=
  [.define "f" [] [.return_ (.int 5)], .return_ (.int 1)]

/-- A session with a function `f` that names its parameter twice and a function `g` that defines `f`
    anew. -/
def sessionWithRedefinition : Session where
  functions := ({} : Bindings Function).insert "f" ⟨["x", "x"], [.return_ (.name "x")]⟩
    |>.insert "g" ⟨[], redefiningBody⟩

/-- `f(g(), 2)` runs the body that `f` had before, with the second argument as `x`; `f(g())` and a
    call of a function that is not defined do not come to their argument. -/
theorem call_binds_parameters_redefined :
    (∀ n, evaluate {} (n + 1) (.call "f" [.call "g" []]) sessionWithRedefinition =
      some (.error (.argumentCount "f" 2 1), sessionWithRedefinition)) ∧
    (∀ n, evaluate {} (n + 1) (.call "h" [.call "g" []]) sessionWithRedefinition =
      some (.error (.functionNotFound "h"), sessionWithRedefinition)) ∧
    ∃ values s₀ t, evaluateAll (evaluate {} 4) [.call "g" [], .int 2] sessionWithRedefinition =
        some (.ok values, s₀) ∧
      s₀.functions.get? "f" = some ⟨[], [.return_ (.int 5)]⟩ ∧
      evaluate {} 5 (.call "f" [.call "g" [], .int 2]) sessionWithRedefinition =
        some (.ok (.int 2), t) := by
  have hnone : sessionWithRedefinition.functions.get? "h" = none := by decide
  have hfound : sessionWithRedefinition.functions.get? "f" =
      some ⟨["x", "x"], [.return_ (.name "x")]⟩ := rfl
  have hvalues : evaluateAll (evaluate {} 4) [.call "g" [], .int 2] sessionWithRedefinition =
      some (.ok [.int 1, .int 2], { sessionWithRedefinition with
        functions := sessionWithRedefinition.functions.insert "f" ⟨[], [.return_ (.int 5)]⟩ }) :=
    rfl
  have hdepth : sessionWithRedefinition.depth < ({} : Settings).maxDepth := by decide
  obtain ⟨hundefined, -, -⟩ := call_binds_parameters {} "h" [.call "g" []] sessionWithRedefinition
  obtain ⟨-, harity, -⟩ := call_binds_parameters {} "f" [.call "g" []] sessionWithRedefinition
  obtain ⟨-, -, hfits⟩ :=
    call_binds_parameters {} "f" [.call "g" [], .int 2] sessionWithRedefinition
  obtain ⟨-, -, -, -, hcall, -⟩ := hfits _ 4 _ _ hfound rfl hvalues hdepth
  refine ⟨(harity _ hfound (by decide)).expression, (hundefined hnone).expression, _, _, _, hvalues,
    Bindings.get?_insert_self .., hcall.trans rfl⟩

end Scriptlet
