import Scriptlet.Proofs.Trail

set_option autoImplicit false

/-! # The value of a call

Where the value that a statement yields comes from. An event of its trail hands a value up if it is
a completed `return` or a call that stands as a statement, and not in the header clauses of a `for`,
whose values are dropped. A statement yields the last value that is handed up in it
(`accounts_record`).

So whether a call in an expression has a value can be read off the trail of its activation
(`call_value_of_trail`). Its `return`s alone do not tell (`not_forall_call_fails_iff_no_return`). -/

namespace Scriptlet

open Eval

/-! ## The value that is yielded -/

/-- The value that an event hands up to the activation: what happens in the header clauses of a
    `for` hands up nothing. -/
def Event.handedUp (e : Event) : Option Value :=
  if e.inClause then none else e.yielded

/-- The last value that is handed up. -/
def lastYield (es : Trail) : Option Value :=
  (es.filterMap Event.handedUp).getLast?

section LastYield

theorem lastYield_append (a b : Trail) : lastYield (a ++ b) = (lastYield b).or (lastYield a) := by
  rw [lastYield, List.filterMap_append, List.getLast?_append]
  rfl

theorem lastYield_test (path : List Site) (start : Session) (condition : Expr) (holds : Bool)
    (es : Trail) : lastYield (⟨path, start, .test condition holds⟩ :: es) = lastYield es := by
  have hnone : Event.handedUp ⟨path, start, .test condition holds⟩ = none := by
    simp [Event.handedUp, Event.yielded, Event.returned, Event.called]
  rw [lastYield, List.filterMap_cons_none hnone]
  rfl

theorem lastYield_under {site : Site} (hsite : site.isClause = false) (es : Trail) :
    lastYield (es.map (.under site)) = lastYield es := by
  have hsame : Event.handedUp ∘ Event.under site = Event.handedUp := by
    funext e
    simp [Event.handedUp, hsite]
  rw [lastYield, List.filterMap_map, hsame]
  rfl

theorem lastYield_under_clause {site : Site} (hsite : site.isClause = true) (es : Trail) :
    lastYield (es.map (.under site)) = none := by
  have hnone : ∀ e ∈ es, (Event.handedUp ∘ Event.under site) e = none := by
    intro e _
    simp [Event.handedUp, hsite]
  rw [lastYield, List.filterMap_map, List.filterMap_eq_nil_iff.2 hnone]
  rfl

theorem lastYield_eq_none_iff {es : Trail} : lastYield es = none ↔ ∀ e ∈ es, e.handedUp = none := by
  rw [lastYield, List.getLast?_eq_none_iff, List.filterMap_eq_nil_iff]

end LastYield

/-- A trail that accounts for the value yielded. -/
def Accounts (last : Option Value) (r : Yield × Trail) : Prop :=
  r.1.1 = (lastYield r.2).or last

namespace Eval

variable {record : Stmt → Frame → Eval (Yield × Trail)} {condition : Expr} {test : Eval Bool}
  {body step : Frame → Eval (Yield × Trail)}

theorem accounts_recordAll (h : ∀ stmt frame, Ensures (Accounts none) (record stmt frame))
    (block : Block) (index : Nat) (frame : Frame) (last : Option Value) :
    Ensures (Accounts last) (recordAll record block index frame last) := by
  induction block generalizing index frame last with
  | nil => exact .pure rfl
  | cons stmt rest ih =>
    refine (h stmt frame).bind fun first hfirst => ?_
    refine (ih _ _ _).bind fun more hmore => .pure ?_
    simp only [Accounts, Option.or_none] at hfirst hmore ⊢
    rw [hmore, lastYield_append, lastYield_under rfl, ← hfirst, Option.or_assoc,
      Option.orElse_eq_orElse, Option.orElse_eq_or]

theorem accounts_recordWhile (h : ∀ frame, Ensures (Accounts none) (body frame))
    (rounds round : Nat) (frame : Frame) :
    Ensures (Accounts none) (recordWhile condition test body rounds round frame) := by
  induction rounds generalizing round frame with
  | zero => exact .never
  | succ rounds ih =>
    refine .after fun start => .after fun holds => ?_
    cases holds with
    | false => exact .pure rfl
    | true =>
      refine (h frame).bind fun first hfirst => ?_
      obtain ⟨⟨_ | v, frame'⟩, es⟩ := first
      · refine (ih _ _).bind fun more hmore => .pure ?_
        simp only [Accounts, Option.or_none] at hfirst hmore ⊢
        rw [hmore, lastYield_test, lastYield_append, lastYield_under rfl, ← hfirst, Option.or_none]
      · refine .pure ?_
        simp only [Accounts, Option.or_none] at hfirst ⊢
        rw [lastYield_test, lastYield_under rfl, ← hfirst]

theorem accounts_recordFor (h : ∀ frame, Ensures (Accounts none) (body frame))
    (rounds round : Nat) (frame : Frame) (last : Option Value) :
    Ensures (Accounts last) (recordFor condition test body step rounds round frame last) := by
  induction rounds generalizing round frame last with
  | zero => exact .never
  | succ rounds ih =>
    refine .after fun start => .after fun holds => ?_
    cases holds with
    | false => exact .pure rfl
    | true =>
      refine (h frame).bind fun first hfirst => .after fun stepped => ?_
      refine (ih _ _ _).bind fun more hmore => .pure ?_
      -- what the step yields is dropped, and so it is from the trail
      simp only [Accounts, Option.or_none] at hfirst hmore ⊢
      rw [hmore, lastYield_test, lastYield_append, lastYield_append, lastYield_under_clause rfl,
        lastYield_under rfl, ← hfirst, Option.or_none, Option.or_assoc, Option.orElse_eq_orElse,
        Option.orElse_eq_or]

end Eval

theorem lastYield_singleton (e : Event) : lastYield [e] = e.handedUp := by
  cases h : e.handedUp <;> simp [lastYield, h]

/-- A statement that is neither a branch nor a loop hands up what it yields. -/
theorem accounts_simple (settings : Settings) (n : Nat) {stmt : Stmt} {frame : Frame}
    (hframe : frame ≠ .function true) (hstmt : stmt.isSimple = true) :
    Ensures (Accounts none) (record settings (n + 1) stmt frame) := by
  rw [record_simple hframe hstmt]
  by_cases hplain : stmt.isPlain = true
  · refine .after fun start => (ensures_of_isPlain hplain).bind fun y hy => .pure ?_
    subst hy
    rw [Accounts, Option.or_none, lastYield_singleton]
    cases stmt <;> rfl
  · refine .after fun start => .after fun y => .pure ?_
    rw [Accounts, Option.or_none, lastYield_singleton]
    cases stmt with
    | return_ value => exact (Option.or_none ..).symm
    | call f arguments => rfl
    | branch | whileLoop | forLoop => exact absurd hstmt (by simp [Stmt.isSimple])
    | _ => exact absurd rfl hplain

/-- **Where a value comes from.** A statement yields the last value that is handed up in it. -/
theorem accounts_record (settings : Settings) (n : Nat) (stmt : Stmt) (frame : Frame) :
    Ensures (Accounts none) (record settings n stmt frame) := by
  induction n generalizing stmt frame with
  | zero =>
    rw [record_zero]
    exact .never
  | succ n ih =>
    have hblock (block : Block) (frame : Frame) :
        Ensures (Accounts none) (recordBlock settings n block frame) :=
      accounts_recordAll ih block 0 frame none
    by_cases hframe : frame = .function true
    · subst hframe
      rw [record_returned]
      exact .pure rfl
    · cases stmt with
      | branch condition thenBlock elseBlock =>
        rw [record_branch hframe]
        refine .rollback (.after fun start => .after fun holds => ?_)
        refine (hblock _ frame).bind fun r hr => .pure ?_
        simp only [Accounts, Option.or_none] at hr ⊢
        rw [lastYield_test, lastYield_under rfl, hr]
      | whileLoop condition body =>
        rw [record_whileLoop hframe]
        exact .rollback (accounts_recordWhile (hblock body) n 0 frame)
      | forLoop init condition step body =>
        rw [record_forLoop hframe]
        refine .rollback (.after fun started => ?_)
        refine (accounts_recordFor (hblock body) n 0 _ none).bind fun r hr => .pure ?_
        simp only [Accounts, Option.or_none] at hr ⊢
        rw [lastYield_append, lastYield_under_clause rfl, hr, Option.or_none]
      | _ => exact accounts_simple settings n hframe rfl

/-! ## Calls -/

/-- An event hands nothing up just in case it happens in a header clause, or is neither a completed
    `return` nor a call that ended with a value. -/
theorem Event.handedUp_eq_none_iff {e : Event} :
    e.handedUp = none ↔ (e.inClause = false → e.returned = none ∧ e.called = none) := by
  rw [Event.handedUp, Event.yielded]
  cases e.inClause with
  | false => simp
  | true => simp

section Calls

variable {settings : Settings} {n : Nat} {name : String} {arguments : List Expr} {s : Session}

/-- Without an error inside, a call in an expression ends with the result of its function, or fails
    because there is none. -/
theorem evaluate_call_of_invoke {result : Option Value} {t : Session}
    (h : invoke settings (evaluate settings n) (execute settings n) name arguments s =
      some (.ok result, t)) :
    evaluate settings (n + 1) (.call name arguments) s =
      some (result.elim (.error (.noReturnValue name)) .ok, t) := by
  rw [evaluate_call]
  refine bind_eq_some_iff.2 (.inr ⟨result, t, h, ?_⟩)
  cases result <;> rfl

/-- **Whether a call in an expression has a value.** Suppose that a call comes to the body of its
    function and that the body ends without an error. The call fails because there is no value just
    in case no `return` in the trail of the body has completed and no call standing as a statement
    there has ended with a value, leaving aside the header clauses of `for` loops. Otherwise it has
    a value. -/
theorem call_value_of_trail {f : Function} {s₁ : Session}
    (henters : Enters settings n name arguments s f s₁) {y : Yield} {u : Session}
    (hbody : runBlock settings n f.body (.function false) s₁ = some (.ok y, u)) :
    ∃ es, recordBlock settings n f.body (.function false) s₁ = some (.ok (y, es), u) ∧
      ((∃ t, evaluate settings (n + 1) (.call name arguments) s =
          some (.error (.noReturnValue name), t)) ↔
        ∀ e ∈ es, e.inClause = false → e.returned = none ∧ e.called = none) ∧
      ((∃ v t, evaluate settings (n + 1) (.call name arguments) s = some (.ok v, t)) ↔
        ∃ e ∈ es, e.inClause = false ∧ (e.returned ≠ none ∨ e.called ≠ none)) := by
  obtain ⟨es, hrecord⟩ := exists_recordBlock hbody
  obtain ⟨result, frame⟩ := y
  have hresult : result = lastYield es := by
    have haccounts := accounts_recordAll (accounts_record settings n) f.body 0 _ none hrecord
    simpa [Accounts] using haccounts
  have hnone : result = none ↔
      ∀ e ∈ es, e.inClause = false → e.returned = none ∧ e.called = none := by
    rw [hresult, lastYield_eq_none_iff]
    exact forall₂_congr fun e _ => Event.handedUp_eq_none_iff
  obtain ⟨t, hinvoke⟩ := exists_invoke_eq_ok_iff.2 ⟨f, s₁, frame, u, henters, hbody⟩
  refine ⟨es, hrecord, ?_, ?_⟩
  · rw [← hnone, evaluate_call_of_invoke hinvoke]
    cases result <;> simp
  · have hsome : result ≠ none ↔
        ∃ e ∈ es, e.inClause = false ∧ (e.returned ≠ none ∨ e.called ≠ none) := by
      rw [ne_eq, hnone]
      simp only [Classical.not_forall, Classical.not_and_iff_not_or_not, exists_prop]
    rw [← hsome, evaluate_call_of_invoke hinvoke]
    cases result <;> simp

end Calls

/-- `g();`. -/
def forwards : Block := [.call "g" []]

/-- `for return 1; 0; exit do exit; endfor;`. -/
def returnsInHeader : Block := [.forLoop (.return_ (.int 1)) (.int 0) .exit [.exit]]

/-- A function `g` that returns one, a function `f` that calls `g` and does nothing else, and a
    function `h` that returns in the header of a `for`. -/
def sessionWithForwarding : Session where
  functions := (({} : Bindings Function).insert "g" ⟨[], [.return_ (.int 1)]⟩
    |>.insert "f" ⟨[], forwards⟩) |>.insert "h" ⟨[], returnsInHeader⟩

/-- The session in which the body of one of them starts. -/
def sessionInForwarding (name : String) (body : Block) : Session :=
  sessionWithForwarding.entered {} name ⟨[], body⟩ []

theorem enters_forwarding : Enters {} 4 "f" [] sessionWithForwarding ⟨[], forwards⟩
    (sessionInForwarding "f" forwards) :=
  ⟨rfl, rfl, [], sessionWithForwarding, rfl, by decide, rfl⟩

theorem recordBlock_forwarding :
    let inside := sessionInForwarding "f" forwards
    recordBlock {} 4 forwards (.function false) inside =
      some (.ok ((some (.int 1), .function false),
        [⟨[.item 0], inside, .statement (.call "g" []) (some (.int 1))⟩]), inside) :=
  rfl

theorem enters_returnsInHeader : Enters {} 4 "h" [] sessionWithForwarding ⟨[], returnsInHeader⟩
    (sessionInForwarding "h" returnsInHeader) :=
  ⟨rfl, rfl, [], sessionWithForwarding, rfl, by decide, rfl⟩

theorem recordBlock_returnsInHeader :
    let inside := sessionInForwarding "h" returnsInHeader
    recordBlock {} 4 returnsInHeader (.function false) inside =
      some (.ok ((none, .function true),
        [⟨[.item 0, .forInit], inside, .statement (.return_ (.int 1)) (some (.int 1))⟩,
          ⟨[.item 0, .forCondition 0], inside, .test (.int 0) false⟩]), inside) :=
  rfl

/-- The call of `f` has a value, although `f` has no `return`; the call of `h` has none, although its
    `return` completes. -/
theorem call_value_of_trail_forwarding :
    (∃ v t, evaluate {} 5 (.call "f" []) sessionWithForwarding = some (.ok v, t)) ∧
      ∃ t, evaluate {} 5 (.call "h" []) sessionWithForwarding =
        some (.error (.noReturnValue "h"), t) := by
  constructor
  · obtain ⟨es, hrecord, -, hvalue⟩ := call_value_of_trail enters_forwarding rfl
    rw [recordBlock_forwarding] at hrecord
    simp only [Option.some.injEq, Prod.mk.injEq, Except.ok.injEq] at hrecord
    obtain ⟨⟨-, rfl⟩, -⟩ := hrecord
    exact hvalue.2 ⟨_, List.mem_singleton.2 rfl, rfl, .inr (by simp [Event.called])⟩
  · obtain ⟨es, hrecord, hfails, -⟩ := call_value_of_trail enters_returnsInHeader rfl
    rw [recordBlock_returnsInHeader] at hrecord
    simp only [Option.some.injEq, Prod.mk.injEq, Except.ok.injEq] at hrecord
    obtain ⟨⟨-, rfl⟩, -⟩ := hrecord
    refine hfails.2 fun e he => ?_
    simp only [List.mem_cons, List.not_mem_nil, or_false] at he
    rcases he with rfl | rfl <;> simp [Event.inClause, Site.isClause, Event.returned, Event.called]

/-- Completed `return`s alone do not decide whether a call has a value, in neither direction: `f` has
    no `return`, and yet its call does not fail; the `return` of `h` completes, and yet its call
    fails. -/
theorem not_forall_call_fails_iff_no_return :
    (¬ ∀ (settings : Settings) (n : Nat) (name : String) (arguments : List Expr) (s s₁ u : Session)
        (f : Function) (y : Yield) (es : Trail), Enters settings n name arguments s f s₁ →
      recordBlock settings n f.body (.function false) s₁ = some (.ok (y, es), u) →
        (∀ e ∈ es, e.returned = none) → ∃ t, evaluate settings (n + 1) (.call name arguments) s =
          some (.error (.noReturnValue name), t)) ∧
    ¬ ∀ (settings : Settings) (n : Nat) (name : String) (arguments : List Expr) (s s₁ u : Session)
        (f : Function) (y : Yield) (es : Trail), Enters settings n name arguments s f s₁ →
      recordBlock settings n f.body (.function false) s₁ = some (.ok (y, es), u) →
        (∃ t, evaluate settings (n + 1) (.call name arguments) s =
          some (.error (.noReturnValue name), t)) → ∀ e ∈ es, e.returned = none := by
  constructor
  · intro hall
    obtain ⟨t, hfails⟩ := hall _ _ _ _ _ _ _ _ _ _ enters_forwarding recordBlock_forwarding
      (by simp [Event.returned])
    have hvalue : evaluate {} 5 (.call "f" []) sessionWithForwarding =
        some (.ok (.int 1), sessionWithForwarding) := rfl
    exact absurd (hvalue.symm.trans hfails) (by simp)
  · intro hall
    have hfails : evaluate {} 5 (.call "h" []) sessionWithForwarding =
        some (.error (.noReturnValue "h"), sessionWithForwarding) := rfl
    have hreturned := hall _ _ _ _ _ _ _ _ _ _ enters_returnsInHeader recordBlock_returnsInHeader
      ⟨_, hfails⟩ _ List.mem_cons_self
    exact absurd hreturned (by simp [Event.returned])

end Scriptlet
