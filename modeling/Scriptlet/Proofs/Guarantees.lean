import Scriptlet.Proofs.Tasks

set_option autoImplicit false

/-! # Guarantees

A property of evaluations is a `Guarantee` if it goes through sequences and through the actions that
enclose another one, and if it holds of every action that is harmless: one that ends, not with
`exit`, and leaves the globals and the functions alone. Then it holds of a task if it holds of every
task which that starts. `Guarantee.holds_expression` and `Guarantee.holds_statement` say so for
levels that may vary, and `Guarantee.holds_task`, loops included, for a fixed number of levels.

What remains to be shown of a property is its own part: what `exit`, a definition and the binding of
a global name do to it, and what follows from its holding of everything that is started. -/

namespace Scriptlet

open Eval

/-! ## Harmless actions -/

/-! ### Operators -/

section Operators

variable {α β : Type}

theorem map_ne_exit {x : Except RuntimeError α} (h : x ≠ .error .exit) (f : α → β) :
    x.map f ≠ .error .exit := by
  cases x with
  | ok a => simp [Except.map]
  | error e => simpa [Except.map] using h

theorem Number.apply_ne_exit (op : Arithmetic) (a b : Number) :
    Number.apply op a b ≠ .error .exit := by
  unfold Number.apply
  cases op with
  | divide =>
    dsimp only
    split <;> simp
  | _ =>
    dsimp only
    unfold Number.combine
    split
    · split <;> simp
    · simp

theorem Value.arithmetic_ne_exit (op : Arithmetic) (left right : Value) :
    left.arithmetic op right ≠ .error .exit := by
  unfold Value.arithmetic
  split
  · exact map_ne_exit (Number.apply_ne_exit op _ _) _
  · simp

namespace Heap

variable (heap : Heap) (left right : Value)

theorem arithmetic_ne_exit (op : Arithmetic) : heap.arithmetic op left right ≠ .error .exit := by
  have hnumbers (op : Arithmetic) : (left.arithmetic op right).map (·, heap) ≠ .error .exit :=
    map_ne_exit (Value.arithmetic_ne_exit op left right) _
  cases op with
  | add =>
    show heap.add left right ≠ _
    unfold add
    split
    · simp
    · simp
    · exact hnumbers .add
  | multiply =>
    show heap.multiply left right ≠ _
    unfold multiply
    split
    · split <;> simp
    · split <;> simp
    · exact hnumbers .multiply
  | subtract => exact hnumbers .subtract
  | divide => exact hnumbers .divide

theorem apply_ne_exit (op : BinaryOp) : heap.apply op left right ≠ some (.error .exit) := by
  cases op with
  | arithmetic op => simpa [apply] using heap.arithmetic_ne_exit left right op
  | order r =>
    simp only [apply, ne_eq, Option.map_eq_some_iff, not_exists, not_and]
    intro answer _
    cases answer <;> simp
  | _ => simp [apply]

variable {heap left right}

/-- Only comparing may not end. -/
theorem exists_of_apply_eq_none {op : BinaryOp} (h : heap.apply op left right = none) :
    ∃ c, op.comparison? left right = some c ∧ c.isDecided heap = false := by
  cases op with
  | equal | notEqual =>
    exact ⟨.equality left right, rfl, by simpa [apply, Comparison.isDecided] using h⟩
  | order r => exact ⟨.order left right, rfl, by simpa [apply, Comparison.isDecided] using h⟩
  | _ => exact absurd h (by simp [apply])

theorem apply_eq_none {op : BinaryOp} {c : Comparison} (hc : op.comparison? left right = some c)
    (h : c.isDecided heap = false) : heap.apply op left right = none := by
  unfold BinaryOp.comparison? at hc
  split at hc
  · cases hc
    simpa [apply, Comparison.isDecided] using h
  · cases hc
    simpa [apply, Comparison.isDecided] using h
  · cases hc
    simpa [apply, Comparison.isDecided] using h
  · exact absurd hc (by simp)

/-- A search that does not end comes to an element with which comparing does not end. -/
theorem exists_of_position?_eq_none {v : Value} {elements : List Value}
    (h : heap.position? v elements = none) :
    ∃ front a rest, elements = front ++ a :: rest ∧ (∀ b ∈ front, heap.equal? b v = some false) ∧
      heap.equal? a v = none := by
  induction elements with
  | nil => exact absurd h (by simp [position?])
  | cons a as ih =>
    unfold position? at h
    split at h
    · next hnone => exact ⟨[], a, as, rfl, by simp, hnone⟩
    · exact absurd h (by simp)
    · next hfalse =>
      obtain ⟨front, b, rest, rfl, hfront, hnone⟩ := ih (by simpa using h)
      exact ⟨a :: front, b, rest, rfl, by simpa using ⟨hfalse, hfront⟩, hnone⟩

theorem position?_eq_none {v a : Value} {front : List Value} (rest : List Value)
    (hfront : ∀ b ∈ front, heap.equal? b v = some false) (h : heap.equal? a v = none) :
    heap.position? v (front ++ a :: rest) = none := by
  induction front with
  | nil => simp [position?, h]
  | cons b front ih =>
    have hrest := ih fun b' hb' => hfront b' (List.mem_cons_of_mem _ hb')
    simp [position?, hfront b (List.mem_cons_self ..), hrest]

end Heap

end Operators

namespace Eval

variable {α β : Type}

/-- From `s` on, the action ends, and not with `exit`; it leaves the globals and the functions as
    they are. -/
def Harmless (x : Eval α) (s : Session) : Prop :=
  ∃ r t, x s = some (r, t) ∧ r ≠ .error .exit ∧ t.globals = s.globals ∧ t.functions = s.functions

namespace Harmless

variable {s : Session}

theorem of_ok {x : Eval α} {a : α} {t : Session} (h : x s = some (.ok a, t))
    (hglobals : t.globals = s.globals) (hfunctions : t.functions = s.functions) : Harmless x s :=
  ⟨.ok a, t, h, by simp, hglobals, hfunctions⟩

theorem of_error {x : Eval α} {e : RuntimeError} (h : x s = some (.error e, s)) (he : e ≠ .exit) :
    Harmless x s :=
  ⟨.error e, s, h, by simpa using he, rfl, rfl⟩

theorem pure (a : α) : Harmless (Pure.pure a : Eval α) s :=
  of_ok rfl rfl rfl

theorem fail {e : RuntimeError} (he : e ≠ .exit) : Harmless (Eval.fail e : Eval α) s :=
  of_error rfl he

theorem reply (answer : Except Refusal α) : Harmless (Eval.reply answer) s := by
  cases answer with
  | ok a => exact pure a
  | error refusal => exact fail refusal.2

theorem bind {x : Eval α} {f : α → Eval β} (hx : Harmless x s) (hf : ∀ a t, Harmless (f a) t) :
    Harmless (x >>= f) s := by
  obtain ⟨r, t, ht, hr, hglobals, hfunctions⟩ := hx
  cases r with
  | error e =>
    have hbind : (x >>= f) s = some (.error e, t) := bind_eq_some_iff.2 (.inl ⟨e, ht, rfl⟩)
    exact ⟨.error e, t, hbind, by simpa using hr, hglobals, hfunctions⟩
  | ok a =>
    obtain ⟨q, u, hu, hq, hglobals', hfunctions'⟩ := hf a t
    have hbind : (x >>= f) s = some (q, u) := bind_eq_some_iff.2 (.inr ⟨a, t, ht, hu⟩)
    exact ⟨q, u, hbind, hq, hglobals'.trans hglobals, hfunctions'.trans hfunctions⟩

theorem read (f : Session → α) : Harmless (Eval.read f) s :=
  of_ok rfl rfl rfl

theorem find (f : Session → Option α) {missing : Session → RuntimeError}
    (hmissing : missing s ≠ .exit) : Harmless (Eval.find f missing) s := by
  unfold Harmless Eval.find
  cases f s with
  | none => exact of_error (x := Eval.fail (missing s)) rfl hmissing
  | some a => exact pure a

theorem update {f : Session → Session} (hglobals : (f s).globals = s.globals)
    (hfunctions : (f s).functions = s.functions) : Harmless (Eval.update f) s :=
  of_ok rfl hglobals hfunctions

theorem trace (settings : Settings) (t : Session → Trace) : Harmless (Eval.trace settings t) s := by
  obtain ⟨notices, h⟩ := trace_eq_some settings t s
  exact of_ok h rfl rfl

theorem writeLine (line : String) : Harmless (Eval.writeLine line) s := by
  obtain ⟨r, written, hwrite, hr⟩ := writeLine_eq_some line s
  exact ⟨r, _, hwrite, hr, rfl, rfl⟩

theorem writeValues (values : List Value) : Harmless (Eval.writeValues values) s :=
  bind (read _) fun line _ => writeLine line

theorem truthy (v : Value) : Harmless (Eval.truthy v) s :=
  read _

theorem setLocal (name : String) (v : Value) : Harmless (Eval.setLocal name v) s :=
  update rfl rfl

theorem getLocal (name : String) : Harmless (Eval.getLocal name) s :=
  find _ (by simp)

theorem resolve (name : String) : Harmless (Eval.resolve name) s :=
  find _ (by simp)

theorem arrayNamed (name : String) : Harmless (Eval.arrayNamed name) s := by
  refine bind (find _ (by simp)) fun v t => ?_
  cases v with
  | array h => exact pure h
  | _ => exact fail (by simp)

theorem target (e : Expr) (v : Value) : Harmless (Eval.target e v) s := by
  cases v with
  | array h => exact pure _
  | text name => exact bind (arrayNamed name) fun _ _ => pure _
  | _ => exact fail (by simp)

theorem readPath (name : String) (path : List Value) : Harmless (Eval.readPath name path) s :=
  bind (find _ (by simp)) fun _ _ => find _ (by simp)

theorem writePath (name : String) (path : List Value) (v : Value) :
    Harmless (Eval.writePath name path v) s := by
  refine bind (arrayNamed name) fun h t => bind (find _ ?_) fun _ _ => update rfl rfl
  rcases pathFailure_eq name h path t with heq | heq <;> simp [heq]

theorem allocate (elements : List Value) : Harmless (Eval.allocate elements) s :=
  of_ok rfl rfl rfl

theorem appendTo (h : Handle) (v : Value) : Harmless (Eval.appendTo h v) s :=
  update rfl rfl

/-! ### Actions that may compare -/

theorem applyBinary_of_ne_none {op : BinaryOp} {left right : Value}
    (h : s.heap.apply op left right ≠ none) : Harmless (Eval.applyBinary op left right) s := by
  have hexit := s.heap.apply_ne_exit left right op
  unfold Harmless Eval.applyBinary
  match s.heap.apply op left right, h, hexit with
  | some (.error e), _, hexit =>
    exact of_error (x := Eval.fail e) rfl fun he => hexit (by rw [he])
  | some (.ok (v, heap)), _, _ =>
    exact of_ok (x := fun s => some (.ok v, { s with heap })) rfl rfl rfl

theorem arithmetic (op : Arithmetic) (left right : Value) :
    Harmless (Eval.applyBinary (.arithmetic op) left right) s :=
  applyBinary_of_ne_none (by simp [Heap.apply])

theorem stepLocal (name : String) (direction : Direction) :
    Harmless (Eval.stepLocal name direction) s := by
  refine bind (getLocal name) fun current t => ?_
  split
  · exact fail (by simp)
  · exact bind (arithmetic _ _ _) fun v _ => setLocal name v

theorem compoundValue (op : Arithmetic) (current v : Value) :
    Harmless (Eval.compoundValue op current v) s := by
  unfold Eval.compoundValue
  split
  · exact bind (update rfl rfl) fun _ _ => pure _
  · exact arithmetic _ _ _

theorem removeFrom_of_ne_none {h : Handle} {label : String} {v : Value}
    (hfound : s.heap.position? v (s.heap.elements h).toList ≠ none) :
    Harmless (Eval.removeFrom h label v) s := by
  unfold Harmless Eval.removeFrom
  match s.heap.position? v (s.heap.elements h).toList, hfound with
  | some none, _ =>
    exact of_error (x := Eval.fail (.valueNotFound (s.heap.display v) label)) rfl (by simp)
  | some (some place), _ =>
    exact of_ok (x := Eval.update fun s =>
      { s with heap := s.heap.modify h (·.eraseIdxIfInBounds place) }) rfl rfl rfl

end Harmless

end Eval

/-! ## Guarantees -/

/-- A property of an action that is started in some session, for actions that depend on a number.
    The number stands for levels: a property may be about each number of levels, or about all that
    are large enough. -/
structure Guarantee where
  /-- The property. -/
  Holds {α : Type} : (Nat → Eval α) → Session → Prop
  harmless {α : Type} {x : Eval α} {s : Session} : Harmless x s → Holds (fun _ => x) s
  /-- All actions that do not end are alike. -/
  endless {α β : Type} {x : Eval α} {y : Eval β} {s : Session} :
    x s = none → y s = none → Holds (fun _ => y) s → Holds (fun _ => x) s
  bind {α β : Type} {x : Nat → Eval α} {f : Nat → α → Eval β} {s : Session} :
    Holds x s → (∀ k a u, x k s = some (.ok a, u) → Holds (fun k => f k a) u) →
      Holds (fun k => x k >>= f k) s
  rollback {α : Type} {x : Nat → Eval α} {s : Session} :
    Holds x s → Holds (fun k => rollback (x k)) s
  deeper {α : Type} {x : Nat → Eval α} {s : Session} (limit : Nat) :
    (s.depth < limit → Holds x { s with depth := s.depth + 1 }) →
      Holds (fun k => deeper limit (x k)) s

namespace Guarantee

variable (G : Guarantee) {settings : Settings} {level : Nat → Nat} {α β : Type}

/-- The property holds of every task that the one of `p` starts. -/
def Below (settings : Settings) (level : Nat → Nat) (p : Point) : Prop :=
  ∀ q, Starts settings p q → G.Holds (fun k => q.task.run settings (level k)) q.session

theorem pure (a : α) (s : Session) : G.Holds (fun _ => (Pure.pure a : Eval α)) s :=
  G.harmless (.pure a)

/-- Harmless actions behind an action. -/
theorem followed {x : Nat → Eval α} {f : α → Eval β} {s : Session} (hx : G.Holds x s)
    (hf : ∀ a u, Harmless (f a) u) : G.Holds (fun k => x k >>= f) s :=
  G.bind (f := fun _ => f) hx fun _ a u _ => G.harmless (hf a u)

/-- An action in front whose end is known. -/
theorem after {x : Eval α} {f : Nat → α → Eval β} {s t : Session} {a : α} (hx : Harmless x s)
    (h : x s = some (.ok a, t)) (hf : G.Holds (fun k => f k a) t) :
    G.Holds (fun k => x >>= f k) s := by
  refine G.bind (x := fun _ => x) (G.harmless hx) fun _ b u hb => ?_
  rw [h] at hb
  simp only [Option.some.injEq, Prod.mk.injEq, Except.ok.injEq] at hb
  obtain ⟨rfl, rfl⟩ := hb
  exact hf

/-! ### Lists and blocks -/

theorem holds_evaluateAll {es : List Expr} {s : Session}
    (h : ∀ n e u, ListReaches (evaluate settings n) es s e u →
      G.Holds (fun k => evaluate settings (level k) e) u) :
    G.Holds (fun k => evaluateAll (evaluate settings (level k)) es) s := by
  induction es generalizing s with
  | nil => exact G.pure _ _
  | cons e es ih =>
    refine G.bind (h 0 e s (.head _ _ _)) fun k v u hv => G.followed (ih ?_) fun vs _ => .pure _
    intro n e' u' hreach
    -- what is in front and what is behind are reached with a common number of levels
    have hfirst := ascending_evaluate settings e (Nat.le_max_right n (level k)) hv
    have hrest := hreach.mono fun e => ascending_evaluate settings e (Nat.le_max_left n (level k))
    exact h (max n (level k)) e' u' (.tail hfirst hrest)

theorem holds_executeAll {block : Block} {frame : Frame} {s : Session}
    (h : ∀ n stmt frame' u, BlockReaches (execute settings n) block frame s stmt frame' u →
      G.Holds (fun k => execute settings (level k) stmt frame') u) (last : Option Value) :
    G.Holds (fun k => executeAll (execute settings (level k)) block frame last) s := by
  induction block generalizing frame s last with
  | nil => exact G.pure _ _
  | cons stmt rest ih =>
    refine G.bind (h 0 stmt frame s (.head _ _ _ _)) fun k y u hy => ih ?_ _
    intro n stmt' frame' u' hreach
    have hfirst := extends_execute settings (Nat.le_max_right n (level k)) stmt frame hy
    have hrest := hreach.mono (extends_execute settings (Nat.le_max_left n (level k)))
    exact h (max n (level k)) stmt' frame' u' (.tail hfirst hrest)

/-! ### Calls and texts -/

theorem holds_invoke (task : Task) {name : String} {arguments : List Expr} {s : Session}
    (hcall : task.call? = some (name, arguments)) (hoperands : task.operands = arguments)
    (hready : task.CallFits s → task.Ready s) (h : G.Below settings level ⟨task, s⟩) :
    G.Holds (fun k => invoke settings (evaluate settings (level k)) (execute settings (level k))
      name arguments) s := by
  refine G.bind (G.harmless (.find _ (by simp))) fun _ f s' hfind => ?_
  obtain ⟨hdefined, rfl⟩ := find_eq_ok_iff.1 hfind
  by_cases harity : f.parameters.length = arguments.length
  · have hfits : task.CallFits s' := by
      intro name' arguments' hcall'
      rw [hcall] at hcall'
      simp only [Option.some.injEq, Prod.mk.injEq] at hcall'
      obtain ⟨rfl, rfl⟩ := hcall'
      exact ⟨f, hdefined, harity⟩
    simp only [harity, ne_eq, not_true, if_false]
    refine G.bind (G.holds_evaluateAll ?_) fun k values s₀ hvalues => ?_
    · intro n e u hreach
      exact h ⟨.expression e, u⟩ (.operand (hready hfits) (hoperands ▸ hreach))
    refine G.bind (G.deeper settings.maxDepth fun hdepth => G.rollback ?_) fun k result u _ => ?_
    · have htrace : trace settings (fun s => .calling name arguments.length s.depth)
          { s₀ with depth := s₀.depth + 1 } = some (.ok (), { s₀ with
            depth := s₀.depth + 1
            notices := (s₀.entered settings name f values).notices }) := by
        unfold trace Session.entered
        rw [harity]
        cases settings.verbose <;> rfl
      refine G.after (.trace _ _) htrace (G.after (.update rfl rfl) rfl ?_)
      refine G.followed (G.holds_executeAll ?_ none) fun y _ => .pure _
      intro n stmt frame u hreach
      have henters : Enters settings (level k) name arguments s' f
          (s₀.entered settings name f values) :=
        ⟨hdefined, harity, values, s₀, hvalues, hdepth, rfl⟩
      exact h ⟨.statement stmt frame, u⟩ (.body (hready hfits) hcall henters hreach)
    · exact G.harmless (.bind (.trace _ _) fun _ _ => .pure _)
  · simp only [ne_eq, harity, not_false_iff, if_true]
    exact G.harmless (.fail (by simp))

theorem holds_evaluateText {operand : Expr} {code : String} {s s₁ : Session} {n : Nat}
    (hoperand : evaluate settings n operand s = some (.ok (.text code), s₁))
    (h : G.Below settings level ⟨.expression (.eval operand), s⟩) :
    G.Holds (fun k => evaluateText settings (evaluate settings (level k)) code) s₁ := by
  have hnotices : ∃ notices, trace settings (fun _ => .evaluating code) s₁ =
      some (.ok (), { s₁ with notices }) ∧
        notices ++ ((Expr.ofSource code).faults.map Notice.fault).toArray =
          (s₁.reading settings code).notices := by
    unfold trace Session.reading
    cases settings.verbose
    · exact ⟨_, rfl, rfl⟩
    · exact ⟨_, rfl, rfl⟩
  obtain ⟨notices, htrace, hnotices⟩ := hnotices
  refine G.after (.trace _ _) htrace ?_
  cases hdynamic : settings.dynamic with
  | disabled => exact G.harmless (.fail (by simp))
  | stub answer => exact G.harmless (.reply _)
  | expression =>
    refine G.after (.update rfl rfl) rfl ?_
    cases hread : (Expr.ofSource code).result with
    | error e => exact G.harmless (.fail (by simp))
    | ok e =>
      refine G.deeper settings.maxDepth fun hdepth => ?_
      have hstarts := Starts.text hoperand hdynamic hread hdepth
      have hholds := h _ hstarts
      unfold Session.reading at hholds hnotices
      dsimp only at hnotices ⊢
      rw [hnotices]
      exact hholds

/-! ### Expressions -/

theorem holds_expression {e : Expr} {s : Session}
    (h : G.Below settings level ⟨.expression e, s⟩) :
    G.Holds (fun k => evaluate settings (level k + 1) e) s := by
  -- an expression that is no call comes to its operands at once
  have hoperand (hcall : (Task.expression e).call? = none) (n : Nat) (e' : Expr) (u : Session)
      (hreach : ListReaches (evaluate settings n) e.operands s e' u) :
      G.Holds (fun k => evaluate settings (level k) e') u := by
    refine h ⟨.expression e', u⟩ (.operand ?_ hreach)
    intro f arguments hcall'
    rw [hcall] at hcall'
    exact absurd hcall' (by simp)
  unfold evaluate
  cases e with
  | int n => exact G.pure _ _
  | text s => exact G.pure _ _
  | name x => exact G.harmless (.resolve x)
  | binary op left right =>
    refine G.bind (hoperand rfl 0 left s (.head _ _ _)) fun k l s₁ hl => ?_
    refine G.bind (hoperand rfl (level k) right s₁ (.tail hl (.head _ _ _))) fun m r u hr => ?_
    by_cases hnone : u.heap.apply op l r = none
    · obtain ⟨c, hc, hundecided⟩ := Heap.exists_of_apply_eq_none hnone
      have hstarts : Starts settings ⟨.expression (.binary op left right), s⟩ ⟨.comparison c, u⟩ :=
        .comparison (ascending_evaluate settings left (Nat.le_max_left (level k) (level m)) hl)
          (ascending_evaluate settings right (Nat.le_max_right (level k) (level m)) hr) hc
      have happly : applyBinary op l r u = none := by
        simp [applyBinary, hnone]
      exact G.endless happly (Comparison.perform_eq_none_iff.2 hundecided) (h _ hstarts)
    · exact G.harmless (.applyBinary_of_ne_none hnone)
  | call f arguments =>
    refine G.followed (G.holds_invoke (.expression (.call f arguments)) rfl rfl
      (fun hfits => hfits) h) fun yielded u => ?_
    cases yielded with
    | none => exact .fail (by simp)
    | some v => exact .pure v
  | index x indices =>
    exact G.followed (G.holds_evaluateAll (hoperand rfl)) fun path _ => .readPath x path
  | array elements =>
    exact G.followed (G.holds_evaluateAll (hoperand rfl)) fun values _ => .allocate values
  | eval operand =>
    refine G.bind (hoperand rfl 0 operand s (.head _ _ _)) fun k v s₁ hv => ?_
    cases v with
    | text code => exact G.holds_evaluateText hv h
    | _ => exact G.harmless (.fail (by simp))
  | id operand => exact G.followed (hoperand rfl 0 operand s (.head _ _ _)) fun v _ => .pure _

/-! ### Statements -/

/-- What the property needs of a statement that is not harmless itself. -/
def Own : Stmt → Session → Prop
  | .exit, s => G.Holds (fun _ => (do writeLine "Bye"; fail .exit : Eval Yield)) s
  | .define name parameters body, _ => ∀ u, G.Holds
    (fun _ => update fun s => { s with functions := s.functions.insert name ⟨parameters, body⟩ }) u
  | .declareGlobal name _, _ | .promote name, _ => ∀ v u, G.Holds (fun _ => setGlobal name v) u
  | _, _ => True

/-- A block whose statements are parts of a statement. -/
theorem holds_parts {stmt : Stmt} {frame frame₁ : Frame} {s s₁ : Session} {block : Block} {m : Nat}
    (h : G.Below settings level ⟨.statement stmt frame, s⟩)
    (hpart : ∀ n inner frame' u, m ≤ n →
      BlockReaches (execute settings n) block frame₁ s₁ inner frame' u →
      Execution.PartOf settings ⟨n, inner, frame', u⟩ ⟨n + 1, stmt, frame, s⟩) :
    G.Holds (fun k => runBlock settings (level k) block frame₁) s₁ := by
  refine G.holds_executeAll (fun n inner frame' u hreach => ?_) none
  have hmore := hreach.mono (extends_execute settings (Nat.le_max_left n m))
  exact h ⟨.statement inner frame', u⟩ (.part (hpart _ _ _ _ (Nat.le_max_right n m) hmore))

theorem holds_test (level : Nat → Nat) {condition : Expr} {s : Session}
    (h : G.Holds (fun k => evaluate settings (level k) condition) s) :
    G.Holds (fun k => test settings (level k) condition) s :=
  G.followed h fun v _ => .truthy v

section Statement

variable {stmt : Stmt} {frame : Frame} {s : Session} (hframe : frame ≠ .function true)
  (h : G.Below settings level ⟨.statement stmt frame, s⟩)

include hframe h

/-- A statement that is no call comes to its operands if its own check succeeds. -/
theorem holds_operand (hcall : (Task.statement stmt frame).call? = none)
    (hpermitted : stmt.Permitted frame s) (n : Nat) (e : Expr) (u : Session)
    (hreach : ListReaches (evaluate settings n) stmt.operands s e u) :
    G.Holds (fun k => evaluate settings (level k) e) u := by
  refine h ⟨.expression e, u⟩ (.operand ⟨hframe, ?_, hpermitted⟩ hreach)
  intro f arguments hcall'
  rw [hcall] at hcall'
  exact absurd hcall' (by simp)

theorem holds_first {e : Expr} {es : List Expr} (hoperands : stmt.operands = e :: es)
    (hcall : (Task.statement stmt frame).call? = none) (hpermitted : stmt.Permitted frame s) :
    G.Holds (fun k => evaluate settings (level k) e) s := by
  refine G.holds_operand hframe h hcall hpermitted 0 e s ?_
  rw [hoperands]
  exact .head _ _ _

theorem holds_plain (hplain : stmt.isPlain = true) (hown : G.Own stmt s) :
    G.Holds (fun k => execute settings (level k + 1) stmt frame) s := by
  unfold execute
  simp only [hframe, if_false]
  cases stmt with
  | branch | whileLoop | forLoop | return_ | call => exact absurd hplain (by simp [Stmt.isPlain])
  | exit => exact hown
  | print arguments =>
    have hoperand := G.holds_operand hframe h rfl trivial
    refine G.followed (G.holds_evaluateAll hoperand) fun values _ => ?_
    exact .bind (.writeValues values) fun _ _ => .pure _
  | define name parameters body =>
    refine G.bind (G.harmless (.trace _ _)) fun _ _ u _ => ?_
    exact G.followed (hown u) fun _ _ => .pure _
  | assign name value =>
    refine G.followed (G.holds_first hframe h rfl rfl trivial) fun v _ => ?_
    exact .bind (.setLocal name v) fun _ _ => .pure _
  | assignAll names values =>
    have hoperand := G.holds_operand hframe h rfl trivial
    refine G.followed (G.holds_evaluateAll hoperand) fun values _ => ?_
    exact .bind (.update rfl rfl) fun _ _ => .pure _
  | declareGlobal name value =>
    refine G.bind (G.holds_first hframe h rfl rfl trivial) fun _ v u _ => ?_
    refine G.bind (G.harmless (.trace _ _)) fun _ _ u _ => ?_
    exact G.followed (hown v u) fun _ _ => .pure _
  | promote name =>
    refine G.bind (G.harmless (.getLocal name)) fun _ v u _ => ?_
    refine G.bind (G.harmless (.trace _ _)) fun _ _ u _ => ?_
    exact G.followed (hown v u) fun _ _ => .pure _
  | assignIndex name indices value =>
    have hreaches := G.holds_operand hframe h rfl trivial
    refine G.bind (G.holds_evaluateAll fun n e u hreach => ?_) fun k path u hpath => ?_
    · exact hreaches n e u (hreach.append_left [value])
    · have hvalue := hreaches (level k) value u (.append_right hpath (.head _ _ _))
      refine G.followed hvalue fun v _ => ?_
      exact .bind (.writePath name path v) fun _ _ => .pure _
  | append container value =>
    refine G.bind (G.holds_first hframe h rfl rfl trivial) fun k c s₁ hc => ?_
    refine G.bind (G.harmless (.target container c)) fun _ found s₂ hfound => ?_
    refine G.followed (h ⟨.expression value, s₂⟩ (.element hframe rfl hc hfound)) fun v _ => ?_
    exact .bind (.appendTo _ v) fun _ _ => .pure _
  | remove container value =>
    refine G.bind (G.holds_first hframe h rfl rfl trivial) fun k c s₁ hc => ?_
    refine G.bind (G.harmless (.target container c)) fun _ found s₂ hfound => ?_
    refine G.bind (h ⟨.expression value, s₂⟩ (.element hframe rfl hc hfound)) fun m v u hv => ?_
    refine G.followed ?_ fun _ _ => .pure _
    by_cases hnone : u.heap.position? v (u.heap.elements found.1).toList = none
    · obtain ⟨front, a, rest, hsplit, hfront, hundecided⟩ :=
        Heap.exists_of_position?_eq_none hnone
      have hc' := ascending_evaluate settings container (Nat.le_max_left (level k) (level m)) hc
      have hv' := ascending_evaluate settings value (Nat.le_max_right (level k) (level m)) hv
      have hstarts := Starts.search hframe hc' hfound hv' hsplit hfront
      have hremove : removeFrom found.1 found.2 v u = none := by
        simp [removeFrom, hnone]
      have hperform : (Comparison.equality a v).perform u = none :=
        Comparison.perform_eq_none_iff.2 (by simp [Comparison.isDecided, hundecided])
      exact G.endless hremove hperform (h _ hstarts)
    · exact G.harmless (.removeFrom_of_ne_none hnone)
  | increment name direction =>
    exact G.harmless (.bind (.stepLocal name direction) fun _ _ => .pure _)
  | compound name op value =>
    refine G.bind (G.harmless (.getLocal name)) fun _ current u hcurrent => ?_
    obtain ⟨hbound, rfl⟩ := find_eq_ok_iff.1 hcurrent
    have hpermitted : (Stmt.compound name op value).Permitted frame u := by
      simp [Stmt.Permitted, hbound]
    refine G.followed (G.holds_first hframe h rfl rfl hpermitted) fun v _ => ?_
    exact .bind (.compoundValue op current v) fun w _ => .bind (.setLocal name w) fun _ _ => .pure _
  | expression e => exact G.followed (G.holds_first hframe h rfl rfl trivial) fun _ _ => .pure _

end Statement

theorem holds_branch {condition : Expr} {thenBlock elseBlock : Block} {frame : Frame} {s : Session}
    (hframe : frame ≠ .function true)
    (h : G.Below settings level ⟨.statement (.branch condition thenBlock elseBlock) frame, s⟩) :
    G.Holds (fun k => execute settings (level k + 1) (.branch condition thenBlock elseBlock) frame)
      s := by
  simp only [execute_branch hframe]
  refine G.rollback (G.bind (G.holds_test level (G.holds_first hframe h rfl rfl trivial)) ?_)
  intro k holds s₁ htest
  refine G.holds_parts (m := level k) h fun n inner frame' u hle hreach => ?_
  exact .branch hframe (extends_test settings hle condition htest) hreach

/-- The walk through the statements that are no loops. -/
theorem holds_statement {stmt : Stmt} {frame : Frame} {s : Session} (hown : G.Own stmt s)
    (hloop : stmt.isLoop = false) (h : G.Below settings level ⟨.statement stmt frame, s⟩) :
    G.Holds (fun k => execute settings (level k + 1) stmt frame) s := by
  by_cases hframe : frame = .function true
  · subst hframe
    simp only [execute_returned]
    exact G.pure _ _
  · cases stmt with
    | whileLoop | forLoop => exact absurd hloop (by simp [Stmt.isLoop])
    | branch condition thenBlock elseBlock => exact G.holds_branch hframe h
    | return_ value =>
      cases frame with
      | program => exact G.harmless (x := fail .returnOutsideFunction) (.fail (by simp))
      | function returned =>
        obtain rfl : returned = false := by simpa using hframe
        exact G.followed (G.holds_first hframe h rfl rfl (by simp [Stmt.Permitted])) fun v _ =>
          .pure _
    | call f arguments =>
      simp only [execute_call hframe]
      refine G.followed (G.holds_invoke (.statement (.call f arguments) frame) rfl rfl ?_ h)
        fun y _ => .pure _
      intro hfits
      exact ⟨hframe, hfits, trivial⟩
    | _ => exact G.holds_plain hframe h rfl hown

/-! ### Loops

What does not end within its rounds must have the property. -/

section Loops

variable (hnever : ∀ u, G.Holds (fun _ => (never : Eval Yield)) u)

include hnever

theorem holds_whileRounds {condition : Eval Bool} {body : Frame → Eval Yield} {frame : Frame}
    {s : Session}
    (hcondition : ∀ frame' u, WhileReaches condition body frame s frame' u →
      G.Holds (fun _ => condition) u)
    (hbody : ∀ frame' u v, WhileReaches condition body frame s frame' u →
      condition u = some (.ok true, v) → G.Holds (fun _ => body frame') v) (rounds : Nat) :
    G.Holds (fun _ => whileRounds condition body rounds frame) s := by
  induction rounds generalizing frame s with
  | zero => exact hnever s
  | succ rounds ih =>
    refine G.bind (hcondition frame s (.start _ _)) fun _ holds s₁ hholds => ?_
    cases holds with
    | false => exact G.pure _ _
    | true =>
      refine G.bind (hbody frame s s₁ (.start _ _) hholds) fun _ y s₂ hy => ?_
      obtain ⟨_ | v, frame₁⟩ := y
      · refine ih (fun frame' u hreach => ?_) fun frame' u v hreach htrue => ?_
        · exact hcondition frame' u (.round hholds hy hreach)
        · exact hbody frame' u v (.round hholds hy hreach) htrue
      · exact G.pure _ _

theorem holds_forRounds {condition : Eval Bool} {body step : Frame → Eval Yield} {frame : Frame}
    {s : Session}
    (hcondition : ∀ frame' u, ForReaches condition body step frame s frame' u →
      G.Holds (fun _ => condition) u)
    (hbody : ∀ frame' u v, ForReaches condition body step frame s frame' u →
      condition u = some (.ok true, v) → G.Holds (fun _ => body frame') v)
    (hstep : ∀ frame' u v y w, ForReaches condition body step frame s frame' u →
      condition u = some (.ok true, v) → body frame' v = some (.ok y, w) →
      G.Holds (fun _ => step y.2.resumed) w) (rounds : Nat) (last : Option Value) :
    G.Holds (fun _ => forRounds condition body step rounds frame last) s := by
  induction rounds generalizing frame s last with
  | zero => exact hnever s
  | succ rounds ih =>
    refine G.bind (hcondition frame s (.start _ _)) fun _ holds s₁ hholds => ?_
    cases holds with
    | false => exact G.pure _ _
    | true =>
      refine G.bind (hbody frame s s₁ (.start _ _) hholds) fun _ y s₂ hy => ?_
      refine G.bind (hstep frame s s₁ y s₂ (.start _ _) hholds hy) fun _ z s₃ hz => ?_
      refine ih (fun frame' u hreach => ?_) (fun frame' u v hreach htrue => ?_)
        (fun frame' u v y' w hreach htrue hy' => ?_) _
      · exact hcondition frame' u (.round hholds hy hz hreach)
      · exact hbody frame' u v (.round hholds hy hz hreach) htrue
      · exact hstep frame' u v y' w (.round hholds hy hz hreach) htrue hy'

theorem holds_whileLoop {n : Nat} {condition : Expr} {body : Block} {frame : Frame} {s : Session}
    (hframe : frame ≠ .function true)
    (h : G.Below settings (fun _ => n) ⟨.statement (.whileLoop condition body) frame, s⟩) :
    G.Holds (fun _ => execute settings (n + 1) (.whileLoop condition body) frame) s := by
  rw [execute_whileLoop hframe]
  refine G.rollback (G.holds_whileRounds hnever (fun frame' u hreach => ?_)
    (fun frame' u v hreach htrue => ?_) n)
  · exact G.holds_test (fun _ => n) (h ⟨.expression condition, u⟩
      (.whileCondition hframe hreach))
  · refine G.holds_parts (m := n) h fun m inner frame₂ w hle hinner => ?_
    have hreach' := hreach.mono (extends_test settings hle condition)
      (extends_runBlock settings hle body)
    exact .whileBody hframe hreach' (extends_test settings hle condition htrue) hinner

theorem holds_forLoop {n : Nat} {init step : Stmt} {condition : Expr} {body : Block} {frame : Frame}
    {s : Session} (hframe : frame ≠ .function true)
    (h : G.Below settings (fun _ => n)
      ⟨.statement (.forLoop init condition step body) frame, s⟩) :
    G.Holds (fun _ => execute settings (n + 1) (.forLoop init condition step body) frame) s := by
  rw [execute_forLoop hframe]
  refine G.rollback (G.bind (h ⟨.statement init frame, s⟩ (.part (n := n) (.forInit hframe)))
    fun _ started s₁ hinit => ?_)
  refine G.holds_forRounds hnever (fun frame' u hreach => ?_) (fun frame' u v hreach htrue => ?_)
    (fun frame' u v y w hreach htrue hy => ?_) n none
  · exact G.holds_test (fun _ => n) (h ⟨.expression condition, u⟩
      (.forCondition hframe hinit hreach))
  · refine G.holds_parts (m := n) h fun m inner frame₂ w hle hinner => ?_
    have hreach' := hreach.mono (extends_test settings hle condition)
      (extends_runBlock settings hle body) (extends_execute settings hle step)
    exact .forBody hframe (extends_execute settings hle init frame hinit) hreach'
      (extends_test settings hle condition htrue) hinner
  · exact h ⟨.statement step y.2.resumed, w⟩ (.part (.forStep hframe hinit hreach htrue hy))

theorem holds_comparison (c : Comparison) (s : Session) : G.Holds (fun _ => c.perform) s := by
  by_cases hdecided : c.isDecided s.heap = true
  · exact G.harmless (.of_ok (a := ()) (by simp [Comparison.perform, hdecided]) rfl rfl)
  · have hnone : c.perform s = none := Comparison.perform_eq_none_iff.2 (by simpa using hdecided)
    exact G.endless hnone rfl (hnever s)

/-- Without levels, nothing but a comparison is done. -/
theorem holds_zero (a : Point) : G.Holds (fun _ => a.task.run settings 0) a.session := by
  obtain ⟨task, s⟩ := a
  cases task with
  | expression e => exact G.endless rfl rfl (hnever s)
  | statement stmt frame => exact hnever s
  | comparison c => exact G.holds_comparison hnever c s

/-- The walk with a fixed number of levels: the property holds of a task if it holds of those that
    this starts. -/
theorem holds_task {n : Nat} {a : Point}
    (hown : ∀ stmt frame, a.task = .statement stmt frame → frame ≠ .function true →
      G.Own stmt a.session)
    (h : G.Below settings (fun _ => n) a) :
    G.Holds (fun _ => a.task.run settings (n + 1)) a.session := by
  obtain ⟨task, s⟩ := a
  cases task with
  | expression e => exact G.holds_expression h
  | comparison c => exact G.holds_comparison hnever c s
  | statement stmt frame =>
    by_cases hframe : frame = .function true
    · subst hframe
      exact G.pure _ _
    · have hown := hown stmt frame rfl hframe
      cases stmt with
      | whileLoop condition body => exact G.holds_whileLoop hnever hframe h
      | forLoop init condition step body => exact G.holds_forLoop hnever hframe h
      | _ => exact G.holds_statement hown rfl h

end Loops

end Guarantee

end Scriptlet
