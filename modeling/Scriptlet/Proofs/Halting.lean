import Scriptlet.Proofs.Comparison
import Scriptlet.Proofs.Continuation
import Scriptlet.Proofs.ScopeRestoration

set_option autoImplicit false

/-! # Programs without loops

Without loops, what is started is either a proper part of what starts it, or the body of a function
or the expression of a text. The latter may be anything at all, but it is evaluated one level
deeper, and the depth is limited. So the depth that is left and then the size get smaller from task
to task (`Starts.descends`), and a task ends if every comparison does that it comes to
(`halts_task`).

Comparisons are the only exception, and a real one: where one that the run comes to does not end,
the run does not end either (`loopFree_run_ends`). -/

namespace Scriptlet

open Eval

/-! ## Ending -/

namespace Eval

variable {α β : Type}

/-- From some number of levels on, the action ends, and always the same way. -/
def Halts (x : Nat → Eval α) (s : Session) : Prop :=
  ∃ r t N, ∀ n, N ≤ n → x n s = some (r, t)

namespace Halts

variable {x : Nat → Eval α} {s : Session}

theorem of_eq {x : Eval α} {r : Except RuntimeError α} {t : Session} (h : x s = some (r, t)) :
    Halts (fun _ => x) s :=
  ⟨r, t, 0, fun _ _ => h⟩

theorem ends (h : Halts x s) : ∃ r t, Ends x s r t := by
  obtain ⟨r, t, N, h⟩ := h
  exact ⟨r, t, N, h N (Nat.le_refl N)⟩

/-- One level more makes no difference. -/
theorem of_succ (h : Halts (fun n => x (n + 1)) s) : Halts x s := by
  obtain ⟨r, t, N, h⟩ := h
  refine ⟨r, t, N + 1, fun n hn => ?_⟩
  obtain ⟨m, rfl⟩ := Nat.exists_eq_add_of_le hn
  rw [Nat.add_right_comm]
  exact h (N + m) (Nat.le_add_right N m)

theorem bind {f : Nat → α → Eval β} (hx : Halts x s)
    (hf : ∀ n a u, x n s = some (.ok a, u) → Halts (fun n => f n a) u) :
    Halts (fun n => x n >>= f n) s := by
  obtain ⟨r, u, N, hx⟩ := hx
  cases r with
  | error e =>
    exact ⟨.error e, u, N, fun n hn => bind_eq_some_iff.2 (.inl ⟨e, hx n hn, rfl⟩)⟩
  | ok a =>
    obtain ⟨r, t, M, hf⟩ := hf N a u (hx N (Nat.le_refl N))
    refine ⟨r, t, max N M, fun n hn => bind_eq_some_iff.2 (.inr ⟨a, u, hx n ?_, hf n ?_⟩)⟩
    · exact Nat.le_trans (Nat.le_max_left N M) hn
    · exact Nat.le_trans (Nat.le_max_right N M) hn

theorem rollback (hx : Halts x s) : Halts (fun n => Eval.rollback (x n)) s := by
  obtain ⟨r, t, N, hx⟩ := hx
  exact ⟨r, _, N, fun n hn => rollback_eq_some_iff.2 ⟨t, hx n hn, rfl⟩⟩

theorem deeper (limit : Nat) (hx : s.depth < limit → Halts x { s with depth := s.depth + 1 }) :
    Halts (fun n => Eval.deeper limit (x n)) s := by
  rcases Nat.lt_or_ge s.depth limit with hbelow | hlimit
  · obtain ⟨r, t, N, hx⟩ := hx hbelow
    exact ⟨r, _, N, fun n hn => (deeper_eq_some_iff_of_lt hbelow).2 ⟨t, hx n hn, rfl⟩⟩
  · exact ⟨_, _, 0, fun n _ => deeper_of_le hlimit (x n)⟩

end Halts

end Eval

/-- Ending is a guarantee. -/
def halting : Guarantee where
  Holds := Halts
  harmless := by
    rintro α x s ⟨r, t, hx, -⟩
    exact .of_eq hx
  endless := by
    rintro α β x y s _ hy ⟨r, t, N, h⟩
    exact absurd (hy.symm.trans (h N (Nat.le_refl N))) (by simp)
  bind := Halts.bind
  rollback := Halts.rollback
  deeper := Halts.deeper

/-- The own part: `exit`, definitions and the binding of globals end. -/
theorem own_halting (stmt : Stmt) (s : Session) : halting.Own stmt s := by
  cases stmt with
  | exit => exact halting.bind (halting.harmless (.writeLine _)) fun _ _ _ _ => .of_eq rfl
  | define name parameters body => exact fun _ => .of_eq rfl
  | declareGlobal name value => exact fun _ _ => .of_eq rfl
  | promote name => exact fun _ _ => .of_eq rfl
  | _ => trivial

/-! ## What gets smaller -/

/-- How much syntax there is to the task. -/
noncomputable def Task.size : Task → Nat
  | expression e => sizeOf e
  | statement stmt _ => sizeOf stmt
  | comparison _ => 0

theorem Expr.size_lt_of_mem_operands {e operand : Expr} (h : operand ∈ e.operands) :
    sizeOf operand < sizeOf e := by
  cases e with
  | int | text | name => exact absurd h (by simp [Expr.operands])
  | binary op left right =>
    have heq : operand = left ∨ operand = right := by simpa [Expr.operands] using h
    rw [Expr.binary.sizeOf_spec]
    rcases heq with rfl | rfl <;> omega
  | call f es | index f es | array es =>
    have hmem : operand ∈ es := h
    have hlt := List.sizeOf_lt_of_mem hmem
    simp only [Expr.call.sizeOf_spec, Expr.index.sizeOf_spec, Expr.array.sizeOf_spec]
    omega
  | eval e | id e =>
    obtain rfl : operand = e := by simpa [Expr.operands] using h
    simp only [Expr.eval.sizeOf_spec, Expr.id.sizeOf_spec]
    omega

namespace Stmt

theorem size_lt_of_mem_operands {stmt : Stmt} {operand : Expr} (h : operand ∈ stmt.operands) :
    sizeOf operand < sizeOf stmt := by
  cases stmt with
  | exit | whileLoop | forLoop | define | promote | increment =>
    exact absurd h (by simp [operands])
  | print es | call f es | assignAll f es =>
    have hmem : operand ∈ es := h
    have hlt := List.sizeOf_lt_of_mem hmem
    simp only [print.sizeOf_spec, call.sizeOf_spec, assignAll.sizeOf_spec]
    omega
  | assignIndex x es value =>
    have hmem : operand ∈ es ∨ operand = value := by simpa [operands] using h
    rw [assignIndex.sizeOf_spec]
    rcases hmem with hmem | rfl
    · have hlt := List.sizeOf_lt_of_mem hmem
      omega
    · omega
  | branch e | return_ e | assign _ e | declareGlobal _ e | append e | remove e | compound _ _ e
  | expression e =>
    obtain rfl : operand = e := by simpa [operands] using h
    simp only [branch.sizeOf_spec, return_.sizeOf_spec, assign.sizeOf_spec,
      declareGlobal.sizeOf_spec, append.sizeOf_spec, remove.sizeOf_spec, compound.sizeOf_spec,
      expression.sizeOf_spec]
    omega

theorem size_lt_of_element? {stmt : Stmt} {container value : Expr}
    (h : stmt.element? = some (container, value)) : sizeOf value < sizeOf stmt := by
  cases stmt with
  | append | remove =>
    obtain ⟨rfl, rfl⟩ := Prod.mk.inj (Option.some.inj h)
    simp only [append.sizeOf_spec, remove.sizeOf_spec]
    omega
  | _ => exact absurd h (by simp [element?])

theorem size_lt_of_mem_branch {condition : Expr} {thenBlock elseBlock : Block} {inner : Stmt}
    {holds : Bool} (h : inner ∈ if holds then thenBlock else elseBlock) :
    sizeOf inner < sizeOf (branch condition thenBlock elseBlock) := by
  rw [branch.sizeOf_spec]
  cases holds with
  | true =>
    have hmem : inner ∈ thenBlock := h
    have hlt := List.sizeOf_lt_of_mem hmem
    omega
  | false =>
    have hmem : inner ∈ elseBlock := h
    have hlt := List.sizeOf_lt_of_mem hmem
    omega

end Stmt

theorem Task.size_lt_of_mem_operands {task : Task} {operand : Expr}
    (h : operand ∈ task.operands) : sizeOf operand < task.size := by
  cases task with
  | expression e => exact Expr.size_lt_of_mem_operands h
  | statement stmt frame => exact Stmt.size_lt_of_mem_operands h
  | comparison c => exact absurd h (by simp [Task.operands])

/-! ### Depth -/

namespace Eval

variable {α : Type} {settings : Settings}

theorem preserves_depth {x : Eval α} (hx : Keeps (·.depth) x) (depth : Nat) :
    Preserves (·.depth = depth) x := by
  intro s r t h hs
  exact (hx h).trans hs

theorem depth_evaluate (settings : Settings) (n : Nat) (e : Expr) :
    Keeps (·.depth) (evaluate settings n e) :=
  ((keeps_scope settings n).1 e).depth_of_scope

theorem ListReaches.depth_eq {n : Nat} {es : List Expr} {s u : Session} {e : Expr}
    (h : ListReaches (evaluate settings n) es s e u) : u.depth = s.depth :=
  h.preserves (fun e _ => preserves_depth (depth_evaluate settings n e) s.depth) rfl

theorem BlockReaches.depth_eq {n : Nat} {block : Block} {frame frame' : Frame} {s u : Session}
    {stmt : Stmt} (h : BlockReaches (execute settings n) block frame s stmt frame' u) :
    u.depth = s.depth :=
  h.preserves (fun stmt _ frame => preserves_depth ((keeps_scope settings n).2 stmt frame) s.depth)
    rfl

end Eval

/-- The task is smaller, at the same depth, or one level deeper within the limit. -/
def Point.Precedes (settings : Settings) (b a : Point) : Prop :=
  b.session.depth = a.session.depth ∧ b.task.size < a.task.size ∨
    a.session.depth < settings.maxDepth ∧ b.session.depth = a.session.depth + 1

/-- The depth that is left, and then the size. -/
noncomputable def Point.rank (settings : Settings) (a : Point) : Nat × Nat :=
  (settings.maxDepth - a.session.depth, a.task.size)

theorem Point.Precedes.rank_lt {settings : Settings} {a b : Point} (h : b.Precedes settings a) :
    Prod.Lex (· < ·) (· < ·) (b.rank settings) (a.rank settings) := by
  rcases h with ⟨hdepth, hsize⟩ | ⟨hlimit, hdepth⟩
  · unfold rank
    rw [hdepth]
    exact .right _ hsize
  · refine .left _ _ ?_
    omega

/-- Without loops, everything that is started is smaller or deeper. -/
theorem Starts.descends {settings : Settings} {a b : Point} (h : Starts settings a b)
    (hloop : a.task.Everywhere (!Stmt.isLoop ·)) : b.Precedes settings a := by
  have hevaluate {n : Nat} {e : Expr} {v : Value} {s u : Session}
      (hend : evaluate settings n e s = some (.ok v, u)) : u.depth = s.depth :=
    depth_evaluate settings n e hend
  have htarget {e : Expr} {v : Value} {found : Handle × String} {s u : Session}
      (hend : target e v s = some (.ok found, u)) : u.depth = s.depth := by
    have hkeeps : Keeps (·.depth) (target e v) := .target e v
    exact hkeeps hend
  cases h with
  | operand _ hreach => exact .inl ⟨hreach.depth_eq, Task.size_lt_of_mem_operands hreach.mem⟩
  | element _ hstmt hcontainer hfound =>
    refine .inl ⟨(htarget hfound).trans (hevaluate hcontainer), ?_⟩
    exact Stmt.size_lt_of_element? hstmt
  | @text operand e code s s₁ n hoperand _ _ hdepth =>
    have hsame := hevaluate hoperand
    refine .inr ⟨?_, ?_⟩
    · show s.depth < settings.maxDepth
      omega
    · show s₁.depth + 1 = s.depth + 1
      omega
  | @body task name arguments f stmt frame s s₁ u n m _ _ henters hreach =>
    obtain ⟨-, -, values, s₀, hvalues, hdepth, rfl⟩ := henters
    have hsame : s₀.depth = s.depth := Keeps.evaluateAll (depth_evaluate settings n) _ hvalues
    have hentered : u.depth = s₀.depth + 1 := hreach.depth_eq
    refine .inr ⟨?_, ?_⟩
    · show s.depth < settings.maxDepth
      omega
    · show u.depth = s.depth + 1
      omega
  | part hpart =>
    cases hpart with
    | branch _ htest hreach =>
      have hcondition := (depth_evaluate settings _ _).bind (fun v => .truthy v) htest
      exact .inl ⟨hreach.depth_eq.trans hcondition, Stmt.size_lt_of_mem_branch hreach.mem⟩
    | _ => exact absurd (Stmt.of_everywhere hloop) (by simp [Stmt.isLoop])
  | whileCondition | forCondition =>
    exact absurd (Stmt.of_everywhere hloop) (by simp [Stmt.isLoop])
  | @comparison op left right l r c s s₁ u n hleft hright =>
    refine .inl ⟨(hevaluate hright).trans (hevaluate hleft), ?_⟩
    show 0 < sizeOf (Expr.binary op left right)
    rw [Expr.binary.sizeOf_spec]
    omega
  | @search container value frame c v a h label front rest s s₁ s₂ u n _ hcontainer hfound hvalue =>
    refine .inl ⟨(hevaluate hvalue).trans ((htarget hfound).trans (hevaluate hcontainer)), ?_⟩
    show 0 < sizeOf (Stmt.remove container value)
    rw [Stmt.remove.sizeOf_spec]
    omega

/-! ## Runs -/

section Runs

variable {settings : Settings}

/-- A task without loops ends if every comparison does that it comes to. -/
theorem halts_task (a : Point) (ha : a.task.Everywhere (!Stmt.isLoop ·))
    (hs : a.session.Everywhere (!Stmt.isLoop ·))
    (hends : ∀ c u, Relation.ReflTransGen (Starts settings) a ⟨.comparison c, u⟩ → c.Ends u.heap) :
    Halts (fun n => a.task.run settings n) a.session := by
  have hbelow : halting.Below settings (fun n => n) a := by
    intro b hb
    have hdescends := hb.descends ha
    obtain ⟨hb', hs'⟩ := hb.inherits (persistent_everywhere _ settings) ha hs
    exact halts_task b hb' hs' fun c u hreach => hends c u (.head hb hreach)
  obtain ⟨task, s⟩ := a
  cases task with
  | comparison c =>
    have hdecided := Comparison.ends_iff_isDecided.1 (hends c s .refl)
    have hperform : c.perform s = some (.ok (), s) := by simp [Comparison.perform, hdecided]
    exact Halts.of_eq hperform
  | expression e =>
    have hholds : Halts (fun n => evaluate settings (n + 1) e) s := halting.holds_expression hbelow
    exact hholds.of_succ
  | statement stmt frame =>
    have hloop : stmt.isLoop = false := by simpa using Stmt.of_everywhere ha
    exact Halts.of_succ (halting.holds_statement (own_halting stmt s) hloop hbelow)
termination_by a.rank settings
decreasing_by exact hdescends.rank_lt

variable {program : Block} {s : Session}

/-- If the run ends, then so does every comparison that it comes to, with or without loops. -/
theorem ComesTo.comparison_ends {c : Comparison} {u t : Session} {levels : Nat}
    {r : Except RuntimeError Outcome} (h : ComesTo settings program s ⟨.comparison c, u⟩)
    (hrun : run settings levels program s = some (r, t)) : c.Ends u.heap := by
  obtain ⟨q, v, ⟨n, hend⟩, -⟩ := h.ends (lasting_true settings) hrun
  rw [Comparison.ends_iff_isDecided]
  by_cases hdecided : c.isDecided u.heap = true
  · exact hdecided
  · have hnone : c.perform u = none := Comparison.perform_eq_none_iff.2 (by simpa using hdecided)
    exact absurd (hnone.symm.trans hend) (by simp)

/-- If all comparisons end that the run comes to, then it ends itself. -/
theorem exists_ends_of_comparisons (h : Absent Stmt.isLoop program s)
    (hall : ∀ c u, ComesTo settings program s ⟨.comparison c, u⟩ → c.Ends u.heap) :
    ∃ r t, Ends (fun levels => run settings levels program) s r t := by
  have hblock : Halts (fun n => runBlock settings n program .program) s := by
    refine halting.holds_executeAll (fun n stmt frame u hreach => ?_) none
    have hcomes : ComesTo settings program s ⟨.statement stmt frame, u⟩ :=
      ⟨n, stmt, frame, u, hreach, .refl⟩
    obtain ⟨hstmt, hu⟩ := hcomes.inherits (persistent_everywhere _ settings) h.program h.functions
    refine halts_task ⟨.statement stmt frame, u⟩ hstmt hu fun c v hstarts => hall c v ?_
    exact ⟨n, stmt, frame, u, hreach, hstarts⟩
  obtain ⟨q, t, levels, hlevels⟩ := hblock.ends
  obtain ⟨r, hr⟩ := exists_conclude q t
  have hrun : run settings levels program s = some (r, t) := by
    rw [run_eq_conclude]
    exact (congrArg conclude hlevels).trans hr
  exact ⟨r, t, levels, hrun⟩

/-- **Programs without loops end.** Let no loop be in sight, neither in the program nor in a
    function that is defined nor in a function definition in either. Then a run of the program ends
    if and only if every comparison of values ends that it comes to, whatever recursion it uses and
    whatever texts it gives to `eval`. In particular it ends if no comparison of two different
    arrays comes up which both contain themselves. -/
theorem loopFree_run_ends (h : Absent Stmt.isLoop program s) :
    ((∃ r t, Ends (fun levels => run settings levels program) s r t) ↔
      ∀ c u, ComesTo settings program s ⟨.comparison c, u⟩ → c.Ends u.heap) ∧
    ((∀ c u c', ComesTo settings program s ⟨.comparison c, u⟩ →
        Relation.ReflTransGen (Comparison.Asks u.heap) c c' →
          u.heap.SelfContaining c'.left → u.heap.SelfContaining c'.right → c'.left = c'.right) →
      ∃ r t, Ends (fun levels => run settings levels program) s r t) := by
  refine ⟨⟨?_, exists_ends_of_comparisons h⟩,
    fun hall => exists_ends_of_comparisons h fun c u hcomes => ?_⟩
  · rintro ⟨r, t, levels, hrun⟩ c u hcomes
    exact hcomes.comparison_ends hrun
  · refine Classical.byContradiction fun hendless => ?_
    obtain ⟨c', hreach, hne, hleft, hright⟩ := Comparison.exists_selfContaining_of_not_ends hendless
    exact hne (hall c u c' hcomes hreach hleft hright)

end Runs

/-- A session with a function that compares two arrays and then calls itself through a text:
    `f() { if [1] == [1] { eval("f()"); } }`. -/
def sessionWithEcho : Session where
  functions := ({} : Bindings Function).insert "f" ⟨[],
    [.branch (.binary .equal (.array [.int 1]) (.array [.int 1]))
      [.expression (.eval (.text "f()"))] []]⟩

/-- A function that calls itself through a text for ever runs into the limit, and all comparisons on
    the way there end. -/
theorem loopFree_run_ends_echo :
    Absent Stmt.isLoop [.call "f" []] sessionWithEcho ∧
      ∃ t, Ends (fun levels => run { maxDepth := 3 } levels [.call "f" []]) sessionWithEcho
          (.error (.depthExceeded 3)) t ∧
        ∀ c u, ComesTo { maxDepth := 3 } [.call "f" []] sessionWithEcho ⟨.comparison c, u⟩ →
          c.Ends u.heap := by
  have habsent : Absent Stmt.isLoop [.call "f" []] sessionWithEcho :=
    ⟨by decide, Session.everywhere_of_entries (by decide)⟩
  have hresult : (run { maxDepth := 3 } 14 [.call "f" []] sessionWithEcho).map
      (fun x => (x.1, x.2.sink.text)) = some (.error (.depthExceeded 3), "") := by decide +kernel
  obtain ⟨t, hrun, -⟩ := exists_of_output hresult
  exact ⟨habsent, t, ⟨14, hrun⟩, (loopFree_run_ends habsent).1.1 ⟨_, t, 14, hrun⟩⟩

end Scriptlet
