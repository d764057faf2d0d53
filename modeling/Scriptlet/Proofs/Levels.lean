import Scriptlet.Proofs.Simulation

set_option autoImplicit false

/-! # Enough levels

Levels bound how far an evaluation is followed; they are no part of what it does. An evaluation that
ends with some number of levels ends in the same way with every greater number
(`ascending_evaluate`, `ascending_run`). What a program does is therefore `Ends`: how it ends with
enough levels. Two evaluations that end can be compared with the same number of levels
(`Ends.common`). -/

namespace Scriptlet.Eval

variable {α β : Type}

/-! ## More levels -/

/-- Whenever the first action ends, the second one ends in the same way. -/
def Extends (x y : Eval α) : Prop :=
  ∀ ⦃s r t⦄, x s = some (r, t) → y s = some (r, t)

namespace Extends

theorem bind {x y : Eval α} {f g : α → Eval β} (hx : Extends x y)
    (hf : ∀ a, Extends (f a) (g a)) : Extends (x >>= f) (y >>= g) := by
  intro s r t h
  rcases bind_eq_some_iff.1 h with ⟨e, he, hr⟩ | ⟨a, u, ha, hb⟩
  · exact bind_eq_some_iff.2 (.inl ⟨e, hx he, hr⟩)
  · exact bind_eq_some_iff.2 (.inr ⟨a, u, hx ha, hf a hb⟩)

theorem rollback {x y : Eval α} (hx : Extends x y) :
    Extends (Eval.rollback x) (Eval.rollback y) := by
  intro s r t h
  obtain ⟨u, hu, ht⟩ := rollback_eq_some_iff.1 h
  exact rollback_eq_some_iff.2 ⟨u, hx hu, ht⟩

theorem deeper (limit : Nat) {x y : Eval α} (hx : Extends x y) :
    Extends (Eval.deeper limit x) (Eval.deeper limit y) := by
  intro s r t h
  rcases Nat.lt_or_ge s.depth limit with hlimit | hlimit
  · obtain ⟨u, hu, ht⟩ := (deeper_eq_some_iff_of_lt hlimit).1 h
    exact (deeper_eq_some_iff_of_lt hlimit).2 ⟨u, hx hu, ht⟩
  · rw [deeper_of_le hlimit] at h ⊢
    exact h

end Extends

/-- The same evaluation with more levels. -/
def moreLevels (settings : Settings) (surplus : Nat) : Simulation settings settings surplus where
  Rel := Extends
  never y _ s r t h := absurd h (by simp [never])
  elementary _ s r t h := h
  bind := Extends.bind
  rollback := Extends.rollback
  deeper := Extends.deeper settings.maxDepth
  trace _ s r t h := h
  report faults s r t h := h

/-- Whatever ends with some number of levels ends in the same way with every greater number. -/
def Ascending (x : Nat → Eval α) : Prop :=
  ∀ ⦃n m⦄, n ≤ m → Extends (x n) (x m)

theorem ascending_evaluate (settings : Settings) (e : Expr) :
    Ascending fun levels => evaluate settings levels e := by
  intro n m h
  obtain ⟨surplus, rfl⟩ := Nat.exists_eq_add_of_le h
  have htexts := (moreLevels settings surplus).relatesTexts rfl
  exact ((moreLevels settings surplus).evaluate_execute htexts n).1 e

theorem ascending_executeAll (settings : Settings) (block : Block) (frame : Frame)
    (last : Option Value) :
    Ascending fun levels => executeAll (execute settings levels) block frame last := by
  intro n m h
  obtain ⟨surplus, rfl⟩ := Nat.exists_eq_add_of_le h
  have htexts := (moreLevels settings surplus).relatesTexts rfl
  have hs := ((moreLevels settings surplus).evaluate_execute htexts n).2
  exact (moreLevels settings surplus).executeAll hs block frame last

/-! ## Runs -/

/-- How a run ends, given how its block ends. -/
def conclude : Option (Except RuntimeError Yield × Session) →
    Option (Except RuntimeError Outcome × Session)
  | none => none
  | some (.ok _, t) => (do flush; return .completed : Eval Outcome) t
  | some (.error .exit, t) => (do flush; return .exited : Eval Outcome) t
  | some (.error e, t) => some (.error e, t)

theorem run_eq_conclude (settings : Settings) (levels : Nat) (program : Block) (s : Session) :
    run settings levels program s =
      conclude (executeAll (execute settings levels) program .program none s) :=
  rfl

/-- A run that ends has a block that ends. -/
theorem exists_of_run {settings : Settings} {levels : Nat} {program : Block} {s t : Session}
    {r : Except RuntimeError Outcome} (h : run settings levels program s = some (r, t)) :
    ∃ q u, executeAll (execute settings levels) program .program none s = some (q, u) ∧
      conclude (some (q, u)) = some (r, t) := by
  rw [run_eq_conclude] at h
  cases hblock : executeAll (execute settings levels) program .program none s with
  | none => exact absurd h (by simp [hblock, conclude])
  | some end_ =>
    rw [hblock] at h
    exact ⟨end_.1, end_.2, rfl, h⟩

/-- Behind its block, a run changes nothing any more. -/
theorem eq_of_conclude {q : Except RuntimeError Yield} {r : Except RuntimeError Outcome}
    {u t : Session} (h : conclude (some (q, u)) = some (r, t)) : t = u := by
  have hflush (outcome : Outcome) (hf : (do flush; return outcome : Eval Outcome) u = some (r, t)) :
      t = u := by
    have hkeeps : Keeps (fun s => s) (do flush; return outcome : Eval Outcome) :=
      Keeps.flush.bind fun _ => .pure outcome
    exact hkeeps hf
  unfold conclude at h
  split at h
  · next heq => exact absurd heq (by simp)
  · next heq =>
    simp only [Option.some.injEq, Prod.mk.injEq] at heq
    obtain ⟨-, rfl⟩ := heq
    exact hflush _ h
  · next heq =>
    simp only [Option.some.injEq, Prod.mk.injEq] at heq
    obtain ⟨-, rfl⟩ := heq
    exact hflush _ h
  · next heq =>
    simp only [Option.some.injEq, Prod.mk.injEq] at heq h
    rw [← h.2, heq.2]

/-- Behind a block that ends, a run ends. -/
theorem exists_conclude (q : Except RuntimeError Yield) (u : Session) :
    ∃ r, conclude (some (q, u)) = some (r, u) := by
  have hflush (outcome : Outcome) :
      ∃ r, (do flush; return outcome : Eval Outcome) u = some (r, u) := by
    cases hfailure : u.sink.flushFailure? u.sink.text with
    | none => exact ⟨.ok outcome, by simp [bind, Eval.bind, flush, hfailure, pure, Eval.pure]⟩
    | some cause =>
      exact ⟨.error (.outputFailed cause), by simp [bind, Eval.bind, flush, hfailure]⟩
  cases q with
  | ok y => exact hflush .completed
  | error e =>
    cases e with
    | exit => exact hflush .exited
    | _ => exact ⟨_, rfl⟩

theorem conclude_error {e : RuntimeError} (he : e ≠ .exit) (u : Session) :
    conclude (some (.error e, u)) = some (.error e, u) := by
  cases e with
  | exit => exact absurd rfl he
  | _ => rfl

/-- How a run ends whose output arrives. -/
def outcomeOf : Except RuntimeError Yield → Except RuntimeError Outcome
  | .ok _ => .ok .completed
  | .error .exit => .ok .exited
  | .error e => .error e

theorem outcomeOf_error {e : RuntimeError} (he : e ≠ .exit) : outcomeOf (.error e) = .error e := by
  cases e with
  | exit => exact absurd rfl he
  | _ => rfl

/-- An `exit` is a good end outside. -/
theorem outcomeOf_ne_exit (q : Except RuntimeError Yield) : outcomeOf q ≠ .error .exit := by
  cases q with
  | ok y => simp [outcomeOf]
  | error e =>
    by_cases he : e = .exit
    · subst he
      simp [outcomeOf]
    · simp [outcomeOf_error he, he]

theorem eq_exit_of_outcomeOf {q : Except RuntimeError Yield} (h : outcomeOf q = .ok .exited) :
    q = .error .exit := by
  cases q with
  | ok y => exact absurd h (by simp [outcomeOf])
  | error e =>
    by_cases he : e = .exit
    · rw [he]
    · exact absurd h (by simp [outcomeOf_error he])

theorem conclude_eq_some {t : Session} (hflush : ∀ text, t.sink.flushFailure? text = none)
    (q : Except RuntimeError Yield) : conclude (some (q, t)) = some (outcomeOf q, t) := by
  have hflushed (outcome : Outcome) :
      (do flush; return outcome : Eval Outcome) t = some (.ok outcome, t) := by
    simp only [bind, Eval.bind, flush, hflush]
    rfl
  cases q with
  | ok y => exact hflushed .completed
  | error e =>
    by_cases he : e = .exit
    · subst he
      exact hflushed .exited
    · rw [conclude_error he, outcomeOf_error he]

/-- Where output can be flushed, a run ends as its block does. -/
theorem run_eq_map {settings : Settings} {levels : Nat} {program : Block} {s : Session}
    (hflush : ∀ text, s.sink.flushFailure? text = none) :
    run settings levels program s =
      (executeAll (execute settings levels) program .program none s).map
        fun (q, t) => (outcomeOf q, t) := by
  have hkept := appends_executeAll settings levels program .program none
  rw [run_eq_conclude]
  rcases hend : executeAll (execute settings levels) program .program none s with _ | ⟨q, t⟩
  · rfl
  · have hflush' : ∀ text, t.sink.flushFailure? text = none :=
      hkept.flushFailure?_eq hend ▸ hflush
    exact conclude_eq_some hflush' q

theorem ascending_run (settings : Settings) (program : Block) :
    Ascending fun levels => run settings levels program := by
  intro n m h s r t hrun
  obtain ⟨q, u, hblock, hend⟩ := exists_of_run hrun
  have hmore : executeAll (execute settings m) program .program none s = some (q, u) :=
    ascending_executeAll settings program .program none h hblock
  show run settings m program s = some (r, t)
  rw [run_eq_conclude, hmore, hend]

/-! ## Ends -/

/-- With enough levels, the action ends with `r` and leaves the session `t`. -/
def Ends (x : Nat → Eval α) (s : Session) (r : Except RuntimeError α) (t : Session) : Prop :=
  ∃ levels, x levels s = some (r, t)

/-- Two evaluations that end do so with a common number of levels. -/
theorem Ends.common {x : Nat → Eval α} {y : Nat → Eval β} (hx : Ascending x) (hy : Ascending y)
    {s s' t t' : Session} {r : Except RuntimeError α} {r' : Except RuntimeError β}
    (h : Ends x s r t) (h' : Ends y s' r' t') :
    ∃ levels, x levels s = some (r, t) ∧ y levels s' = some (r', t') := by
  obtain ⟨n, hn⟩ := h
  obtain ⟨m, hm⟩ := h'
  exact ⟨max n m, hx (Nat.le_max_left n m) hn, hy (Nat.le_max_right n m) hm⟩

/-- A result and an output that were computed are those of an end. -/
theorem exists_of_output {ended : Option (Except RuntimeError α × Session)}
    {r : Except RuntimeError α} {text : String}
    (h : ended.map (fun x => (x.1, x.2.sink.text)) = some (r, text)) :
    ∃ t, ended = some (r, t) ∧ t.sink.text = text := by
  obtain ⟨⟨r', t⟩, hended, heq⟩ := Option.map_eq_some_iff.1 h
  simp only [Prod.mk.injEq] at heq
  obtain ⟨rfl, htext⟩ := heq
  exact ⟨t, hended, htext⟩

end Scriptlet.Eval
