import Scriptlet.Proofs.Levels

set_option autoImplicit false

/-! # Tracing

Traces are notices, and nothing that is evaluated depends on notices. Evaluating with traces and
without them are therefore the same, except that the notices of the second are those of the first
with the traces left out (`tracing_noninterference`).

This is one more instance of two evaluations side by side. The relation has to say at once that
both end or neither does, that everything but the notices is the same in the end, and which notices
were added. The notices that the second evaluation starts with are arbitrary: by the time it comes
to the second of two actions, they already differ from those of the first. -/

namespace Scriptlet

/-! ## Notices that are not traces -/

/-- Whether a notice is a trace. -/
def Notice.isTrace : Notice → Bool
  | trace _ => true
  | fault _ => false

/-- Notices without the traces among them. -/
def hushed (notices : Array Notice) : Array Notice :=
  notices.filter (!·.isTrace)

theorem hushed_append (a b : Array Notice) : hushed (a ++ b) = hushed a ++ hushed b := by
  simp [hushed]

theorem hushed_faults (faults : List Fault) :
    hushed (faults.map Notice.fault).toArray = (faults.map Notice.fault).toArray := by
  simp [hushed, Notice.isTrace]

theorem hushed_trace (t : Trace) : hushed #[.trace t] = #[] := by
  simp [hushed, Notice.isTrace]

/-- Both evaluations end, and in the same way, or neither does. What the first one has added to the
    notices of `s`, the second one has added to `kept`, without the traces. -/
inductive EndsHushed {ρ : Type} (s : Session) (kept : Array Notice) :
    Option (ρ × Session) → Option (ρ × Session) → Prop
  | never : EndsHushed s kept none none
  | ended (r : ρ) {t : Session} {added : Array Notice} : t.notices = s.notices ++ added →
      EndsHushed s kept (some (r, t)) (some (r, { t with notices := kept ++ hushed added }))

/-- What happens from `t` on, where the notices `added` have come to those of `s`. -/
theorem EndsHushed.behind {ρ : Type} {s t : Session} {kept added : Array Notice}
    {loud quiet : Option (ρ × Session)} (hadded : t.notices = s.notices ++ added)
    (h : EndsHushed t (kept ++ hushed added) loud quiet) : EndsHushed s kept loud quiet := by
  cases h with
  | never => exact .never
  | @ended r u more hmore =>
    have htotal : u.notices = s.notices ++ (added ++ more) := by
      rw [hmore, hadded, Array.append_assoc]
    have h : EndsHushed s kept (some (r, u))
        (some (r, { u with notices := kept ++ hushed (added ++ more) })) := .ended r htotal
    rw [hushed_append, ← Array.append_assoc] at h
    exact h

namespace Eval

variable {α β : Type}

/-- The second action is the first one without its traces. -/
def Hushes (x y : Eval α) : Prop :=
  ∀ s kept, EndsHushed s kept (x s) (y { s with notices := kept })

namespace Hushes

theorem elementary {x : Eval α} (hx : Elementary x) : Hushes x x := by
  intro s kept
  cases h : x s with
  | none =>
    have hnone : x { s with notices := kept } = none := by
      have hoblivious := hx.oblivious s s.depth kept
      rw [h] at hoblivious
      exact hoblivious
    rw [hnone]
    exact .never
  | some end_ =>
    obtain ⟨r, t⟩ := end_
    have hnotices : t.notices = s.notices ++ #[] := by
      rw [hx.end_eq h, Array.append_empty]
    have hended : EndsHushed s kept (some (r, t))
        (some (r, { t with notices := kept ++ hushed #[] })) := .ended r hnotices
    rw [hx.end_notices h kept]
    exact hended

theorem bind {x y : Eval α} {f g : α → Eval β} (hx : Hushes x y) (hf : ∀ a, Hushes (f a) (g a)) :
    Hushes (x >>= f) (y >>= g) := by
  intro s kept
  have h := hx s kept
  show EndsHushed s kept (Eval.bind x f s) (Eval.bind y g _)
  unfold Eval.bind
  generalize x s = loud at h
  generalize y { s with notices := kept } = quiet at h
  cases h with
  | never => exact .never
  | @ended r t added hadded =>
    cases r with
    | error e => exact .ended _ hadded
    | ok a => exact .behind hadded (hf a t _)

theorem rollback {x y : Eval α} (hx : Hushes x y) :
    Hushes (Eval.rollback x) (Eval.rollback y) := by
  intro s kept
  have h := hx s kept
  unfold Eval.rollback
  generalize x s = loud at h
  generalize y { s with notices := kept } = quiet at h
  cases h with
  | never => exact .never
  | @ended r t added hadded => exact .ended r (t := { t with locals := s.locals }) hadded

theorem deeper (limit : Nat) {x y : Eval α} (hx : Hushes x y) :
    Hushes (Eval.deeper limit x) (Eval.deeper limit y) := by
  intro s kept
  by_cases hlimit : limit ≤ s.depth
  · have hlimit' : limit ≤ ({ s with notices := kept } : Session).depth := hlimit
    rw [deeper_of_le hlimit, deeper_of_le hlimit']
    exact elementary (.fail (.depthExceeded limit)) s kept
  · have h := hx { s with depth := s.depth + 1 } kept
    unfold Eval.deeper
    dsimp only
    rw [if_neg hlimit, if_neg hlimit]
    generalize x { s with depth := s.depth + 1 } = loud at h
    generalize y { s with depth := s.depth + 1, notices := kept } = quiet at h
    cases h with
    | never => exact .never
    | @ended r t added hadded => exact .ended r (t := { t with depth := t.depth - 1 }) hadded

end Hushes

/-! ## Evaluating with traces and without -/

variable (settings : Settings)

/-- With traces and without: the same evaluation but for the traces. -/
def withoutTraces :
    Simulation { settings with verbose := true } { settings with verbose := false } 0 where
  Rel := Hushes
  never _ h := absurd rfl h
  elementary := Hushes.elementary
  bind := Hushes.bind
  rollback := Hushes.rollback
  deeper := Hushes.deeper settings.maxDepth
  trace {t} _ s kept := by
    have h : EndsHushed s kept
        (some (.ok (), { s with notices := s.notices.push (.trace (t s)) }))
        (some ((.ok () : Except RuntimeError Unit),
          { s with notices := kept ++ hushed #[.trace (t s)] })) := .ended _ Array.push_eq_append
    rw [hushed_trace, Array.append_empty] at h
    exact h
  report faults s kept := by
    have h : EndsHushed s kept
        (some (.ok (), { s with notices := s.notices ++ (faults.map Notice.fault).toArray }))
        (some ((.ok () : Except RuntimeError Unit),
          { s with notices := kept ++ hushed (faults.map Notice.fault).toArray })) := .ended _ rfl
    rw [hushed_faults] at h
    exact h

/-- Behind its block, a run neither looks at the notices nor adds to them. -/
theorem endsHushed_conclude {s : Session} {kept : Array Notice}
    {loud quiet : Option (Except RuntimeError Yield × Session)} (h : EndsHushed s kept loud quiet) :
    EndsHushed s kept (conclude loud) (conclude quiet) := by
  cases h with
  | never => exact .never
  | @ended q t added hadded =>
    have hflush (outcome : Outcome) :
        Hushes (do flush; return outcome : Eval Outcome) (do flush; return outcome) :=
      .elementary (Elementary.flush.bind fun _ => .pure outcome)
    cases q with
    | ok y => exact .behind hadded (hflush .completed t _)
    | error e =>
      by_cases hexit : e = .exit
      · subst hexit
        exact .behind hadded (hflush .exited t _)
      · rw [conclude_error hexit, conclude_error hexit]
        exact .ended _ hadded

theorem hushes_run (levels : Nat) (program : Block) :
    Hushes (run { settings with verbose := true } levels program)
      (run { settings with verbose := false } levels program) := by
  intro s kept
  have htexts := (withoutTraces settings).relatesTexts rfl
  have hs := ((withoutTraces settings).evaluate_execute htexts levels).2
  rw [run_eq_conclude, run_eq_conclude]
  exact endsHushed_conclude ((withoutTraces settings).executeAll hs program .program none s kept)

end Eval

/-! ## Source texts -/

open Eval

theorem endsHushed_onSource {α β : Type} {f g : α → Eval β} (h : ∀ a, Hushes (f a) (g a))
    (reading : Reading α) (s : Session) :
    EndsHushed s s.notices (s.onSource reading f) (s.onSource reading g) := by
  have hfaults := hushed_faults reading.faults
  unfold Session.onSource
  dsimp only
  cases reading.result with
  | error e =>
    have hended : EndsHushed s s.notices
        (some ((.error (.unreadable e) : Except ProgramError β),
          { s with notices := s.notices ++ (reading.faults.map Notice.fault).toArray }))
        (some (.error (.unreadable e), { s with
          notices := s.notices ++ hushed (reading.faults.map Notice.fault).toArray })) :=
      .ended _ rfl
    rw [hfaults] at hended
    exact hended
  | ok a =>
    refine .behind
      (t := { s with notices := s.notices ++ (reading.faults.map Notice.fault).toArray }) rfl ?_
    rw [hfaults]
    have hrest := h a { s with notices := s.notices ++ (reading.faults.map Notice.fault).toArray }
      (s.notices ++ (reading.faults.map Notice.fault).toArray)
    dsimp only at hrest ⊢
    generalize f a _ = loud at hrest ⊢
    generalize g a _ = quiet at hrest ⊢
    cases hrest with
    | never => exact .never
    | @ended r t added hadded =>
      cases r with
      | error e => exact .ended _ hadded
      | ok b => exact .ended _ hadded

/-- A report without the traces. -/
def Report.hushed (report : Report) : Report :=
  { report with notices := report.notices.filter (!·.isTrace) }

theorem map_report_hushed {loud quiet : Option (Except ProgramError Outcome × Session)}
    (h : EndsHushed {} #[] loud quiet) :
    quiet.map (fun (result, s) => ({ result, output := s.sink.text, notices := s.notices.toList } :
        Report)) =
      (loud.map fun (result, s) =>
        { result, output := s.sink.text, notices := s.notices.toList }).map Report.hushed := by
  cases h with
  | never => rfl
  | @ended r t added hadded => simp [Report.hushed, hushed, hadded]

/-- **Tracing does not interfere.** With traces and without them, a program that is run from any
    session ends with the same result and leaves the same bindings, functions, arrays, depth and
    output, or it does not end in either case; and the notices that it adds without traces are those
    that it adds with them, in the same order, with the traces left out. The same holds of source
    texts, and of everything that can be seen of a run on a fresh session. -/
theorem tracing_noninterference (settings : Settings) (levels : Nat) :
    (∀ program s, EndsHushed s s.notices
      (run { settings with verbose := true } levels program s)
      (run { settings with verbose := false } levels program s)) ∧
    (∀ source (s : Session), EndsHushed s s.notices
      (s.runText { settings with verbose := true } levels source)
      (s.runText { settings with verbose := false } levels source)) ∧
    ∀ source, runSource { settings with verbose := false } levels source =
      (runSource { settings with verbose := true } levels source).map Report.hushed := by
  have hrun := hushes_run settings levels
  refine ⟨fun program s => hrun program s s.notices,
    fun source s => endsHushed_onSource hrun (Block.ofSource source) s, fun source => ?_⟩
  -- the run of a source text has traces of its own before and behind it
  have htraced (program : Block) : Hushes
      (do
        trace { settings with verbose := true } fun _ => .parsed program.length
        let outcome ← run { settings with verbose := true } levels program
        trace { settings with verbose := true } fun _ => .finished outcome
        return outcome : Eval Outcome)
      (do
        trace { settings with verbose := false } fun _ => .parsed program.length
        let outcome ← run { settings with verbose := false } levels program
        trace { settings with verbose := false } fun _ => .finished outcome
        return outcome) := by
    refine ((withoutTraces settings).trace fun _ _ => rfl).bind fun _ => ?_
    refine (hrun program).bind fun outcome => ?_
    exact ((withoutTraces settings).trace fun _ _ => rfl).bind fun _ => .elementary (.pure outcome)
  have h := endsHushed_onSource htraced (Block.ofSource source) {}
  exact map_report_hushed h

end Scriptlet
