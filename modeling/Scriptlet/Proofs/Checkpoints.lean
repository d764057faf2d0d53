import Mathlib.Data.List.Induction
import Scriptlet.Scope

set_option autoImplicit false

/-! # Checkpoints

Restoring a checkpoint rolls back the bindings and nothing else. Every name stands for what it stood
for when the checkpoint was made, also for the same array; but the array has kept what was pushed to
it since, under whatever name (`restore_keeps_pushed`).

The two halves are independent of each other. What is pushed to an array stays there through any
events, so the arrays need no look at checkpoints (`elements_afterAll`). And a restoration pops the
checkpoint behind which the events are balanced: every other checkpoint made since has been
restored, so that the saved bindings are at the end what they were at the beginning
(`Balanced.saved_eq`). Where there is no such checkpoint there is nothing to restore
(`exists_balanced_of_saved`). -/

namespace Scriptlet

namespace Scope

/-! ## Events -/

/-- Something that happens to a scope and its arrays: a step, or a new array. No name is bound to
    the new array before a step binds one to it. -/
inductive Event where
  | step (s : Step)
  | make (elements : Array Value)

/-- A checkpoint is made. -/
def Event.checkpoint : Event := .step .checkpoint

/-- The latest checkpoint is restored. -/
def Event.restore : Event := .step .restore

/-- The event has nothing to do with checkpoints. -/
def Event.isPlain : Event → Bool
  | .step .checkpoint | .step .restore => false
  | _ => true

/-- The scope after an event. -/
def after (scope : Scope) : Event → Scope
  | .step s => (scope.apply s).2
  | .make elements => { scope with heap := (scope.heap.alloc elements).2 }

/-- The scope after events, in order. -/
def afterAll (scope : Scope) (events : List Event) : Scope :=
  events.foldl after scope

@[simp]
theorem afterAll_nil (scope : Scope) : scope.afterAll [] = scope := rfl

@[simp]
theorem afterAll_cons (scope : Scope) (event : Event) (events : List Event) :
    scope.afterAll (event :: events) = (scope.after event).afterAll events := rfl

@[simp]
theorem afterAll_append (scope : Scope) (a b : List Event) :
    scope.afterAll (a ++ b) = (scope.afterAll a).afterAll b := by
  simp [afterAll]

/-! ## Arrays -/

/-- The array that a step adds a value to, and the value. The array may be bound to other names as
    well. -/
def addition? (scope : Scope) : Step → Option (Handle × Value)
  | .push name v =>
    match scope.bindings.get? name with
    | some (.array h) => some (h, v)
    | _ => none
  | _ => none

/-- The values that an event adds to an array. -/
def pushed (scope : Scope) (h : Handle) : Event → List Value
  | .step s => ((scope.addition? s).filter (·.1 = h)).toList.map (·.2)
  | .make _ => []

/-- The values that events add to an array, in order. -/
def pushedTo (h : Handle) : Scope → List Event → List Value
  | _, [] => []
  | scope, event :: events => scope.pushed h event ++ (scope.after event).pushedTo h events

/-- A step changes an array only by what it adds to it. -/
theorem heap_apply (scope : Scope) (s : Step) :
    (scope.apply s).2.heap =
      match scope.addition? s with
      | some (h, v) => scope.heap.push h v
      | none => scope.heap := by
  cases s with
  | set name v | checkpoint | contains name => rfl
  | push name v =>
    cases hbound : scope.bindings.get? name with
    | none => simp [apply, addition?, hbound]
    | some w => cases w <;> simp [apply, addition?, hbound]
  | «alias» name other | get name | restore =>
    simp only [apply, addition?]
    split <;> rfl

/-- No array is ever given up. -/
theorem size_le_after (scope : Scope) (event : Event) :
    scope.heap.cells.size ≤ (scope.after event).heap.cells.size := by
  cases event with
  | make elements => simp [after, Heap.alloc]
  | step s =>
    rw [after, heap_apply]
    split
    · simp [Heap.push, Heap.modify]
    · exact Nat.le_refl _

/-- An event changes the arrays that there are only by what it adds to them. -/
theorem elements_after (scope : Scope) (event : Event) {h : Handle}
    (lt : h.index < scope.heap.cells.size) :
    ((scope.after event).heap.elements h).toList =
      (scope.heap.elements h).toList ++ scope.pushed h event := by
  cases event with
  | make elements =>
    rw [after, pushed, List.append_nil]
    exact congrArg Array.toList (Heap.elements_alloc_of_lt scope.heap elements lt)
  | step s =>
    rw [after, heap_apply, pushed]
    cases scope.addition? s with
    | none => simp
    | some addition =>
      obtain ⟨a, v⟩ := addition
      by_cases hsame : a = h
      · subst hsame
        simp [Heap.push, Heap.elements_modify_self _ _ lt, Option.filter]
      · simp [Heap.push, Heap.elements_modify_of_ne _ _ hsame, hsame, Option.filter]

/-- Events change the arrays that there are only by what they add to them. -/
theorem elements_afterAll (scope : Scope) (events : List Event) {h : Handle}
    (lt : h.index < scope.heap.cells.size) :
    ((scope.afterAll events).heap.elements h).toList =
      (scope.heap.elements h).toList ++ scope.pushedTo h events := by
  induction events generalizing scope with
  | nil => simp [pushedTo]
  | cons event events ih =>
    have hlater := ih (scope.after event) (Nat.lt_of_lt_of_le lt (scope.size_le_after event))
    rw [afterAll_cons, hlater, elements_after scope event lt, List.append_assoc, pushedTo]

/-! ## Balanced events -/

/-- Every checkpoint that is made is restored, and no checkpoint from before is. -/
inductive Balanced : List Event → Prop
  | nil : Balanced []
  | plain {event : Event} : event.isPlain = true → Balanced [event]
  | append {a b : List Event} : Balanced a → Balanced b → Balanced (a ++ b)
  | enclosed {inner : List Event} :
      Balanced inner → Balanced (Event.checkpoint :: inner ++ [Event.restore])

theorem saved_after_of_isPlain (scope : Scope) {event : Event} (h : event.isPlain = true) :
    (scope.after event).saved = scope.saved := by
  cases event with
  | make elements => rfl
  | step s =>
    cases s <;> simp only [Event.isPlain, Bool.false_eq_true] at h <;> simp only [after, apply]
    all_goals split <;> rfl

theorem after_restore (scope : Scope) {bindings : Bindings Value} {saved : List (Bindings Value)}
    (h : scope.saved = bindings :: saved) :
    scope.after .restore = { scope with bindings, saved } := by
  simp [after, Event.restore, apply, h]

/-- Balanced events leave the saved bindings as they were. -/
theorem Balanced.saved_eq {events : List Event} (h : Balanced events) (scope : Scope) :
    (scope.afterAll events).saved = scope.saved := by
  induction h generalizing scope with
  | nil => rfl
  | plain hplain => exact saved_after_of_isPlain scope hplain
  | append _ _ iha ihb => rw [afterAll_append, ihb, iha]
  | enclosed _ ih =>
    have hinner := ih (scope.after .checkpoint)
    rw [List.cons_append, afterAll_cons, afterAll_append, afterAll_cons, afterAll_nil,
      after_restore _ hinner]

/-- Where bindings are saved there is a checkpoint that has not been restored, and everything behind
    it is balanced. -/
theorem exists_balanced_of_saved {start : Scope} (hstart : start.saved = []) {events : List Event}
    (hsaved : (start.afterAll events).saved ≠ []) :
    ∃ earlier inner, events = earlier ++ Event.checkpoint :: inner ∧ Balanced inner := by
  -- a restoration leads back to the checkpoint before the one that it pops
  induction hn : events.length using Nat.strongRecOn generalizing events with
  | ind n ih =>
    cases events using List.reverseRecOn with
    | nil => exact absurd hstart hsaved
    | append_singleton events event =>
      rw [List.length_append, List.length_singleton] at hn
      rw [afterAll_append, afterAll_cons, afterAll_nil] at hsaved
      by_cases hplain : event.isPlain = true
      · rw [saved_after_of_isPlain _ hplain] at hsaved
        obtain ⟨earlier, inner, rfl, hinner⟩ := ih _ (by omega) hsaved rfl
        exact ⟨earlier, inner ++ [event], by simp, hinner.append (.plain hplain)⟩
      · match event, hplain with
        | .step .checkpoint, _ => exact ⟨events, [], rfl, .nil⟩
        | .step .restore, _ =>
          cases hopen : (start.afterAll events).saved with
          | nil => exact absurd hsaved (by simp [after, apply, hopen])
          | cons bindings saved =>
            have hbefore : (start.afterAll events).saved ≠ [] := by simp [hopen]
            obtain ⟨earlier, inner, rfl, hinner⟩ := ih _ (by omega) hbefore rfl
            rw [← Event.restore, after_restore _ hopen] at hsaved
            rw [afterAll_append, afterAll_cons, hinner.saved_eq] at hopen
            obtain ⟨-, hsame⟩ := List.cons.inj hopen
            have hearlier : (start.afterAll earlier).saved ≠ [] := hsame ▸ hsaved
            rw [List.length_append] at hn
            obtain ⟨first, middle, rfl, hmiddle⟩ := ih _ (by omega) hearlier rfl
            refine ⟨first, middle ++ (Event.checkpoint :: inner ++ [Event.restore]), ?_,
              hmiddle.append hinner.enclosed⟩
            simp [Event.restore]

end Scope

open Scope in
/-- **Checkpoints roll back bindings and never arrays.** Restore a scope behind any events. If behind
    one of the checkpoints the events are balanced, all bindings are those of the time when it was
    made, and every array that there was at that time has its elements of that time and behind them
    all that was pushed to it since, in order and under any name. If there is no such checkpoint,
    restoring changes nothing. -/
theorem restore_keeps_pushed (bindings : Bindings Value) (heap : Heap) (events : List Event) :
    let start : Scope := { bindings, heap }
    let now := start.afterAll events
    let restored := now.after .restore
    (∀ earlier inner, events = earlier ++ Event.checkpoint :: inner → Balanced inner →
      let origin := start.afterAll earlier
      restored.bindings = origin.bindings ∧ restored.saved = origin.saved ∧
      ∀ h, h.index < origin.heap.cells.size →
        (restored.heap.elements h).toList =
          (origin.heap.elements h).toList ++ origin.pushedTo h (Event.checkpoint :: inner)) ∧
    ((∀ earlier inner, events = earlier ++ Event.checkpoint :: inner → ¬Balanced inner) →
      restored = now) := by
  intro start now restored
  refine ⟨?_, fun hnone => ?_⟩
  · rintro earlier inner rfl hinner origin
    have hnow : now = (origin.after .checkpoint).afterAll inner := by
      simp [now, origin]
    have hopen : now.saved = origin.bindings :: origin.saved := by
      rw [hnow, hinner.saved_eq]
      rfl
    have hrestored : restored = { now with bindings := origin.bindings, saved := origin.saved } :=
      after_restore now hopen
    refine ⟨by rw [hrestored], by rw [hrestored], fun h lt => ?_⟩
    rw [hrestored, hnow, ← afterAll_cons]
    exact elements_afterAll _ _ lt
  · have hclosed : now.saved = [] := by
      by_contra hsaved
      obtain ⟨earlier, inner, heq, hinner⟩ := exists_balanced_of_saved rfl hsaved
      exact hnone earlier inner heq hinner
    simp [restored, after, Event.restore, apply, hclosed]

open Scope

/-- `x` stands for an array that holds one. -/
def scopeWithArray : Scope where
  bindings := ({} : Bindings Value).insert "x" (.array ⟨0⟩)
  heap := ⟨#[#[.int 1]]⟩

/-- What is pushed to the array of `x` under another name, before and behind an inner checkpoint. -/
def pushesUnderAlias : List Event :=
  [.step (.alias "y" "x"), .step (.push "y" (.int 2)), .step (.set "x" (.int 5)),
    .checkpoint, .step (.push "y" (.int 3)), .step (.set "y" (.int 6)), .restore]

theorem balanced_pushesUnderAlias : Balanced pushesUnderAlias := by
  have hinner : Balanced [.step (.push "y" (.int 3)), .step (.set "y" (.int 6))] :=
    .append (.plain rfl) (.plain rfl)
  exact .append (.plain rfl) (.append (.plain rfl) (.append (.plain rfl) hinner.enclosed))

/-- The name has its array back, and the array has kept what was pushed to it. -/
theorem restore_keeps_pushed_alias :
    let restored :=
      (scopeWithArray.afterAll (Event.checkpoint :: pushesUnderAlias)).after .restore
    restored.bindings = scopeWithArray.bindings ∧
      (restored.heap.elements ⟨0⟩).toList = [.int 1, .int 2, .int 3] := by
  obtain ⟨hrestored, -⟩ := restore_keeps_pushed scopeWithArray.bindings scopeWithArray.heap
    (Event.checkpoint :: pushesUnderAlias)
  obtain ⟨hbindings, -, helements⟩ := hrestored [] _ rfl balanced_pushesUnderAlias
  exact ⟨hbindings, helements ⟨0⟩ (by decide)⟩

end Scriptlet
