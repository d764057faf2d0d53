import Scriptlet.Proofs.Ends
import Scriptlet.Proofs.MadeArrays
import Scriptlet.Proofs.ScopeRestoration

set_option autoImplicit false

/-! # Compound assignment

`x += e` is `x = x + e`, and so for the other operators, with one exception: an array that is added
to an array extends it in place, where the sum is a new array. The elements are the same, but in the
one case everything that holds the array of `x` sees the extension, and in the other nothing but `x`
does (`compound_is_assignment_but_for_sharing`).

Both statements first look at `x`, then evaluate `e`, and then make the value that `x` is bound to
(`ends_compound_iff`, `ends_assign_iff`). All that differs is how this value is made, which is
`compoundValue_eq_applyBinary` where no array is extended. -/

namespace Scriptlet

/-- Binding a name to what it is bound to changes nothing. -/
theorem Bindings.insert_of_get?_eq_some {α : Type} {b : Bindings α} {name : String} {a : α}
    (h : b.get? name = some a) : b.insert name a = b := by
  obtain ⟨entries⟩ := b
  have hentries : insertEntry name a entries = entries := by
    induction entries with
    | nil => exact absurd h (by simp [get?])
    | cons entry entries ih =>
      by_cases hentry : entry.1 = name
      · have hvalue : entry.2 = a := by simpa [get?, hentry] using h
        rw [insertEntry, if_pos hentry, ← hentry, ← hvalue]
      · rw [insertEntry, if_neg hentry, ih]
        simpa [get?, List.find?_cons, hentry] using h
  exact congrArg Bindings.mk hentries

namespace Eval

variable {settings : Settings} {s t : Session} {x : String} {current : Value} {op : Arithmetic}
  {e : Expr} {frame : Frame}

/-! ## The two statements -/

/-- The last part of an assignment: the value is made and the name is bound to it. -/
def rebind (x : String) (frame : Frame) (made : Eval Value) : Eval Yield := do
  setLocal x (← made)
  return (none, frame)

theorem bind_eq_of_ok {α β : Type} {y : Eval α} {f : α → Eval β} {a : α} {u : Session}
    (h : y s = some (.ok a, u)) : (y >>= f) s = f a u := by
  show Eval.bind y f s = _
  rw [Eval.bind, h]

theorem getLocal_eq (hx : s.locals.get? x = some current) :
    getLocal x s = some (.ok current, s) := by
  simp only [getLocal, find, hx]

theorem resolve_eq (hx : s.locals.get? x = some current) :
    resolve x s = some (.ok current, s) := by
  simp only [resolve, find, Session.lookup?, hx]
  rfl

theorem ends_compound_iff (hframe : frame ≠ .function true) (hx : s.locals.get? x = some current)
    {r : Except RuntimeError Yield} :
    Ends (execute settings · (.compound x op e) frame) s r t ↔
      (∃ err, Ends (evaluate settings · e) s (.error err) t ∧ r = .error err) ∨
        ∃ v u, Ends (evaluate settings · e) s (.ok v) u ∧
          rebind x frame (compoundValue op current v) u = some (r, t) := by
  have hexecute (n : Nat) : execute settings (n + 1) (.compound x op e) frame s =
      (evaluate settings n e >>= fun v => rebind x frame (compoundValue op current v)) s := by
    simp only [execute, if_neg hframe]
    exact bind_eq_of_ok (getLocal_eq hx)
  rw [← ends_bind_const_iff (ascending_evaluate settings e),
    ← ends_add_iff (ascending_execute settings _ frame) 1]
  exact ends_congr hexecute

theorem ends_assign_iff (hframe : frame ≠ .function true) (hx : s.locals.get? x = some current)
    {r : Except RuntimeError Yield} :
    Ends (execute settings · (.assign x (.binary (.arithmetic op) (.name x) e)) frame) s r t ↔
      (∃ err, Ends (evaluate settings · e) s (.error err) t ∧ r = .error err) ∨
        ∃ v u, Ends (evaluate settings · e) s (.ok v) u ∧
          rebind x frame (applyBinary (.arithmetic op) current v) u = some (r, t) := by
  have hexecute (n : Nat) :
      execute settings (n + 3) (.assign x (.binary (.arithmetic op) (.name x) e)) frame s =
        (evaluate settings (n + 1) e >>= fun v =>
          rebind x frame (applyBinary (.arithmetic op) current v)) s := by
    have hstart : execute settings (n + 3) (.assign x (.binary (.arithmetic op) (.name x) e)) frame =
        resolve x >>= fun l => evaluate settings (n + 1) e >>= fun v =>
          rebind x frame (applyBinary (.arithmetic op) l v) := by
      rw [execute, if_neg hframe]
      simp only [rebind, ← bind_assoc]
      rfl
    rw [hstart]
    exact bind_eq_of_ok (resolve_eq hx)
  have hascending : Ascending fun n => evaluate settings n e >>= fun v =>
      rebind x frame (applyBinary (.arithmetic op) current v) :=
    (ascending_evaluate settings e).bind fun v => ascending_const _
  rw [← ends_bind_const_iff (ascending_evaluate settings e),
    ← ends_add_iff (ascending_execute settings _ frame) 3, ← ends_add_iff hascending 1]
  exact ends_congr hexecute

/-! ## The values -/

theorem rebind_eq_of_ok {made : Eval Value} {w : Value} (h : made s = some (.ok w, t)) :
    rebind x frame made s = some (.ok (none, frame), { t with locals := t.locals.insert x w }) := by
  rw [rebind, bind_eq_of_ok h]
  rfl

/-- Where no array is extended, a compound assignment makes the value of the operator. -/
theorem compoundValue_eq_applyBinary {v : Value}
    (h : op = .add → ∀ a, current = .array a → ∀ b, v ≠ .array b) :
    compoundValue op current v = applyBinary (.arithmetic op) current v := by
  unfold compoundValue
  split
  · next a b => exact absurd rfl (h rfl a rfl b)
  · rfl

end Eval

/-- The second session is the first one but for the elements of one array. -/
structure Session.Refills (s t : Session) (a : Handle) (elements : Array Value) : Prop where
  session : t = { s with heap := t.heap }
  elements : t.heap.elements a = elements
  others : ∀ b, b ≠ a → t.heap.elements b = s.heap.elements b
  size : t.heap.cells.size = s.heap.cells.size

/-- The second session is the first one but for a local name, which is bound to a new array. -/
structure Session.BindsNew (s t : Session) (x : String) (c : Handle) (elements : Array Value) :
    Prop where
  session : t = { s with locals := s.locals.insert x (.array c), heap := t.heap }
  unmade : ¬s.Made c
  made : t.Made c
  elements : t.heap.elements c = elements
  others : s.heap.Extends t.heap

open Eval

section

variable {settings : Settings} {s u : Session} {x : String} {e : Expr} {frame : Frame}
  {a b : Handle}

/-- The evaluation of an expression leaves the local bindings as they are. -/
theorem locals_of_ends {r : Except RuntimeError Value} (h : Ends (evaluate settings · e) s r u) :
    u.locals = s.locals := by
  obtain ⟨levels, hlevels⟩ := h
  exact ((keeps_scope settings levels).1 e).locals_of_scope hlevels

/-- An array that is added with `+=` is added in place. -/
theorem exists_refills (hframe : frame ≠ .function true) (hx : s.locals.get? x = some (.array a))
    (ha : s.Made a) (hvalue : Ends (evaluate settings · e) s (.ok (.array b)) u) :
    ∃ t, Ends (execute settings · (.compound x .add e) frame) s (.ok (none, frame)) t ∧
      u.Refills t a (u.heap.elements a ++ u.heap.elements b) := by
  have hlocals : u.locals = s.locals := locals_of_ends hvalue
  obtain ⟨levels, hlevels⟩ := hvalue
  have hmade : u.Made a := (preserves_made settings a levels).1 e hlevels ha
  have hextend : compoundValue .add (.array a) (.array b) u = some (.ok (.array a),
      { u with heap := u.heap.modify a (· ++ u.heap.elements b) }) := rfl
  refine ⟨_, (ends_compound_iff hframe hx).2 (.inr ⟨_, u, ⟨levels, hlevels⟩,
    rebind_eq_of_ok hextend⟩), ?_, ?_, ?_, ?_⟩
  · show Session.mk (u.locals.insert x (.array a)) _ _ _ _ _ _ = _
    rw [Bindings.insert_of_get?_eq_some (hlocals ▸ hx)]
  · exact Heap.elements_modify_self u.heap _ hmade
  · intro h hne
    exact Heap.elements_modify_of_ne u.heap _ hne.symm
  · exact Array.size_modify

/-- An array that is added with `+` makes a new one. -/
theorem exists_bindsNew (hframe : frame ≠ .function true) (hx : s.locals.get? x = some (.array a))
    (hvalue : Ends (evaluate settings · e) s (.ok (.array b)) u) :
    ∃ t c, Ends (execute settings · (.assign x (.binary (.arithmetic .add) (.name x) e)) frame) s
        (.ok (none, frame)) t ∧
      u.BindsNew t x c (u.heap.elements a ++ u.heap.elements b) := by
  have hsum : applyBinary (.arithmetic .add) (.array a) (.array b) u =
      some (.ok (.array (u.heap.alloc (u.heap.elements a ++ u.heap.elements b)).1),
        { u with heap := (u.heap.alloc (u.heap.elements a ++ u.heap.elements b)).2 }) := rfl
  refine ⟨_, _, (ends_assign_iff hframe hx).2 (.inr ⟨_, u, hvalue, rebind_eq_of_ok hsum⟩),
    rfl, ?_, ?_, ?_, ?_⟩
  · exact Nat.lt_irrefl _
  · simp [Session.Made, Heap.alloc]
  · exact Heap.elements_alloc_self u.heap _
  · exact .alloc u.heap _

/-- Both statements add two arrays, each in its own way. -/
theorem exists_sharing {op : Arithmetic} (hop : op = .add) (hframe : frame ≠ .function true)
    (hx : s.locals.get? x = some (.array a)) (ha : s.Made a)
    (hvalue : Ends (evaluate settings · e) s (.ok (.array b)) u) :
    u.locals = s.locals ∧ ∃ t t' c,
      Ends (execute settings · (.compound x op e) frame) s (.ok (none, frame)) t ∧
      Ends (execute settings · (.assign x (.binary (.arithmetic op) (.name x) e)) frame) s
        (.ok (none, frame)) t' ∧
      u.Refills t a (u.heap.elements a ++ u.heap.elements b) ∧
      u.BindsNew t' x c (u.heap.elements a ++ u.heap.elements b) := by
  subst hop
  obtain ⟨t, hcompound, hrefills⟩ := exists_refills hframe hx ha hvalue
  obtain ⟨t', c, hassign, hbinds⟩ := exists_bindsNew hframe hx hvalue
  exact ⟨locals_of_ends hvalue, t, t', c, hcompound, hassign, hrefills, hbinds⟩

/-- Where no array is extended, the two statements do the same. -/
theorem compound_iff_assign {current : Value} (hx : s.locals.get? x = some current) {op : Arithmetic}
    (h : ¬(op = .add ∧ frame ≠ .function true ∧
      ∃ a b u, current = .array a ∧ Ends (evaluate settings · e) s (.ok (.array b)) u))
    (r : Except RuntimeError Yield) (t : Session) :
    Ends (execute settings · (.compound x op e) frame) s r t ↔
      Ends (execute settings · (.assign x (.binary (.arithmetic op) (.name x) e)) frame) s r t := by
  by_cases hframe : frame = .function true
  · -- behind a `return`, neither statement is executed
    subst hframe
    rw [← ends_add_iff (ascending_execute settings _ _) 1,
      ← ends_add_iff (ascending_execute settings (.assign _ _) _) 1]
    exact ends_congr fun _ => rfl
  · rw [ends_compound_iff hframe hx, ends_assign_iff hframe hx]
    refine or_congr Iff.rfl (exists_congr fun v => exists_congr fun u => and_congr_right fun hv => ?_)
    have hvalue : compoundValue op current v = applyBinary (.arithmetic op) current v := by
      apply compoundValue_eq_applyBinary
      rintro rfl a rfl b rfl
      exact h ⟨rfl, hframe, a, b, u, rfl, hv⟩
    rw [hvalue]

end

/-- **Compound assignment is assignment, except for sharing.** Let `x` be bound to a value; if this
    is an array, it has been made. The statements `x op= e` and `x = x op e` have the same results:
    either both end with the same error, and then in the same session, or both succeed. Unless the
    values of `x` and `e` are arrays and are added, they also succeed in the same sessions. For two
    arrays, let `u` be the session behind the evaluation of `e`, with the local bindings of before.
    Then the one statement changes nothing in `u` but the elements of the array of `x`, which is
    extended by those of the other array, also if that is the same one. The other statement binds
    `x` to a new array with these elements, and changes none that there was. -/
theorem compound_is_assignment_but_for_sharing (settings : Settings) {s : Session} {x : String}
    {current : Value} (hx : s.locals.get? x = some current)
    (hmade : ∀ a, current = .array a → s.Made a) (op : Arithmetic) (e : Expr) (frame : Frame) :
    let compound := Ends (execute settings · (.compound x op e) frame) s
    let assign := Ends (execute settings · (.assign x (.binary (.arithmetic op) (.name x) e)) frame) s
    (∀ r, (∃ t, compound r t) ↔ ∃ t, assign r t) ∧
    (∀ error t, compound (.error error) t ↔ assign (.error error) t) ∧
    (¬(op = .add ∧ ∃ a b u, current = .array a ∧ Ends (evaluate settings · e) s (.ok (.array b)) u) →
      ∀ r t, compound r t ↔ assign r t) ∧
    ∀ a b u, op = .add → current = .array a → frame ≠ .function true →
      Ends (evaluate settings · e) s (.ok (.array b)) u → u.locals = s.locals ∧
      ∃ t t' c, compound (.ok (none, frame)) t ∧ assign (.ok (none, frame)) t' ∧
        u.Refills t a (u.heap.elements a ++ u.heap.elements b) ∧
        u.BindsNew t' x c (u.heap.elements a ++ u.heap.elements b) := by
  intro compound assign
  have hsharing (a b : Handle) (u : Session) (hop : op = .add) (hcurrent : current = .array a)
      (hframe : frame ≠ .function true)
      (hvalue : Ends (evaluate settings · e) s (.ok (.array b)) u) :=
    exists_sharing hop hframe (hcurrent ▸ hx) (hmade a hcurrent) hvalue
  by_cases h : op = .add ∧ frame ≠ .function true ∧
      ∃ a b u, current = .array a ∧ Ends (evaluate settings · e) s (.ok (.array b)) u
  · obtain ⟨hop, hframe, a, b, u, hcurrent, hvalue⟩ := h
    obtain ⟨-, t, t', c, hcompound, hassign, -⟩ := hsharing a b u hop hcurrent hframe hvalue
    -- both succeed, and an evaluation has one end
    have hresult {r : Except RuntimeError Yield} {t₁ : Session} (hr : compound r t₁) :
        r = .ok (none, frame) :=
      (hcompound.unique (ascending_execute settings _ frame) hr).1
    have hresult' {r : Except RuntimeError Yield} {t₁ : Session} (hr : assign r t₁) :
        r = .ok (none, frame) :=
      (hassign.unique (ascending_execute settings _ frame) hr).1
    refine ⟨fun r => ⟨?_, ?_⟩, fun error t₁ => ?_, fun hnot => ?_, hsharing⟩
    · rintro ⟨t₁, hr⟩
      exact ⟨t', hresult hr ▸ hassign⟩
    · rintro ⟨t₁, hr⟩
      exact ⟨t, hresult' hr ▸ hcompound⟩
    · exact iff_of_false (fun hr => by simpa using hresult hr) fun hr => by simpa using hresult' hr
    · exact absurd ⟨hop, a, b, u, hcurrent, hvalue⟩ hnot
  · have hsame := compound_iff_assign hx h
    exact ⟨fun r => exists_congr (hsame r), fun error => hsame (.error error), fun _ => hsame,
      hsharing⟩

/-- A session with an array `[1]` that two local names share. -/
def sessionWithShared : Session where
  heap := ⟨#[#[.int 1]]⟩
  locals := (({} : Bindings Value).insert "a" (.array ⟨0⟩)).insert "b" (.array ⟨0⟩)

/-- `a += a;` and `a = a + a;` where `b` is the same array: it is `[1, 1]` behind the one statement
    and `[1]` behind the other. -/
theorem compound_is_assignment_but_for_sharing_alias :
    ∃ t t' c,
      Ends (execute {} · (.compound "a" .add (.name "a")) .program) sessionWithShared
        (.ok (none, .program)) t ∧
      Ends (execute {} · (.assign "a" (.binary (.arithmetic .add) (.name "a") (.name "a"))) .program)
        sessionWithShared (.ok (none, .program)) t' ∧
      t.locals.get? "b" = some (.array ⟨0⟩) ∧ t.heap.elements ⟨0⟩ = #[.int 1, .int 1] ∧
      t'.locals.get? "b" = some (.array ⟨0⟩) ∧ t'.heap.elements ⟨0⟩ = #[.int 1] ∧
      t'.locals.get? "a" = some (.array c) ∧ t'.heap.elements c = #[.int 1, .int 1] := by
  have hx : sessionWithShared.locals.get? "a" = some (.array ⟨0⟩) := rfl
  have hmade : ∀ a, Value.array ⟨0⟩ = .array a → sessionWithShared.Made a := by
    rintro a ⟨⟩
    show 0 < 1
    decide
  have hvalue : Ends (evaluate {} · (.name "a")) sessionWithShared (.ok (.array ⟨0⟩))
      sessionWithShared := ⟨1, rfl⟩
  obtain ⟨-, -, -, hsharing⟩ :=
    compound_is_assignment_but_for_sharing {} hx hmade .add (.name "a") .program
  obtain ⟨-, t, t', c, hcompound, hassign, hrefills, hbinds⟩ :=
    hsharing ⟨0⟩ ⟨0⟩ sessionWithShared rfl rfl (by decide) hvalue
  refine ⟨t, t', c, hcompound, hassign, ?_, hrefills.elements, ?_, ?_, ?_, hbinds.elements⟩
  · rw [hrefills.session]
    rfl
  · rw [hbinds.session]
    rfl
  · exact hbinds.others.elements ⟨0⟩ (by decide)
  · rw [hbinds.session]
    exact Bindings.get?_insert_self _ _ _

end Scriptlet
