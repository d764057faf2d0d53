import Scriptlet.Proofs.Ends
import Scriptlet.Proofs.PathAccess

set_option autoImplicit false

/-! # Assignments that crash

If the last index of an indexed assignment means no place, then the array that was to be written to
is held when the indices are written for the report. The indices in front of the last one cannot
open it, as they have been used as positions, and a position is no array
(`Heap.exists_integer_of_follow?`). The last index may be anything, and where the array can be
reached from it the assignment crashes instead of reporting (`assignIndex_crashes_iff`). For this
the index need not be the array itself: `a[b] = 2` crashes where `b` is `[a]`
(`not_forall_last_index_spares_target`). -/

namespace Scriptlet

/-! ## Positions reach nothing -/

namespace Heap

variable {heap : Heap} {a : Handle} {v : Value}

/-- Only arrays reach arrays. -/
theorem exists_array_of_reaches (h : Relation.ReflTransGen heap.HasElement v (.array a)) :
    ∃ b, v = .array b := by
  rcases Relation.ReflTransGen.cases_head h with rfl | ⟨w, ⟨b, rfl, -⟩, -⟩
  · exact ⟨a, rfl⟩
  · exact ⟨b, rfl⟩

theorem exists_integer_of_at? {container index w : Value} (h : heap.at? container index = some w) :
    ∃ position, index.integer? = some position := by
  cases container with
  | array b =>
    obtain ⟨place, hslot, -⟩ := at?_array_eq_some_iff.1 h
    exact (slot?_eq_some_iff.1 hslot).imp fun _ => And.left
  | text s =>
    obtain ⟨position, hposition, -⟩ := Option.bind_eq_some_iff.1 h
    exact ⟨position, hposition⟩
  | int | float | bool => simp [at?] at h

/-- All indices of a path that leads somewhere are positions. -/
theorem exists_integer_of_follow? {start index w : Value} {path : List Value}
    (h : heap.follow? start path = some w) (hindex : index ∈ path) :
    ∃ position, index.integer? = some position := by
  induction path generalizing start with
  | nil => exact absurd hindex List.not_mem_nil
  | cons first path ih =>
    obtain ⟨inner, hinner, hrest⟩ := Option.bind_eq_some_iff.1 h
    rcases List.mem_cons.1 hindex with rfl | hindex
    · exact exists_integer_of_at? hinner
    · exact ih hrest hindex

/-- An index on the way to an array reaches no array. -/
theorem not_reaches_of_follow? {start index w : Value} {path : List Value}
    (h : heap.follow? start path = some w) (hindex : index ∈ path) (a : Handle) :
    ¬Relation.ReflTransGen heap.HasElement index (.array a) := by
  intro hreach
  obtain ⟨b, rfl⟩ := exists_array_of_reaches hreach
  obtain ⟨position, hposition⟩ := exists_integer_of_follow? h hindex
  exact absurd hposition (by simp [Value.integer?])

/-- With an array in front of the last index, only this index can be wrong. -/
theorem write?_eq_none_iff {h : Handle} {walk : List Value} {last : Value}
    (hwalk : heap.follow? (.array h) walk = some (.array a)) :
    heap.write? h v (walk ++ [last]) = none ↔ heap.slot? a last = none := by
  simp only [Option.eq_none_iff_forall_ne_some]
  constructor
  · intro hwrite place hslot
    exact hwrite _ (write?_eq_some_iff.2 ⟨a, place, hwalk, hslot, rfl⟩)
  · intro hslot heap' hwrite
    obtain ⟨b, place, hwalk', hplace, -⟩ := write?_eq_some_iff.1 hwrite
    obtain rfl : a = b := by simpa using hwalk.symm.trans hwalk'
    exact hslot place hplace

end Heap

/-! ## The assignment -/

/-- The variable is an array, all indices but the last one lead to the array `a`, and the last one
    means no place of it. -/
structure Session.FailsAtLast (s : Session) (name : String) (walk : List Value) (last : Value)
    (a : Handle) : Prop where
  walk : ∃ h, s.lookup? name = some (.array h) ∧
    s.heap.follow? (.array h) walk = some (.array a)
  last : s.heap.slot? a last = none

namespace Eval

variable {settings : Settings} {s t u : Session} {name : String} {indices : List Expr}
  {value : Expr} {frame : Frame} {path walk : List Value} {last v : Value} {a : Handle}

/-- Behind indices that lead to an array, the failure is a crash just in case the last index reaches
    this array. -/
theorem pathFailure_eq_crash_iff_reaches {h : Handle}
    (hwalk : s.heap.follow? (.array h) walk = some (.array a)) :
    pathFailure name h (walk ++ [last]) s = .crash ↔
      Relation.ReflTransGen s.heap.HasElement last (.array a) := by
  rw [pathFailure_eq_crash_iff]
  constructor
  · rintro ⟨b, hwalk', index, hindex, hreach⟩
    obtain rfl : a = b := by simpa using hwalk.symm.trans hwalk'
    rcases List.mem_append.1 hindex with hindex | hindex
    · exact absurd hreach (Heap.not_reaches_of_follow? hwalk hindex a)
    · exact List.mem_singleton.1 hindex ▸ hreach
  · intro hreach
    exact ⟨a, hwalk, last, List.mem_append_right _ (List.mem_singleton_self last), hreach⟩

/-- A write crashes just in case it fails at its last index and the array there can be reached from
    this index. -/
theorem writePath_crashes_iff :
    writePath name path v s = some (.error .crash, t) ↔
      t = s ∧ ∃ walk last a, path = walk ++ [last] ∧ s.FailsAtLast name walk last a ∧
        Relation.ReflTransGen s.heap.HasElement last (.array a) := by
  constructor
  · intro hcrash
    rcases writePath_ends name path v s with ⟨t', hok⟩ | ⟨e, he, hreason⟩
    · simp [hok] at hcrash
    rw [he, Option.some.injEq, Prod.mk.injEq, Except.error.injEq] at hcrash
    obtain ⟨rfl, rfl⟩ := hcrash
    obtain ⟨-, hnone⟩ | ⟨-, hother⟩ | ⟨h, hname, hwrite, hfailure⟩ := hreason
    · exact absurd hnone (by simp)
    · exact absurd hother (by simp)
    rcases List.eq_nil_or_concat' path with rfl | ⟨walk, last, rfl⟩
    · exact absurd hfailure.symm (by simp [pathFailure, Heap.holder?])
    obtain ⟨a, hwalk, -⟩ := pathFailure_eq_crash_iff.1 hfailure.symm
    exact ⟨rfl, walk, last, a, rfl, ⟨⟨h, hname, hwalk⟩, (Heap.write?_eq_none_iff hwalk).1 hwrite⟩,
      (pathFailure_eq_crash_iff_reaches hwalk).1 hfailure.symm⟩
  · rintro ⟨rfl, walk, last, a, rfl, ⟨⟨h, hname, hwalk⟩, hlast⟩, hreach⟩
    rw [writePath_eq_error hname ((Heap.write?_eq_none_iff hwalk).2 hlast),
      (pathFailure_eq_crash_iff_reaches hwalk).2 hreach]

/-- Otherwise a write that fails at its last index reports the indices. -/
theorem writePath_reports (hfails : s.FailsAtLast name walk last a)
    (hreach : ¬Relation.ReflTransGen s.heap.HasElement last (.array a)) :
    writePath name (walk ++ [last]) v s =
      some (.error (.indexNotFound name (s.heap.displayPath (walk ++ [last]))), s) := by
  obtain ⟨⟨h, hname, hwalk⟩, hlast⟩ := hfails
  have hcrash : pathFailure name h (walk ++ [last]) s ≠ .crash :=
    mt (pathFailure_eq_crash_iff_reaches hwalk).1 hreach
  rw [writePath_eq_error hname ((Heap.write?_eq_none_iff hwalk).2 hlast),
    (pathFailure_eq name h _ s).resolve_left hcrash]

/-- Once its operands are evaluated, an indexed assignment does nothing but to write. -/
theorem ends_assignIndex_iff (hframe : frame ≠ .function true)
    (hindices : Ends (fun n => evaluateAll (evaluate settings n) indices) s (.ok path) u)
    (hvalue : Ends (evaluate settings · value) u (.ok v) t) {r : Except RuntimeError Yield}
    {t' : Session} :
    Ends (execute settings · (.assignIndex name indices value) frame) s r t' ↔
      (do writePath name path v; return (none, frame) : Eval Yield) t = some (r, t') := by
  have hbehind (path : List Value) : Ascending fun n => evaluate settings n value >>= fun v =>
      (do writePath name path v; return (none, frame) : Eval Yield) :=
    (ascending_evaluate settings value).bind fun _ => ascending_const _
  rw [← ends_add_iff (ascending_execute settings _ frame) 1]
  simp only [execute, if_neg hframe]
  refine (ends_bind_iff_of_ok (ascending_evaluateAll settings indices) hbehind hindices).trans ?_
  have hwrites (v : Value) : Ascending fun _ =>
      (do writePath name path v; return (none, frame) : Eval Yield) := ascending_const _
  exact (ends_bind_iff_of_ok (ascending_evaluate settings value) hwrites hvalue).trans ends_const_iff

theorem ends_evaluateAll_name {x : String} (hx : resolve x s = some (.ok v, s)) :
    Ends (fun n => evaluateAll (evaluate settings n) [.name x]) s (.ok [v]) s :=
  ends_evaluateAll_cons ⟨1, hx⟩ ends_evaluateAll_nil

end Eval

open Eval

/-- **An indexed assignment crashes or reports.** Let its indices and its value be evaluated, in that
    order. The assignment crashes just in case its last index means no place of the array `a` in
    front of it, and `a` can be reached from this index. If the last index fails otherwise, all
    indices are reported as not found. In both cases nothing has changed, and no array can be
    reached from the indices in front of the last one. -/
theorem assignIndex_crashes_iff (settings : Settings) {s u t : Session} {frame : Frame}
    (hframe : frame ≠ .function true) (name : String) {indices : List Expr} {value : Expr}
    {path : List Value} {v : Value}
    (hindices : Ends (fun n => evaluateAll (evaluate settings n) indices) s (.ok path) u)
    (hvalue : Ends (evaluate settings · value) u (.ok v) t) :
    let assign := Ends (execute settings · (.assignIndex name indices value) frame) s
    (∀ t', assign (.error .crash) t' ↔
      t' = t ∧ ∃ walk last a, path = walk ++ [last] ∧ t.FailsAtLast name walk last a ∧
        Relation.ReflTransGen t.heap.HasElement last (.array a)) ∧
    ∀ walk last a, path = walk ++ [last] → t.FailsAtLast name walk last a →
      (∀ index ∈ walk, ∀ b, ¬Relation.ReflTransGen t.heap.HasElement index (.array b)) ∧
      (¬Relation.ReflTransGen t.heap.HasElement last (.array a) →
        assign (.error (.indexNotFound name (t.heap.displayPath path))) t) := by
  intro assign
  have hassign (e : RuntimeError) (t' : Session) :
      assign (.error e) t' ↔ writePath name path v t = some (.error e, t') := by
    refine (ends_assignIndex_iff hframe hindices hvalue).trans ?_
    rw [bind_eq_some_iff]
    simp [pure_eq_some_iff]
  refine ⟨fun t' => (hassign .crash t').trans writePath_crashes_iff, ?_⟩
  rintro walk last a rfl hfails
  refine ⟨fun index hindex b => ?_, fun hreach => (hassign _ t).2 (writePath_reports hfails hreach)⟩
  obtain ⟨⟨h, -, hwalk⟩, -⟩ := hfails
  exact Heap.not_reaches_of_follow? hwalk hindex b

/-- The session behind `a = [1]; b = [a];`. -/
def sessionWithHolder : Session where
  heap := ⟨#[#[.int 1], #[.array ⟨0⟩]]⟩
  locals := (({} : Bindings Value).insert "a" (.array ⟨0⟩)).insert "b" (.array ⟨1⟩)

theorem sessionWithHolder_reaches :
    Relation.ReflTransGen sessionWithHolder.heap.HasElement (.array ⟨1⟩) (.array ⟨0⟩) :=
  .single ⟨⟨1⟩, rfl, by simp [sessionWithHolder, Heap.elements]⟩

/-- There, `b[a] = 2;` is reported, as `b` cannot be reached from `a`, and `a[b] = 2;` crashes. -/
theorem assignIndex_crashes_iff_holder :
    Ends (execute {} · (.assignIndex "b" [.name "a"] (.int 2)) .program) sessionWithHolder
      (.error (.indexNotFound "b" "[[1]]")) sessionWithHolder ∧
    Ends (execute {} · (.assignIndex "a" [.name "b"] (.int 2)) .program) sessionWithHolder
      (.error .crash) sessionWithHolder := by
  have hframe : Frame.program ≠ .function true := by decide
  have ha : resolve "a" sessionWithHolder = some (.ok (.array ⟨0⟩), sessionWithHolder) := rfl
  have hb : resolve "b" sessionWithHolder = some (.ok (.array ⟨1⟩), sessionWithHolder) := rfl
  obtain ⟨-, hreports⟩ :=
    assignIndex_crashes_iff {} hframe "b" (ends_evaluateAll_name ha) (ends_int 2)
  obtain ⟨hcrashes, -⟩ :=
    assignIndex_crashes_iff {} hframe "a" (ends_evaluateAll_name hb) (ends_int 2)
  constructor
  · have hopens : sessionWithHolder.heap.opens ⟨1⟩ (.array ⟨0⟩) = false := by decide +kernel
    have htext : sessionWithHolder.heap.displayPath [.array ⟨0⟩] = "[[1]]" := by decide +kernel
    rw [← htext]
    refine (hreports [] (.array ⟨0⟩) ⟨1⟩ rfl ⟨⟨⟨1⟩, rfl, rfl⟩, rfl⟩).2 fun hreach => ?_
    exact absurd (Heap.opens_iff_reaches.2 hreach) (by simp [hopens])
  · exact (hcrashes _).2 ⟨rfl, [], .array ⟨1⟩, ⟨0⟩, rfl, ⟨⟨⟨0⟩, rfl, rfl⟩, rfl⟩,
      sessionWithHolder_reaches⟩

/-- The assignment crashes behind what was printed. -/
example : (runSource {} 5 "a = [1]; b = [a]; print(b); a[b] = 2;").map
    (fun report => (report.result, report.output)) = some (.error (.failed .crash), "[[1]]\n") := by
  decide +kernel

/-- `a = [1]; b = [a]; a[b] = 2;`. -/
def assignsAtHolder : Block :=
  [.assign "a" (.array [.int 1]), .assign "b" (.array [.name "a"]),
    .assignIndex "a" [.name "b"] (.int 2)]

/-- An index from which the array in front of it can be reached need not be this array. -/
theorem not_forall_last_index_spares_target :
    ¬∀ (settings : Settings) (program : Block) (name : String) (indices : List Expr) (value : Expr)
        (frame : Frame) (s u t : Session) (walk : List Value) (last v : Value) (a : Handle),
      ComesTo settings program {} ⟨.statement (.assignIndex name indices value) frame, s⟩ →
      Ends (fun n => evaluateAll (evaluate settings n) indices) s (.ok (walk ++ [last])) u →
      Ends (evaluate settings · value) u (.ok v) t →
      t.FailsAtLast name walk last a → last ≠ .array a →
      ∀ index ∈ walk ++ [last], ¬Relation.ReflTransGen t.heap.HasElement index (.array a) := by
  intro hall
  have hcomes : ComesTo {} assignsAtHolder {}
      ⟨.statement (.assignIndex "a" [.name "b"] (.int 2)) .program, sessionWithHolder⟩ :=
    ⟨3, _, _, sessionWithHolder, .tail rfl (.tail rfl (.head _ _ _ _)), .refl⟩
  have hfails : sessionWithHolder.FailsAtLast "a" [] (.array ⟨1⟩) ⟨0⟩ := ⟨⟨⟨0⟩, rfl, rfl⟩, rfl⟩
  exact hall _ _ _ _ _ _ _ _ _ [] _ _ _ hcomes (ends_evaluateAll_name rfl) (ends_int 2) hfails
    (by decide) _ (List.mem_singleton_self _) sessionWithHolder_reaches

end Scriptlet
