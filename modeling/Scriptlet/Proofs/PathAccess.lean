import Scriptlet.Proofs.Keeps
import Scriptlet.Proofs.Opening
import Scriptlet.Proofs.ValueKinds

set_option autoImplicit false

/-! # Reading and writing through paths

A path is written to where reading through it can be done with arrays alone, and at the very slot
that is read (`write_agrees_with_read`). A write takes the first steps of the path as a read does
(`Heap.write?_eq_some_iff`), and all values that lead to an array are arrays, as texts hold nothing
but texts (`Heap.exists_array_of_follow?`).

Arrays are shared, so the slot may be on the way to itself. A write that keeps off the slots on the
way is seen by a later read (`Heap.Overwrites.follow?_concat`); if the slot is among them, then its
array is reached from itself (`Heap.Traverses.selfContaining`). -/

namespace Scriptlet

/-- A place is in range, and counted from the end if the position is negative. -/
theorem placeOf?_eq_some_iff {position : Int64} {length place : Nat} :
    placeOf? position length = some place ↔
      (place : Int) =
        (if position.toInt < 0 then position.toInt + length else position.toInt) ∧
      place < length := by
  unfold placeOf?
  generalize (if position.toInt < 0 then position.toInt + length else position.toInt) = p
  by_cases range : 0 ≤ p ∧ p < length
  · simp only [range, and_self, if_true, Option.some.injEq]
    omega
  · simp only [range, if_false, reduceCtorEq, false_iff]
    omega

namespace Heap

variable {heap heap' : Heap} {a : Handle} {place : Nat} {v : Value}

theorem slot?_eq_some_iff {index : Value} :
    heap.slot? a index = some place ↔
      ∃ position, index.integer? = some position ∧
        (place : Int) = (if position.toInt < 0 then position.toInt + (heap.elements a).size
          else position.toInt) ∧
        place < (heap.elements a).size := by
  simp only [slot?, Option.bind_eq_some_iff, placeOf?_eq_some_iff]

/-! ## Steps and paths -/

theorem at?_array_eq_some_iff {index w : Value} :
    heap.at? (.array a) index = some w ↔
      ∃ place, heap.slot? a index = some place ∧ (heap.elements a)[place]? = some w := by
  simp only [at?, Option.bind_eq_some_iff]

theorem hasElement_of_at? {index w : Value} (h : heap.at? (.array a) index = some w) :
    heap.HasElement (.array a) w := by
  obtain ⟨place, -, helement⟩ := at?_array_eq_some_iff.1 h
  exact ⟨a, rfl, Array.mem_toList_iff.2 (Array.mem_of_getElem? helement)⟩

/-- Only an array has an array among its elements. -/
theorem exists_array_of_at? {container index : Value}
    (h : heap.at? container index = some (.array a)) : ∃ b, container = .array b := by
  cases container with
  | array b => exact ⟨b, rfl⟩
  | text s =>
    obtain ⟨position, -, h⟩ := Option.bind_eq_some_iff.1 h
    obtain ⟨place, -, h⟩ := Option.bind_eq_some_iff.1 h
    obtain ⟨c, -, h⟩ := Option.map_eq_some_iff.1 h
    exact absurd h (by simp)
  | int | float | bool => simp [at?] at h

theorem follow?_append (start : Value) (front back : List Value) :
    heap.follow? start (front ++ back) =
      (heap.follow? start front).bind (heap.follow? · back) := by
  induction front generalizing start with
  | nil => rfl
  | cons index front ih =>
    simp only [List.cons_append, follow?, Option.bind_assoc]
    exact congrArg _ (funext fun inner => ih inner)

theorem follow?_concat (start : Value) (walk : List Value) (last : Value) :
    heap.follow? start (walk ++ [last]) = (heap.follow? start walk).bind (heap.at? · last) := by
  simp [follow?_append, follow?]

/-- A path to a slot of an array reads the slot. -/
theorem follow?_concat_of_slot {start last : Value} {walk : List Value}
    (hwalk : heap.follow? start walk = some (.array a))
    (hslot : heap.slot? a last = some place) :
    heap.follow? start (walk ++ [last]) = (heap.elements a)[place]? := by
  rw [follow?_concat, hwalk, Option.bind_some, at?, hslot, Option.bind_some]

/-- What leads to an array is an array. -/
theorem exists_array_of_follow? {start : Value} {path : List Value}
    (h : heap.follow? start path = some (.array a)) : ∃ b, start = .array b := by
  induction path generalizing start with
  | nil =>
    simp only [follow?, Option.some.injEq] at h
    exact ⟨a, h⟩
  | cons index path ih =>
    obtain ⟨inner, hinner, hrest⟩ := Option.bind_eq_some_iff.1 h
    obtain ⟨b, rfl⟩ := ih hrest
    exact exists_array_of_at? hinner

/-- A path to an array leads through elements of elements. -/
theorem reaches_of_follow? {start : Value} {path : List Value}
    (h : heap.follow? start path = some (.array a)) :
    Relation.ReflTransGen heap.HasElement start (.array a) := by
  induction path generalizing start with
  | nil =>
    simp only [follow?, Option.some.injEq] at h
    exact h ▸ .refl
  | cons index path ih =>
    obtain ⟨b, rfl⟩ := exists_array_of_follow? h
    obtain ⟨inner, hinner, hrest⟩ := Option.bind_eq_some_iff.1 h
    exact (ih hrest).head (hasElement_of_at? hinner)

/-- A write goes to a slot of the array that all indices but the last one lead to. -/
theorem write?_eq_some_iff {h : Handle} {walk : List Value} {last : Value} :
    heap.write? h v (walk ++ [last]) = some heap' ↔
      ∃ a place, heap.follow? (.array h) walk = some (.array a) ∧
        heap.slot? a last = some place ∧ heap' = heap.modify a (·.setIfInBounds place v) := by
  induction walk generalizing h with
  | nil =>
    simp only [List.nil_append, write?, Option.map_eq_some_iff, follow?, Option.some.injEq,
      Value.array.injEq]
    constructor
    · rintro ⟨place, hplace, rfl⟩
      exact ⟨h, place, rfl, hplace, rfl⟩
    · rintro ⟨_, place, rfl, hplace, rfl⟩
      exact ⟨place, hplace, rfl⟩
  | cons index walk ih =>
    rw [List.cons_append, write?, follow?]
    swap
    · simp
    split
    · next inner hinner => rw [hinner, Option.bind_some, ih]
    · next hother =>
      simp only [reduceCtorEq, false_iff, not_exists, not_and]
      intro a place hwalk
      obtain ⟨inner, hinner, hrest⟩ := Option.bind_eq_some_iff.1 hwalk
      obtain ⟨b, rfl⟩ := exists_array_of_follow? hrest
      exact absurd hinner (hother b)

/-- The array of the last index is the one that all others lead to. -/
theorem holder?_eq_some_iff {h : Handle} {walk : List Value} {last : Value} :
    heap.holder? h (walk ++ [last]) = some a ↔ heap.follow? (.array h) walk = some (.array a) := by
  induction walk generalizing h with
  | nil => simp [holder?, follow?]
  | cons index walk ih =>
    rw [List.cons_append, holder?, follow?]
    swap
    · simp
    split
    · next inner hinner => rw [hinner, Option.bind_some, ih]
    · next hother =>
      simp only [reduceCtorEq, false_iff]
      intro hwalk
      obtain ⟨inner, hinner, hrest⟩ := Option.bind_eq_some_iff.1 hwalk
      obtain ⟨b, rfl⟩ := exists_array_of_follow? hrest
      exact hother b hinner

/-- A path can be written to if it can be read, with nothing but arrays on the way. -/
theorem exists_write?_iff {h : Handle} {walk : List Value} {last : Value} :
    (∃ heap', heap.write? h v (walk ++ [last]) = some heap') ↔
      (∃ w, heap.follow? (.array h) (walk ++ [last]) = some w) ∧
        ∀ front index back, walk ++ [last] = front ++ index :: back →
          ∃ b, heap.follow? (.array h) front = some (.array b) := by
  simp only [write?_eq_some_iff]
  constructor
  · rintro ⟨_, a, place, hwalk, hslot, -⟩
    obtain ⟨-, -, -, lt⟩ := slot?_eq_some_iff.1 hslot
    refine ⟨⟨(heap.elements a)[place], ?_⟩, fun front index back hpath => ?_⟩
    · rw [follow?_concat_of_slot hwalk hslot, Array.getElem?_eq_getElem lt]
    · -- whatever is in front of an index leads on to the array written to
      have hfront : front <+: walk := by
        rcases List.prefix_concat_iff.1 ⟨index :: back, hpath.symm⟩ with rfl | hprefix
        · exact absurd (congrArg List.length hpath) (by simp)
        · exact hprefix
      obtain ⟨rest, rfl⟩ := hfront
      obtain ⟨inner, hinner, hrest⟩ := Option.bind_eq_some_iff.1 (follow?_append .. ▸ hwalk)
      obtain ⟨b, rfl⟩ := exists_array_of_follow? hrest
      exact ⟨b, hinner⟩
  · rintro ⟨⟨w, hw⟩, harrays⟩
    obtain ⟨a, hwalk⟩ := harrays walk last [] rfl
    rw [follow?_concat, hwalk, Option.bind_some, at?_array_eq_some_iff] at hw
    obtain ⟨place, hslot, -⟩ := hw
    exact ⟨_, a, place, hwalk, hslot, rfl⟩

/-! ## Overwriting a slot -/

/-- The second heap is the first one with another value in one slot. -/
structure Overwrites (heap heap' : Heap) (a : Handle) (place : Nat) (v : Value) : Prop where
  written : (heap'.elements a)[place]? = some v
  others : ∀ b i, (b, i) ≠ (a, place) → (heap'.elements b)[i]? = (heap.elements b)[i]?
  sizes : ∀ b, (heap'.elements b).size = (heap.elements b).size
  cells : heap'.cells.size = heap.cells.size

theorem overwrites_modify (lt : place < (heap.elements a).size) (v : Value) :
    heap.Overwrites (heap.modify a (·.setIfInBounds place v)) a place v := by
  have hmade : a.index < heap.cells.size := by
    by_contra le
    rw [elements_of_le (Nat.le_of_not_lt le)] at lt
    exact absurd lt (Nat.not_lt_zero _)
  have hself := elements_modify_self heap (·.setIfInBounds place v) hmade
  refine ⟨by simp [hself, lt], fun b i hother => ?_, fun b => ?_, by simp [modify]⟩
  · by_cases hsame : a = b
    · subst hsame
      have hne : place ≠ i := fun heq => hother (by rw [heq])
      rw [hself, Array.getElem?_setIfInBounds_ne hne]
    · rw [elements_modify_of_ne heap _ hsame]
  · by_cases hsame : a = b
    · subst hsame
      rw [hself, Array.size_setIfInBounds]
    · rw [elements_modify_of_ne heap _ hsame]

/-- Reading through the path reads the slot on its way. -/
def Traverses (heap : Heap) (start : Value) (path : List Value) (a : Handle) (place : Nat) :
    Prop :=
  ∃ front index back, path = front ++ index :: back ∧
    heap.follow? start front = some (.array a) ∧ heap.slot? a index = some place

namespace Traverses

variable {start : Value} {path : List Value}

theorem cons {index inner : Value} (hinner : heap.at? start index = some inner)
    (h : heap.Traverses inner path a place) : heap.Traverses start (index :: path) a place := by
  obtain ⟨front, next, back, rfl, hfront, hslot⟩ := h
  refine ⟨index :: front, next, back, rfl, ?_, hslot⟩
  rw [follow?, hinner, Option.bind_some, hfront]

/-- A slot on the way to its own array is in an array that contains itself. -/
theorem selfContaining (h : heap.Traverses start path a place)
    (hpath : heap.follow? start path = some (.array a)) : heap.SelfContaining (.array a) := by
  obtain ⟨front, index, back, rfl, hfront, -⟩ := h
  rw [follow?_append, hfront, Option.bind_some] at hpath
  obtain ⟨inner, hinner, hback⟩ := Option.bind_eq_some_iff.1 hpath
  exact .head' (hasElement_of_at? hinner) (reaches_of_follow? hback)

end Traverses

namespace Overwrites

variable (h : heap.Overwrites heap' a place v)

include h

theorem slot? (b : Handle) (index : Value) : heap'.slot? b index = heap.slot? b index := by
  rw [Heap.slot?, h.sizes, Heap.slot?]

/-- A step that does not read the slot leads where it led. -/
theorem at? {container index : Value}
    (hoff : ∀ b, container = .array b → heap.slot? b index = some place → b ≠ a) :
    heap'.at? container index = heap.at? container index := by
  cases container with
  | array b =>
    simp only [Heap.at?, h.slot?]
    cases hslot : heap.slot? b index with
    | none => rfl
    | some i =>
      refine h.others b i fun hsame => ?_
      obtain ⟨rfl, rfl⟩ := Prod.mk.injEq .. ▸ hsame
      exact hoff b rfl hslot rfl
  | int | float | bool | text => rfl

/-- A path that does not read the slot leads where it led. -/
theorem follow? {start : Value} {path : List Value}
    (hoff : ¬heap.Traverses start path a place) :
    heap'.follow? start path = heap.follow? start path := by
  induction path generalizing start with
  | nil => rfl
  | cons index path ih =>
    have hstep : heap'.at? start index = heap.at? start index := by
      refine h.at? fun b hstart hslot hsame => hoff ⟨[], index, path, rfl, ?_, hsame ▸ hslot⟩
      rw [hstart, hsame, Heap.follow?]
    rw [Heap.follow?, hstep, Heap.follow?]
    cases hinner : heap.at? start index with
    | none => rfl
    | some inner => exact ih fun hinside => hoff (.cons hinner hinside)

/-- What was written is read through a path to the slot that does not read it before. -/
theorem follow?_concat {start last : Value} {walk : List Value}
    (hwalk : heap.follow? start walk = some (.array a)) (hslot : heap.slot? a last = some place)
    (hoff : ¬heap.Traverses start walk a place) :
    heap'.follow? start (walk ++ [last]) = some v := by
  have hwalk' : heap'.follow? start walk = some (.array a) := (h.follow? hoff).trans hwalk
  rw [follow?_concat_of_slot hwalk' ((h.slot? a last).trans hslot), h.written]

end Overwrites

end Heap

/-! ## Variables -/

namespace Eval

variable {name : String} {path : List Value} {v w : Value} {s t : Session}

theorem readPath_eq_ok_iff :
    readPath name path s = some (.ok w, t) ↔
      (∃ start, s.lookup? name = some start ∧ s.heap.follow? start path = some w) ∧ t = s := by
  simp only [readPath, bind_eq_ok_iff, find_eq_ok_iff]
  constructor
  · rintro ⟨start, _, ⟨hstart, rfl⟩, hw, rfl⟩
    exact ⟨⟨start, hstart, hw⟩, rfl⟩
  · rintro ⟨⟨start, hstart, hw⟩, rfl⟩
    exact ⟨start, t, ⟨hstart, rfl⟩, hw, rfl⟩

theorem arrayNamed_eq_ok_iff {h : Handle} :
    arrayNamed name s = some (.ok h, t) ↔ s.lookup? name = some (.array h) ∧ t = s := by
  simp only [arrayNamed, bind_eq_ok_iff, find_eq_ok_iff]
  constructor
  · rintro ⟨start, _, ⟨hstart, rfl⟩, hend⟩
    cases start with
    | array a =>
      obtain ⟨hsame, rfl⟩ := pure_eq_some_iff.1 hend
      simp only [Except.ok.injEq] at hsame
      exact ⟨hsame ▸ hstart, rfl⟩
    | int | float | bool | text => simp [fail] at hend
  · rintro ⟨hstart, rfl⟩
    exact ⟨.array h, t, ⟨hstart, rfl⟩, rfl⟩

theorem writePath_eq_ok_iff :
    writePath name path v s = some (.ok (), t) ↔
      ∃ h heap, s.lookup? name = some (.array h) ∧ s.heap.write? h v path = some heap ∧
        t = { s with heap } := by
  simp only [writePath, bind_eq_ok_iff, find_eq_ok_iff, arrayNamed_eq_ok_iff]
  constructor
  · rintro ⟨h, _, ⟨hstart, rfl⟩, heap, _, ⟨hheap, rfl⟩, hend⟩
    simp only [update, Option.some.injEq, Prod.mk.injEq, true_and] at hend
    exact ⟨h, heap, hstart, hheap, hend.symm⟩
  · rintro ⟨h, heap, hstart, hheap, rfl⟩
    exact ⟨h, s, ⟨hstart, rfl⟩, heap, s, ⟨hheap, rfl⟩, rfl⟩

/-- A path can be written to if the name stands for an array and the path can be read, with nothing
    but arrays on the way. -/
theorem exists_writePath_iff {walk : List Value} {last : Value} :
    (∃ t, writePath name (walk ++ [last]) v s = some (.ok (), t)) ↔
      (∃ h, s.lookup? name = some (.array h)) ∧
      (∃ w, readPath name (walk ++ [last]) s = some (.ok w, s)) ∧
      ∀ front index back, walk ++ [last] = front ++ index :: back →
        ∃ a, readPath name front s = some (.ok (.array a), s) := by
  simp only [writePath_eq_ok_iff, readPath_eq_ok_iff, and_true]
  constructor
  · rintro ⟨_, h, heap, hstart, hheap, -⟩
    obtain ⟨⟨w, hw⟩, harrays⟩ := Heap.exists_write?_iff.1 ⟨heap, hheap⟩
    refine ⟨⟨h, hstart⟩, ⟨w, .array h, hstart, hw⟩, fun front index back hpath => ?_⟩
    obtain ⟨b, hfront⟩ := harrays front index back hpath
    exact ⟨b, .array h, hstart, hfront⟩
  · rintro ⟨⟨h, hstart⟩, ⟨w, _, hsame, hw⟩, harrays⟩
    obtain rfl := Option.some.inj (hstart.symm.trans hsame)
    obtain ⟨heap, hheap⟩ : ∃ heap, s.heap.write? h v (walk ++ [last]) = some heap := by
      refine Heap.exists_write?_iff.2 ⟨⟨w, hw⟩, fun front index back hpath => ?_⟩
      obtain ⟨b, _, hsame, hfront⟩ := harrays front index back hpath
      obtain rfl := Option.some.inj (hstart.symm.trans hsame)
      exact ⟨b, hfront⟩
    exact ⟨_, h, heap, hstart, hheap, rfl⟩

/-- What is wrong with a path is a crash if the array of the last index can be reached from an
    index, and otherwise that it leads nowhere. -/
theorem pathFailure_eq_crash_iff {h : Handle} {walk : List Value} {last : Value} :
    pathFailure name h (walk ++ [last]) s = .crash ↔
      ∃ a, s.heap.follow? (.array h) walk = some (.array a) ∧
        ∃ index ∈ walk ++ [last], Relation.ReflTransGen s.heap.HasElement index (.array a) := by
  have hholder (a : Handle) : s.heap.follow? (.array h) walk = some (.array a) ↔
      s.heap.holder? h (walk ++ [last]) = some a := Heap.holder?_eq_some_iff.symm
  simp only [hholder, ← Heap.opens_iff_reaches]
  unfold pathFailure
  split
  · next hopens => simpa [Option.any_eq_true] using hopens
  · next hopens => simpa [Option.any_eq_true] using hopens

theorem writePath_eq_error {h : Handle} (hname : s.lookup? name = some (.array h))
    (hwrite : s.heap.write? h v path = none) :
    writePath name path v s = some (.error (pathFailure name h path s), s) := by
  have hnamed : arrayNamed name s = some (.ok h, s) := arrayNamed_eq_ok_iff.2 ⟨hname, rfl⟩
  exact bind_eq_some_iff.2 (.inr ⟨h, s, hnamed, by simp [find, Bind.bind, Eval.bind, hwrite]⟩)

/-- A write ends. If it fails, then because of the first of three things that is missing, and
    nothing has changed. -/
theorem writePath_ends (name : String) (path : List Value) (v : Value) (s : Session) :
    (∃ t, writePath name path v s = some (.ok (), t)) ∨
      ∃ e, writePath name path v s = some (.error e, s) ∧
        (s.lookup? name = none ∧ e = .variableNotFound name ∨
          (∃ w, s.lookup? name = some w ∧ ∀ h, w ≠ .array h) ∧ e = .notAnArray name ∨
          ∃ h, s.lookup? name = some (.array h) ∧ s.heap.write? h v path = none ∧
            e = pathFailure name h path s) := by
  cases hstart : s.lookup? name with
  | none =>
    refine .inr ⟨.variableNotFound name, ?_, .inl ⟨rfl, rfl⟩⟩
    simp [writePath, arrayNamed, find, Bind.bind, Eval.bind, hstart]
  | some start =>
    cases start with
    | array h =>
      cases hheap : s.heap.write? h v path with
      | some heap => exact .inl ⟨_, writePath_eq_ok_iff.2 ⟨h, heap, hstart, hheap, rfl⟩⟩
      | none =>
        exact .inr ⟨_, writePath_eq_error hstart hheap, .inr (.inr ⟨h, rfl, hheap, rfl⟩)⟩
    | int | float | bool | text =>
      refine .inr ⟨.notAnArray name, ?_, .inr (.inl ⟨⟨_, rfl, by simp⟩, rfl⟩)⟩
      simp [writePath, arrayNamed, find, fail, Bind.bind, Eval.bind, hstart]

end Eval

open Eval in
/-- **Reading and writing agree.** Writing to a variable through a path ends. It succeeds just in
    case the variable is an array and the path can be read, with arrays at all indices of the path.
    Then the slot that the last index means in the array in front of it, which is the one read, has
    the new value, and nothing else is different. Reading the path again gives the new value, unless
    the slot is read on the way; this takes an array that contains itself. A write that fails says
    why, and changes nothing; only where the array to be written to can be reached from an index, it
    may crash instead. -/
theorem write_agrees_with_read (s : Session) (name : String) (walk : List Value)
    (last v : Value) :
    (∃ r t, writePath name (walk ++ [last]) v s = some (r, t)) ∧
    ((∃ t, writePath name (walk ++ [last]) v s = some (.ok (), t)) ↔
      (∃ h, s.lookup? name = some (.array h)) ∧
      (∃ w, readPath name (walk ++ [last]) s = some (.ok w, s)) ∧
      ∀ front index back, walk ++ [last] = front ++ index :: back →
        ∃ a, readPath name front s = some (.ok (.array a), s)) ∧
    (∀ t, writePath name (walk ++ [last]) v s = some (.ok (), t) →
      ∃ (start : Value) (a : Handle) (position : Int64) (place : Nat) (w : Value),
        s.lookup? name = some start ∧ readPath name walk s = some (.ok (.array a), s) ∧
        last.integer? = some position ∧
        (place : Int) = (if position.toInt < 0 then position.toInt + (s.heap.elements a).size
          else position.toInt) ∧
        readPath name (walk ++ [last]) s = some (.ok w, s) ∧
        (s.heap.elements a)[place]? = some w ∧
        t = { s with heap := t.heap } ∧ s.heap.Overwrites t.heap a place v ∧
        (¬s.heap.Traverses start walk a place →
          readPath name (walk ++ [last]) t = some (.ok v, t)) ∧
        (s.heap.Traverses start walk a place → s.heap.SelfContaining (.array a))) ∧
    ∀ e t, writePath name (walk ++ [last]) v s = some (.error e, t) →
      t = s ∧
      (s.lookup? name = none ∧ e = .variableNotFound name ∨
        (∃ w, s.lookup? name = some w ∧ ∀ h, w ≠ .array h) ∧ e = .notAnArray name ∨
        (∃ h, s.lookup? name = some (.array h)) ∧
          e = .indexNotFound name (s.heap.displayPath (walk ++ [last])) ∨
        (∃ a, readPath name walk s = some (.ok (.array a), s) ∧
          ∃ index ∈ walk ++ [last], Relation.ReflTransGen s.heap.HasElement index (.array a)) ∧
          e = .crash) := by
  refine ⟨?_, exists_writePath_iff, fun t hwrite => ?_, fun e t hfail => ?_⟩
  · rcases writePath_ends name (walk ++ [last]) v s with ⟨t, ht⟩ | ⟨e, he, -⟩
    · exact ⟨_, t, ht⟩
    · exact ⟨_, s, he⟩
  · obtain ⟨h, heap, hstart, hheap, rfl⟩ := writePath_eq_ok_iff.1 hwrite
    obtain ⟨a, place, hwalk, hslot, rfl⟩ := Heap.write?_eq_some_iff.1 hheap
    obtain ⟨position, hposition, hplace, lt⟩ := Heap.slot?_eq_some_iff.1 hslot
    have hread : s.heap.follow? (.array h) (walk ++ [last]) =
        some (s.heap.elements a)[place] := by
      rw [Heap.follow?_concat_of_slot hwalk hslot, Array.getElem?_eq_getElem lt]
    have hover := Heap.overwrites_modify lt v
    refine ⟨.array h, a, position, place, (s.heap.elements a)[place], hstart,
      readPath_eq_ok_iff.2 ⟨⟨_, hstart, hwalk⟩, rfl⟩, hposition, hplace,
      readPath_eq_ok_iff.2 ⟨⟨_, hstart, hread⟩, rfl⟩, Array.getElem?_eq_getElem lt, rfl, hover,
      fun hoff => ?_, fun hon => hon.selfContaining hwalk⟩
    exact readPath_eq_ok_iff.2 ⟨⟨_, hstart, hover.follow?_concat hwalk hslot hoff⟩, rfl⟩
  · rcases writePath_ends name (walk ++ [last]) v s with ⟨t', ht⟩ | ⟨e', he, hreason⟩
    · simp [ht] at hfail
    · rw [he] at hfail
      simp only [Option.some.injEq, Prod.mk.injEq, Except.error.injEq] at hfail
      obtain ⟨rfl, rfl⟩ := hfail
      refine ⟨rfl, ?_⟩
      rcases hreason with hnone | hother | ⟨h, hstart, -, rfl⟩
      · exact .inl hnone
      · exact .inr (.inl hother)
      · rcases pathFailure_eq name h (walk ++ [last]) s with hcrash | hindex
        · obtain ⟨a, hwalk, hreach⟩ := pathFailure_eq_crash_iff.1 hcrash
          exact .inr (.inr (.inr
            ⟨⟨a, readPath_eq_ok_iff.2 ⟨⟨_, hstart, hwalk⟩, rfl⟩, hreach⟩, hcrash⟩))
        · exact .inr (.inr (.inl ⟨⟨h, hstart⟩, hindex⟩))

open Eval in
/-- Where `a` is `[a]`, writing `a[0][0] = 1` takes away the array that the path leads through. -/
example :
    ((do writePath "a" [.int 0, .int 0] (.int 1); readPath "a" [.int 0, .int 0] : Eval Value)
        { heap := ⟨#[#[.array ⟨0⟩]]⟩
          locals := ({} : Bindings Value).insert "a" (.array ⟨0⟩) }).map (·.1.toOption) =
      some none := by
  cbv

end Scriptlet
