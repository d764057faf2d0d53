import Scriptlet.Bindings
import Scriptlet.Value.Operators
import Scriptlet.Value.Path

set_option autoImplicit false

/-! # Kinds of values

Which kinds of values operators and heaps can give. A float comes from a division or from another
float (`Number.exists_of_apply_eq_float`), and a truth value from a comparison or from another truth
value; everything else an operator gives is a whole number, a text or an array, or one of its
operands.

`Confined` puts this as an invariant: a value is confined if it is not of the kind and, should it be
an array, is one of a given set of arrays, and a heap is confined if the elements of all those
arrays are. The set is fixed throughout, so that it must also have every array in it that is yet to
be made. Whatever is made from confined values by an operator which does not make the kind is
confined (`Heap.Confined.apply`). -/

namespace Scriptlet

/-- The operator makes values of the kind from operands of other kinds. -/
def BinaryOp.makes : Kind → BinaryOp → Bool
  | .float, arithmetic .divide => true
  | .bool, equal | .bool, notEqual | .bool, order _ => true
  | _, _ => false

/-! ## Arithmetic -/

theorem Number.exists_of_combine_eq_float {op : Arithmetic} {whole : Int → Int → Int}
    {real : Float → Float → Float} {a b : Number} {x : Float}
    (h : combine op whole real a b = .ok (.float x)) :
    (∃ y, a = .float y) ∨ ∃ y, b = .float y := by
  cases a with
  | float y => exact .inl ⟨y, rfl⟩
  | int m =>
    cases b with
    | float y => exact .inr ⟨y, rfl⟩
    | int n =>
      unfold combine at h
      dsimp only at h
      split at h <;> simp at h

/-- Where a float comes from. -/
theorem Number.exists_of_apply_eq_float {op : Arithmetic} {a b : Number} {x : Float}
    (h : Number.apply op a b = .ok (.float x)) :
    op = .divide ∨ (∃ y, a = .float y) ∨ ∃ y, b = .float y := by
  cases op with
  | divide => exact .inl rfl
  | add | subtract | multiply => exact .inr (exists_of_combine_eq_float h)

theorem Value.kind_eq_float {v : Value} {x : Float} (h : v.number? = some (.float x)) :
    v.kind = .float := by
  cases v <;> simp_all [number?, kind]

/-- What arithmetic on numbers gives is a whole number, or it is a float with a division or another
    float behind it. -/
theorem Value.kind_arithmetic {op : Arithmetic} {left right v : Value}
    (h : left.arithmetic op right = .ok v) :
    v.kind = .int ∨
      v.kind = .float ∧ (op = .divide ∨ left.kind = .float ∨ right.kind = .float) := by
  unfold arithmetic at h
  split at h
  · next a b ha hb =>
    cases hresult : Number.apply op a b with
    | error e => exact absurd h (by simp [hresult, Except.map])
    | ok n =>
      obtain rfl : n.toValue = v := by simpa [hresult, Except.map] using h
      cases n with
      | int n => exact .inl rfl
      | float x =>
        refine .inr ⟨rfl, ?_⟩
        rcases Number.exists_of_apply_eq_float hresult with hdivide | ⟨y, rfl⟩ | ⟨y, rfl⟩
        · exact .inl hdivide
        · exact .inr (.inl (kind_eq_float ha))
        · exact .inr (.inr (kind_eq_float hb))
  · simp at h

/-! ## Repetition -/

theorem Value.repetition?_eq_array {left right : Value} {h : Handle} {count : Int64}
    (hrepeat : repetition? left right = some (.array h, count)) :
    left = .array h ∨ right = .array h := by
  unfold repetition? at hrepeat
  split at hrepeat <;> simp_all

theorem mem_of_mem_repeatElements {copies : Nat} {elements : Array Value} {v : Value}
    (h : v ∈ repeatElements copies elements) : v ∈ elements := by
  induction copies with
  | zero => simp [repeatElements, Nat.repeat] at h
  | succ copies ih =>
    simp only [repeatElements, Nat.repeat, Array.mem_append] at h
    exact h.elim ih id

/-! ## Heaps -/

namespace Heap

theorem elements_of_le {heap : Heap} {h : Handle} (le : heap.cells.size ≤ h.index) :
    heap.elements h = #[] := by
  simp [elements, Array.getD, Nat.not_lt_of_le le]

theorem elements_alloc_of_ne (heap : Heap) (elements : Array Value) {h : Handle}
    (ne : h ≠ (heap.alloc elements).1) :
    (heap.alloc elements).2.elements h = heap.elements h := by
  have hindex : h.index ≠ heap.cells.size := fun same => ne (by cases h; simp_all [alloc])
  rcases Nat.lt_or_gt_of_ne hindex with lt | gt
  · exact elements_alloc_of_lt heap elements lt
  · rw [elements_of_le (Nat.le_of_lt gt), elements_of_le]
    simp only [alloc, Array.size_push]
    exact gt

/-- Changing an array that was never made changes nothing. -/
theorem modify_of_le {heap : Heap} {h : Handle} (le : heap.cells.size ≤ h.index)
    (f : Array Value → Array Value) : heap.modify h f = heap := by
  simp [modify, Array.modify, Array.modifyM, Nat.not_lt_of_le le]

end Heap

/-! ## Confined values -/

/-- The value is not of the kind, and if it is an array then it is one of the given ones. -/
structure Value.Confined (k : Kind) (arrays : Handle → Prop) (v : Value) : Prop where
  kind : v.kind ≠ k
  handle : ∀ h, v = .array h → arrays h

/-- All elements of the given arrays are confined, and whatever array is made will be among them. -/
structure Heap.Confined (k : Kind) (arrays : Handle → Prop) (heap : Heap) : Prop where
  elements : ∀ h, arrays h → ∀ v ∈ heap.elements h, v.Confined k arrays
  unmade : ∀ h, heap.cells.size ≤ h.index → arrays h

/-- All values that names are bound to are confined. -/
def Bindings.Confined (k : Kind) (arrays : Handle → Prop) (b : Bindings Value) : Prop :=
  ∀ name v, b.get? name = some v → v.Confined k arrays

variable {k : Kind} {arrays : Handle → Prop}

namespace Bindings.Confined

variable {b : Bindings Value}

theorem insert (h : b.Confined k arrays) (name : String) {v : Value} (hv : v.Confined k arrays) :
    (b.insert name v).Confined k arrays := by
  intro other w hw
  by_cases hname : name = other
  · subst hname
    rw [get?_insert_self, Option.some.injEq] at hw
    exact hw ▸ hv
  · rw [get?_insert_of_ne _ _ hname] at hw
    exact h other w hw

theorem insertAll (h : b.Confined k arrays) (names : List String) {values : List Value}
    (hvalues : ∀ v ∈ values, v.Confined k arrays) :
    (b.insertAll (names.zip values)).Confined k arrays := by
  have hpairs : ∀ pair ∈ names.zip values, pair.2.Confined k arrays := by
    intro pair hpair
    exact hvalues pair.2 (List.of_mem_zip hpair).2
  generalize names.zip values = pairs at hpairs
  induction pairs generalizing b with
  | nil => exact h
  | cons pair pairs ih =>
    refine ih (h.insert pair.1 (hpairs pair (List.mem_cons_self ..))) fun pair' hmem => ?_
    exact hpairs pair' (List.mem_cons_of_mem _ hmem)

theorem empty : ({} : Bindings Value).Confined k arrays := by
  intro name v hv
  exact absurd hv (by simp)

end Bindings.Confined

/-! ### Changes of a heap -/

namespace Heap.Confined

variable {heap : Heap} (h : heap.Confined k arrays)

include h

theorem alloc {elements : Array Value} (helements : ∀ v ∈ elements, v.Confined k arrays) :
    (heap.alloc elements).2.Confined k arrays := by
  refine ⟨fun a ha v hv => ?_, fun a ha => h.unmade a ?_⟩
  · by_cases hnew : a = (heap.alloc elements).1
    · rw [hnew, elements_alloc_self] at hv
      exact helements v hv
    · rw [elements_alloc_of_ne heap elements hnew] at hv
      exact h.elements a ha v hv
  · simp only [Heap.alloc, Array.size_push] at ha
    exact Nat.le_of_succ_le ha

/-- The new array is among the given ones. -/
theorem handle_alloc (elements : Array Value) : arrays (heap.alloc elements).1 :=
  h.unmade _ (Nat.le_refl _)

theorem modify {a : Handle} (ha : arrays a) {f : Array Value → Array Value}
    (hf : ∀ v ∈ f (heap.elements a), v.Confined k arrays) :
    (heap.modify a f).Confined k arrays := by
  refine ⟨fun b hb v hv => ?_, fun b hb => h.unmade b (by simpa [Heap.modify] using hb)⟩
  by_cases hsame : a = b
  · subst hsame
    by_cases hmade : a.index < heap.cells.size
    · rw [elements_modify_self heap f hmade] at hv
      exact hf v hv
    · rw [modify_of_le (Nat.le_of_not_lt hmade)] at hv
      exact h.elements a ha v hv
  · rw [elements_modify_of_ne heap f hsame] at hv
    exact h.elements b hb v hv

theorem push {a : Handle} (ha : arrays a) {v : Value} (hv : v.Confined k arrays) :
    (heap.push a v).Confined k arrays := by
  refine h.modify ha fun w hw => ?_
  rcases Array.mem_push.1 hw with hold | rfl
  · exact h.elements a ha w hold
  · exact hv

theorem extend {a b : Handle} (ha : arrays a) (hb : arrays b) :
    (heap.modify a (· ++ heap.elements b)).Confined k arrays := by
  refine h.modify ha fun v hv => ?_
  rcases Array.mem_append.1 hv with hfirst | hsecond
  · exact h.elements a ha v hfirst
  · exact h.elements b hb v hsecond

theorem erase {a : Handle} (ha : arrays a) (place : Nat) :
    (heap.modify a (·.eraseIdxIfInBounds place)).Confined k arrays := by
  refine h.modify ha fun v hv => h.elements a ha v ?_
  unfold Array.eraseIdxIfInBounds at hv
  split at hv
  · exact Array.mem_of_mem_eraseIdx hv
  · exact hv

theorem set {a : Handle} (ha : arrays a) (place : Nat) {v : Value} (hv : v.Confined k arrays) :
    (heap.modify a (·.setIfInBounds place v)).Confined k arrays := by
  refine h.modify ha fun w hw => ?_
  rcases Array.mem_or_eq_of_mem_setIfInBounds hw with hold | rfl
  · exact h.elements a ha w hold
  · exact hv

end Heap.Confined

/-! ### The two kinds -/

section Kinds

variable (hk : k = .float ∨ k = .bool)

include hk

namespace Value

theorem confined_int (n : Int64) : (int n).Confined k arrays :=
  ⟨by rcases hk with rfl | rfl <;> simp [kind], by simp⟩

theorem confined_text (s : String) : (text s).Confined k arrays :=
  ⟨by rcases hk with rfl | rfl <;> simp [kind], by simp⟩

theorem confined_array {h : Handle} (ha : arrays h) : (array h).Confined k arrays :=
  ⟨by rcases hk with rfl | rfl <;> simp [kind], by rintro h' ⟨⟩; exact ha⟩

/-- Arithmetic on numbers makes no truth values, and no floats without a division. -/
theorem confined_arithmetic {op : Arithmetic} {left right v : Value}
    (h : left.arithmetic op right = .ok v) (hop : (BinaryOp.arithmetic op).makes k = false)
    (hleft : left.kind ≠ k) (hright : right.kind ≠ k) : v.Confined k arrays := by
  have hkind : v.kind ≠ k := by
    rcases kind_arithmetic h with hint | ⟨hfloat, horigin⟩
    · rcases hk with rfl | rfl <;> simp [hint]
    · rcases hk with rfl | rfl
      · rcases horigin with rfl | hfloat | hfloat
        · simp [BinaryOp.makes] at hop
        · exact absurd hfloat hleft
        · exact absurd hfloat hright
      · simp [hfloat]
  refine ⟨hkind, ?_⟩
  rintro a rfl
  rcases kind_arithmetic h with hint | ⟨hfloat, -⟩
  · exact absurd hint (by simp [kind])
  · exact absurd hfloat (by simp [kind])

end Value

namespace Heap.Confined

variable {heap : Heap} (h : heap.Confined k arrays)

include h

/-! ### Reading -/

theorem at? {container index v : Value} (hcontainer : container.Confined k arrays)
    (hat : heap.at? container index = some v) : v.Confined k arrays := by
  unfold Heap.at? at hat
  split at hat
  · next a =>
    obtain ⟨place, -, hplace⟩ := Option.bind_eq_some_iff.1 hat
    exact h.elements a (hcontainer.handle a rfl) v (Array.mem_of_getElem? hplace)
  · obtain ⟨position, -, hat⟩ := Option.bind_eq_some_iff.1 hat
    obtain ⟨place, -, hat⟩ := Option.bind_eq_some_iff.1 hat
    obtain ⟨c, -, rfl⟩ := Option.map_eq_some_iff.1 hat
    exact Value.confined_text hk _
  · simp at hat

theorem follow? {start v : Value} {path : List Value} (hstart : start.Confined k arrays)
    (hfollow : heap.follow? start path = some v) : v.Confined k arrays := by
  induction path generalizing start with
  | nil =>
    simp only [Heap.follow?, Option.some.injEq] at hfollow
    exact hfollow ▸ hstart
  | cons index path ih =>
    obtain ⟨inner, hinner, hrest⟩ := Option.bind_eq_some_iff.1 hfollow
    exact ih (h.at? hk hstart hinner) hrest

theorem write? {a : Handle} (ha : arrays a) {v : Value} (hv : v.Confined k arrays)
    {path : List Value} {heap' : Heap} (hwrite : heap.write? a v path = some heap') :
    heap'.Confined k arrays := by
  induction path generalizing a with
  | nil => simp [Heap.write?] at hwrite
  | cons index path ih =>
    cases path with
    | nil =>
      obtain ⟨place, -, rfl⟩ := Option.map_eq_some_iff.1 hwrite
      exact h.set ha place hv
    | cons next path =>
      unfold Heap.write? at hwrite
      split at hwrite
      · next inner hinner =>
        have hconfined := h.at? hk (Value.confined_array hk ha) hinner
        exact ih (hconfined.handle inner rfl) hwrite
      · simp at hwrite

/-! ### Operators -/

/-- A new array is a confined value. -/
theorem allocValue {elements : Array Value} (helements : ∀ v ∈ elements, v.Confined k arrays) :
    (heap.allocValue elements).1.Confined k arrays ∧
      (heap.allocValue elements).2.Confined k arrays :=
  ⟨Value.confined_array hk (h.handle_alloc elements), h.alloc helements⟩

variable {left right v : Value} {heap' : Heap} (hleft : left.Confined k arrays)
  (hright : right.Confined k arrays)

include hleft hright

theorem numbers {op : Arithmetic} (hop : (BinaryOp.arithmetic op).makes k = false)
    (hresult : (left.arithmetic op right).map (·, heap) = .ok (v, heap')) :
    v.Confined k arrays ∧ heap'.Confined k arrays := by
  cases hvalue : left.arithmetic op right with
  | error e => simp [hvalue, Except.map] at hresult
  | ok w =>
    simp only [hvalue, Except.map, Except.ok.injEq, Prod.mk.injEq] at hresult
    obtain ⟨rfl, rfl⟩ := hresult
    exact ⟨Value.confined_arithmetic hk hvalue hop hleft.kind hright.kind, h⟩

theorem add (hop : (BinaryOp.arithmetic .add).makes k = false)
    (hresult : heap.add left right = .ok (v, heap')) :
    v.Confined k arrays ∧ heap'.Confined k arrays := by
  unfold Heap.add at hresult
  split at hresult
  · simp only [Except.ok.injEq, Prod.mk.injEq] at hresult
    obtain ⟨rfl, rfl⟩ := hresult
    exact ⟨Value.confined_text hk _, h⟩
  · next a b =>
    rw [Except.ok.injEq] at hresult
    have helements : ∀ w ∈ heap.elements a ++ heap.elements b, w.Confined k arrays := by
      intro w hw
      rcases Array.mem_append.1 hw with hfirst | hsecond
      · exact h.elements a (hleft.handle a rfl) w hfirst
      · exact h.elements b (hright.handle b rfl) w hsecond
    have hnew := h.allocValue hk helements
    rwa [hresult] at hnew
  · exact h.numbers hk hleft hright hop hresult

theorem multiply (hop : (BinaryOp.arithmetic .multiply).makes k = false)
    (hresult : heap.multiply left right = .ok (v, heap')) :
    v.Confined k arrays ∧ heap'.Confined k arrays := by
  unfold Heap.multiply at hresult
  split at hresult
  · split at hresult
    · simp only [Except.ok.injEq, Prod.mk.injEq] at hresult
      obtain ⟨rfl, rfl⟩ := hresult
      exact ⟨Value.confined_text hk _, h⟩
    · simp at hresult
  · next a count hrepeat =>
    have ha : arrays a := by
      rcases Value.repetition?_eq_array hrepeat with rfl | rfl
      · exact hleft.handle a rfl
      · exact hright.handle a rfl
    split at hresult
    · next copies _ =>
      rw [Except.ok.injEq] at hresult
      have helements : ∀ w ∈ repeatElements copies (heap.elements a), w.Confined k arrays := by
        intro w hw
        exact h.elements a ha w (mem_of_mem_repeatElements hw)
      have hnew := h.allocValue hk helements
      rwa [hresult] at hnew
    · simp at hresult
  · exact h.numbers hk hleft hright hop hresult

/-- What an operator that does not make the kind gives is confined. -/
theorem apply {op : BinaryOp} (hop : op.makes k = false)
    (hresult : heap.apply op left right = some (.ok (v, heap'))) :
    v.Confined k arrays ∧ heap'.Confined k arrays := by
  -- a comparison gives a truth value, which is confined where no comparison is excluded
  have hbool (b : Bool) (hcompares : op.makes .bool = true) : (Value.bool b).Confined k arrays := by
    refine ⟨fun hkind => ?_, by simp⟩
    obtain rfl : k = .bool := hkind.symm
    exact absurd hcompares (by simp [hop])
  cases op with
  | and =>
    simp only [Heap.apply, Option.some.injEq, Except.ok.injEq, Prod.mk.injEq] at hresult
    obtain ⟨rfl, rfl⟩ := hresult
    exact ⟨by split <;> assumption, h⟩
  | or =>
    simp only [Heap.apply, Option.some.injEq, Except.ok.injEq, Prod.mk.injEq] at hresult
    obtain ⟨rfl, rfl⟩ := hresult
    exact ⟨by split <;> assumption, h⟩
  | equal | notEqual =>
    obtain ⟨same, -, hresult⟩ := Option.map_eq_some_iff.1 hresult
    simp only [Except.ok.injEq, Prod.mk.injEq] at hresult
    obtain ⟨rfl, rfl⟩ := hresult
    exact ⟨hbool _ rfl, h⟩
  | order r =>
    obtain ⟨answer, -, hresult⟩ := Option.map_eq_some_iff.1 hresult
    cases answer with
    | none => simp at hresult
    | some o =>
      simp only [Except.ok.injEq, Prod.mk.injEq] at hresult
      obtain ⟨rfl, rfl⟩ := hresult
      exact ⟨hbool _ rfl, h⟩
  | arithmetic op =>
    simp only [Heap.apply, Option.some.injEq] at hresult
    cases op with
    | add => exact h.add hk hleft hright hop hresult
    | multiply => exact h.multiply hk hleft hright hop hresult
    | subtract | divide => exact h.numbers hk hleft hright hop hresult

end Heap.Confined

end Kinds

end Scriptlet
