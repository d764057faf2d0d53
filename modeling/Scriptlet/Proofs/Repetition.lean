import Mathlib.Algebra.Group.Nat.Defs
import Scriptlet.Proofs.ExactIntegers
import Scriptlet.Proofs.FailedUpdates

set_option autoImplicit false

/-! # Repetition

A text or an array times a count is so many copies of it, or an overflow if they are longer together
than `*` makes anything (`repetition_exact`). The bound is on the exact product of the length and the
count. What is empty can be repeated any number of times and stays empty, and a count below zero
counts as zero. Neither operand is changed: copies of an array are the elements of a new one. -/

namespace Scriptlet

/-! ## Contents -/

/-- What a text or an array is made of. -/
inductive Contents where
  | text (s : String)
  | elements (items : List Value)

namespace Contents

/-- The length of a text in bytes, and of a list of elements. -/
def length : Contents → Nat
  | text s => s.utf8ByteSize
  | elements items => items.length

/-- Copies, one behind the other. -/
def times (n : Nat) : Contents → Contents
  | text s => text (String.join (List.replicate n s))
  | elements items => elements (List.replicate n items).flatten

theorem times_of_length_eq_zero {c : Contents} (h : c.length = 0) (n : Nat) : c.times n = c := by
  cases c with
  | text s =>
    obtain rfl := String.utf8ByteSize_eq_zero_iff.1 h
    have hjoin : String.join (List.replicate n "") = "" := by
      induction n with
      | zero => rfl
      | succ n ih => rw [List.replicate_succ, String.join_cons, ih, String.append_empty]
    exact congrArg text hjoin
  | elements items =>
    obtain rfl := List.eq_nil_of_length_eq_zero h
    exact congrArg elements List.flatten_replicate_nil

end Contents

/-! ## Copies -/

theorem repeatText_eq_join (n : Nat) (s : String) :
    repeatText n s = String.join (List.replicate n s) := by
  induction n with
  | zero => rfl
  | succ n ih =>
    calc repeatText (n + 1) s = repeatText n s ++ s := rfl
      _ = String.join (List.replicate n s ++ [s]) := by simp [ih, String.join_append]
      _ = String.join (List.replicate (n + 1) s) := by rw [List.replicate_succ']

theorem toList_repeatElements (n : Nat) (items : Array Value) :
    (repeatElements n items).toList = (List.replicate n items.toList).flatten := by
  induction n with
  | zero => rfl
  | succ n ih =>
    calc (repeatElements (n + 1) items).toList = (repeatElements n items ++ items).toList := rfl
      _ = (List.replicate n items.toList ++ [items.toList]).flatten := by simp [ih]
      _ = (List.replicate (n + 1) items.toList).flatten := by rw [List.replicate_succ']

/-- The bound is on the exact product, and of nothing no copies are made. -/
theorem copies?_eq (count : Int64) (length : Nat) :
    copies? count length =
      if length * count.toInt.toNat ≤ 2 ^ 24 then
        some (if length = 0 then 0 else count.toInt.toNat)
      else none := by
  unfold copies? repetitionLimit
  by_cases hempty : length = 0
  · simp [hempty]
  · simp [hempty, Nat.mul_comm]

/-- The copies that are made are as many as the count says, or as good as these. -/
theorem exists_copies {c : Contents} {count : Int64}
    (h : c.length * count.toInt.toNat ≤ 2 ^ 24) :
    ∃ n, copies? count c.length = some n ∧ c.times n = c.times count.toInt.toNat := by
  rw [copies?_eq, if_pos h]
  refine ⟨_, rfl, ?_⟩
  by_cases hempty : c.length = 0
  · rw [Contents.times_of_length_eq_zero hempty, Contents.times_of_length_eq_zero hempty]
  · rw [if_neg hempty]

/-! ## Operands -/

/-- The value is a text, or an array of the heap, with these contents. -/
inductive Heap.HasContents (heap : Heap) : Value → Contents → Prop
  | text (s : String) : heap.HasContents (.text s) (.text s)
  | array {h : Handle} (made : h.index < heap.cells.size) :
      heap.HasContents (.array h) (.elements (heap.elements h).toList)

/-- The value is a count: a whole number, or a truth value for zero or one. -/
inductive Value.Counts : Value → Int → Prop
  | int (n : Int64) : Value.Counts (.int n) n.toInt
  | bool (b : Bool) : Value.Counts (.bool b) (if b then 1 else 0)

/-- A count is a number, and the word of it. -/
theorem Value.Counts.exists_word {a : Value} {k : Int} (h : a.Counts k) :
    ∃ n, a.integer? = some n ∧ a.number? = some (.int n) ∧ n.toInt = k := by
  cases h with
  | int n => exact ⟨n, rfl, rfl, rfl⟩
  | bool b => exact ⟨ofBool b, rfl, rfl, by cases b <;> rfl⟩

/-- The value has the contents, and was made of nothing that was there: a text needs no array, and
    an array is a new one. -/
structure Heap.Makes (heap : Heap) (c : Contents) (y : Value) (heap' : Heap) : Prop where
  contents : heap'.HasContents y c
  others : heap.Extends heap'
  text : ∀ s, y = .text s → heap' = heap
  fresh : ∀ h, y = .array h → heap.cells.size ≤ h.index

namespace Heap

variable {heap heap' : Heap} {x y z a b : Value} {c : Contents} {k m : Int}

theorem hasContents_text_iff {s : String} :
    heap.HasContents x (.text s) ↔ x = .text s := by
  constructor
  · rintro ⟨⟩
    rfl
  · rintro rfl
    exact .text s

theorem hasContents_elements_iff {items : List Value} :
    heap.HasContents x (.elements items) ↔
      ∃ h, x = .array h ∧ h.index < heap.cells.size ∧ (heap.elements h).toList = items := by
  constructor
  · rintro ⟨⟩
    exact ⟨_, rfl, ‹_›, rfl⟩
  · rintro ⟨h, rfl, made, rfl⟩
    exact .array made

theorem HasContents.extend (h : heap.HasContents x c) (hheap : heap.Extends heap') :
    heap'.HasContents x c := by
  cases h with
  | text s => exact .text s
  | @array h made =>
    rw [← hheap.elements h made]
    exact .array (Nat.lt_of_lt_of_le made hheap.size_le)

theorem makes_text (heap : Heap) (s : String) : heap.Makes (.text s) (.text s) heap where
  contents := .text s
  others := .refl heap
  text _ _ := rfl
  fresh _ h := absurd h (by simp)

theorem makes_allocValue (heap : Heap) (items : Array Value) :
    heap.Makes (.elements items.toList) (heap.allocValue items).1 (heap.allocValue items).2 where
  contents := by
    refine hasContents_elements_iff.2 ⟨(heap.alloc items).1, rfl, ?_, ?_⟩
    · simp [allocValue, alloc]
    · exact congrArg Array.toList (elements_alloc_self heap items)
  others := .alloc heap items
  text s h := absurd h (by simp [allocValue])
  fresh h heq := by
    obtain rfl := Value.array.inj heq
    exact Nat.le_refl _

/-! ## Products and sums -/

/-- A text or an array and a count are a repetition in either order. -/
theorem repetition?_eq (hx : heap.HasContents x c) {n : Int64} (ha : a.integer? = some n) :
    Value.repetition? x a = some (x, n) ∧ Value.repetition? a x = some (x, n) := by
  cases hx <;> cases a <;> simp_all [Value.repetition?, Value.integer?]

theorem multiply_comm (hx : heap.HasContents x c) (ha : a.Counts k) :
    heap.multiply a x = heap.multiply x a := by
  obtain ⟨n, hn, -, -⟩ := ha.exists_word
  obtain ⟨hleft, hright⟩ := repetition?_eq hx hn
  unfold multiply
  rw [hleft, hright]
  cases hx <;> rfl

theorem exists_multiply (hx : heap.HasContents x c) (ha : a.Counts k)
    (hlength : c.length * k.toNat ≤ 2 ^ 24) :
    ∃ y heap', heap.multiply x a = .ok (y, heap') ∧ heap.Makes (c.times k.toNat) y heap' := by
  obtain ⟨n, hn, -, rfl⟩ := ha.exists_word
  obtain ⟨copies, hcopies, htimes⟩ := exists_copies hlength
  unfold multiply
  rw [(repetition?_eq hx hn).1, ← htimes]
  cases hx with
  | text s =>
    refine ⟨.text (repeatText copies s), heap, ?_, ?_⟩
    · simp only [show copies? n s.utf8ByteSize = some copies from hcopies]
    · exact repeatText_eq_join copies s ▸ makes_text heap _
  | @array h made =>
    have hsize : copies? n (heap.elements h).size = some copies := by
      simpa [Contents.length] using hcopies
    refine ⟨_, _, by simp only [hsize]; rfl, ?_⟩
    rw [Contents.times, ← toList_repeatElements]
    exact makes_allocValue heap _

theorem multiply_overflows (hx : heap.HasContents x c) (ha : a.Counts k)
    (hlength : 2 ^ 24 < c.length * k.toNat) :
    heap.multiply x a = .error (.overflow .multiply) := by
  obtain ⟨n, hn, -, rfl⟩ := ha.exists_word
  have hcopies : copies? n c.length = none := by
    rw [copies?_eq, if_neg (Nat.not_le_of_lt hlength)]
  unfold multiply
  rw [(repetition?_eq hx hn).1]
  cases hx with
  | text s => simp only [show copies? n s.utf8ByteSize = none from hcopies]
  | @array h made =>
    have hsize : copies? n (heap.elements h).size = none := by
      simpa [Contents.length] using hcopies
    simp only [hsize]

/-- The sum of two counts is a count, if it fits. -/
theorem exists_add_counts (heap : Heap) (ha : a.Counts k) (hb : b.Counts m)
    (hfits : FitsWord (k + m)) :
    ∃ total, heap.add a b = .ok (total, heap) ∧ total.Counts (k + m) := by
  have hadd : heap.add a b = (a.arithmetic .add b).map (·, heap) := by
    cases ha <;> cases hb <;> rfl
  obtain ⟨n, -, hn, rfl⟩ := ha.exists_word
  obtain ⟨n', -, hn', rfl⟩ := hb.exists_word
  obtain ⟨w, hword, htoInt⟩ := wordOf?_of_fits hfits
  refine ⟨.int w, ?_, htoInt ▸ .int w⟩
  rw [hadd, Value.arithmetic, hn, hn']
  simp [Number.apply, Number.combine, hword, Except.map, Number.toValue]

/-- Some copies and more of them are all of them together. -/
theorem exists_add_times {j l : Nat} (hy : heap.HasContents y (c.times j))
    (hz : heap.HasContents z (c.times l)) :
    ∃ sum heap', heap.add y z = .ok (sum, heap') ∧ heap.Makes (c.times (j + l)) sum heap' := by
  cases c with
  | text s =>
    obtain rfl := hasContents_text_iff.1 hy
    obtain rfl := hasContents_text_iff.1 hz
    refine ⟨_, heap, rfl, ?_⟩
    rw [Contents.times, ← List.replicate_append_replicate, String.join_append]
    exact makes_text heap _
  | elements items =>
    obtain ⟨h, rfl, -, hleft⟩ := hasContents_elements_iff.1 hy
    obtain ⟨h', rfl, -, hright⟩ := hasContents_elements_iff.1 hz
    refine ⟨_, _, rfl, ?_⟩
    rw [Contents.times, ← List.replicate_append_replicate, List.flatten_append, ← hleft, ← hright,
      ← Array.toList_append]
    exact makes_allocValue heap _

/-- Repeating by a sum is adding repetitions, as long as it does not overflow. -/
theorem exists_multiply_add (hx : heap.HasContents x c) (ha : a.Counts k) (hb : b.Counts m)
    (hk : 0 ≤ k) (hm : 0 ≤ m) (hfits : FitsWord (k + m))
    (hlength : c.length * (k + m).toNat ≤ 2 ^ 24) :
    ∃ whole heap₀ sum heap₁,
      (do let (total, heap) ← heap.add a b
          heap.multiply x total) = .ok (whole, heap₀) ∧
      (do let (left, heap) ← heap.multiply x a
          let (right, heap) ← heap.multiply x b
          heap.add left right) = .ok (sum, heap₁) ∧
      heap₀.HasContents whole (c.times (k + m).toNat) ∧
      heap₁.HasContents sum (c.times (k + m).toNat) := by
  have hsplit : (k + m).toNat = k.toNat + m.toNat := Int.toNat_add hk hm
  have hparts : c.length * k.toNat + c.length * m.toNat ≤ 2 ^ 24 := by
    rwa [← Nat.mul_add, ← hsplit]
  obtain ⟨total, htotal, hcounts⟩ := exists_add_counts heap ha hb hfits
  obtain ⟨whole, heap₀, hwhole, hmade⟩ := exists_multiply hx hcounts hlength
  obtain ⟨left, heap₁, hleft, hmade₁⟩ := exists_multiply hx ha (Nat.le_of_add_right_le hparts)
  obtain ⟨right, heap₂, hright, hmade₂⟩ :=
    exists_multiply (hx.extend hmade₁.others) hb (Nat.le_of_add_left_le hparts)
  obtain ⟨sum, heap₃, hsum, hmade₃⟩ :=
    exists_add_times (hmade₁.contents.extend hmade₂.others) hmade₂.contents
  refine ⟨whole, heap₀, sum, heap₃, ?_, ?_, hmade.contents, hsplit ▸ hmade₃.contents⟩
  · rw [htotal]
    exact hwhole
  · calc
      _ = (do let (right, heap) ← heap₁.multiply x b
              heap.add left right) := by rw [hleft]; rfl
      _ = heap₂.add left right := by rw [hright]; rfl
      _ = .ok (sum, heap₃) := hsum

end Heap

/-- **Repetition is exact and bounded.** The product of a text or an array with a count is the same
    in either order. It has as many copies as the count says, none if this is negative, and the
    operand still has its contents; it is an overflow just in case the length times the number of
    copies is above the limit. If a sum of two counts does not overflow, nor does the product with
    it, then this has the contents of the two products added. -/
theorem repetition_exact {heap : Heap} {x a : Value} {c : Contents} {k : Int}
    (hx : heap.HasContents x c) (ha : a.Counts k) :
    heap.arithmetic .multiply a x = heap.arithmetic .multiply x a ∧
    (c.length * k.toNat ≤ 2 ^ 24 → ∃ y heap',
      heap.arithmetic .multiply x a = .ok (y, heap') ∧
      heap.Makes (c.times k.toNat) y heap' ∧ heap'.HasContents x c) ∧
    (2 ^ 24 < c.length * k.toNat →
      heap.arithmetic .multiply x a = .error (.overflow .multiply)) ∧
    ∀ b m, b.Counts m → 0 ≤ k → 0 ≤ m → FitsWord (k + m) →
      c.length * (k + m).toNat ≤ 2 ^ 24 →
      ∃ whole heap₀ sum heap₁,
        (do let (total, heap) ← heap.arithmetic .add a b
            heap.arithmetic .multiply x total) = .ok (whole, heap₀) ∧
        (do let (left, heap) ← heap.arithmetic .multiply x a
            let (right, heap) ← heap.arithmetic .multiply x b
            heap.arithmetic .add left right) = .ok (sum, heap₁) ∧
        heap₀.HasContents whole (c.times (k + m).toNat) ∧
        heap₁.HasContents sum (c.times (k + m).toNat) := by
  refine ⟨Heap.multiply_comm hx ha, fun hlength => ?_, Heap.multiply_overflows hx ha,
    fun b m hb hk hm hfits hlength => Heap.exists_multiply_add hx ha hb hk hm hfits hlength⟩
  obtain ⟨y, heap', hproduct, hmade⟩ := Heap.exists_multiply hx ha hlength
  exact ⟨y, heap', hproduct, hmade, hx.extend hmade.others⟩

/-- A heap with `[1, [2]]` in its second cell. -/
def heapWithPair : Heap :=
  ⟨#[#[.int 2], #[.int 1, .array ⟨0⟩]]⟩

theorem heapWithPair_hasContents :
    heapWithPair.HasContents (.array ⟨1⟩) (.elements [.int 1, .array ⟨0⟩]) :=
  Heap.hasContents_elements_iff.2 ⟨⟨1⟩, rfl, by decide, rfl⟩

/-- Twice and once more `[1, [2]]` is three times, all with the one inner array; a count of which the
    product with the length is above the limit is refused, while nothing at all can be repeated as
    often as one likes. -/
theorem repetition_exact_pair :
    (∃ y heap', heapWithPair.arithmetic .multiply (.int 2) (.array ⟨1⟩) = .ok (y, heap') ∧
      heapWithPair.Makes
        (.elements [.int 1, .array ⟨0⟩, .int 1, .array ⟨0⟩]) y heap') ∧
    (∃ sum heap',
      (do let (left, heap) ← heapWithPair.arithmetic .multiply (.array ⟨1⟩) (.int 2)
          let (right, heap) ← heap.arithmetic .multiply (.array ⟨1⟩) (.bool true)
          heap.arithmetic .add left right) = .ok (sum, heap') ∧
      heap'.HasContents sum
        (.elements [.int 1, .array ⟨0⟩, .int 1, .array ⟨0⟩, .int 1, .array ⟨0⟩])) ∧
    heapWithPair.arithmetic .multiply (.array ⟨1⟩) (.int Int64.maxValue) =
      .error (.overflow .multiply) ∧
    heapWithPair.arithmetic .multiply (.int Int64.maxValue) (.text "") =
      .ok (.text "", heapWithPair) := by
  have htwo : (Value.int 2).Counts 2 := .int 2
  have hone : (Value.bool true).Counts 1 := .bool true
  have hmost : (Value.int Int64.maxValue).Counts (2 ^ 63 - 1) := .int Int64.maxValue
  have hempty : heapWithPair.HasContents (.text "") (.text "") := .text ""
  obtain ⟨hcomm, htwice, -, hsum⟩ := repetition_exact heapWithPair_hasContents htwo
  obtain ⟨-, -, hmany, -⟩ := repetition_exact heapWithPair_hasContents hmost
  obtain ⟨hcomm', hnothing, -⟩ := repetition_exact hempty hmost
  refine ⟨?_, ?_, hmany (by decide), ?_⟩
  · obtain ⟨y, heap', hproduct, hmade, -⟩ := htwice (by decide)
    exact ⟨y, heap', hcomm.trans hproduct, hmade⟩
  · obtain ⟨-, -, sum, heap', -, hadded, -, hcontents⟩ :=
      hsum _ _ hone (by decide) (by decide) (by decide) (by decide)
    exact ⟨sum, heap', hadded, hcontents⟩
  · obtain ⟨y, heap', hproduct, hmade, -⟩ := hnothing (by simp [Contents.length])
    have hcontents := hmade.contents
    rw [Contents.times_of_length_eq_zero rfl] at hcontents
    obtain rfl := Heap.hasContents_text_iff.1 hcontents
    obtain rfl := hmade.text "" rfl
    exact hcomm'.trans hproduct

end Scriptlet
