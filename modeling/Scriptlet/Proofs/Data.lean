import Mathlib.Data.List.Forall2
import Scriptlet.Proofs.Comparison

set_option autoImplicit false

/-! # Values without cycles

From a value that leads to no array which contains itself, every way down ends: there are only so
many arrays, and none comes twice (`acyclic_iff_acc`). What such a value holds can be written down
as a tree, a `Datum`, in which it no longer shows which arrays are shared. A value holds a datum
exactly if it leads to no cycle and to no float (`plain_iff_exists_holds`), and then only one. -/

namespace Scriptlet

/-! ## Ways down that end -/

namespace Heap

variable {heap : Heap} {v w : Value}

/-- The value leads to no array that contains itself. -/
def Acyclic (heap : Heap) (v : Value) : Prop :=
  ∀ w, Relation.ReflTransGen heap.HasElement v w → ¬heap.SelfContaining w

theorem Acyclic.element (h : heap.Acyclic v) (helement : heap.HasElement v w) : heap.Acyclic w :=
  fun _ hreach => h _ (hreach.head helement)

/-- Arrays with elements were made. -/
theorem lt_of_mem_elements {a : Handle} (h : v ∈ heap.elements a) :
    a.index < heap.cells.size := by
  by_cases hlt : a.index < heap.cells.size
  · exact hlt
  · exact absurd h (by simp [elements, Array.getD, hlt])

/-- The first value is an element of the second. The values that are accessible this way are those
    from which every way down ends. -/
def IsElement (heap : Heap) (w v : Value) : Prop :=
  heap.HasElement v w

/-- Where one way down does not end, neither does one from some element. -/
theorem exists_element_of_not_acc (h : ¬Acc heap.IsElement v) :
    ∃ w, heap.HasElement v w ∧ ¬Acc heap.IsElement w := by
  by_contra hnone
  push Not at hnone
  exact h (.intro v hnone)

/-- An array that the value leads to and from which some way down does not end. -/
def EndlessArray (heap : Heap) (v : Value) : Type :=
  { p : Fin heap.cells.size //
    Relation.ReflTransGen heap.HasElement v (.array ⟨p⟩) ∧ ¬Acc heap.IsElement (.array ⟨p⟩) }

instance : Finite (EndlessArray heap v) :=
  inferInstanceAs (Finite { _p : Fin heap.cells.size // _ })

def EndlessArray.value (p : heap.EndlessArray v) : Value :=
  .array ⟨p.1⟩

theorem exists_endlessArray (hreach : Relation.ReflTransGen heap.HasElement v w)
    (h : ¬Acc heap.IsElement w) : ∃ p : heap.EndlessArray v, p.value = w := by
  obtain ⟨_, ⟨a, rfl, hmem⟩, -⟩ := exists_element_of_not_acc h
  have hlt := lt_of_mem_elements (Array.mem_toList_iff.1 hmem)
  exact ⟨⟨⟨a.index, hlt⟩, hreach, h⟩, rfl⟩

theorem Acyclic.acc (h : heap.Acyclic v) : Acc heap.IsElement v := by
  refine Classical.byContradiction fun hacc => ?_
  obtain ⟨start, -⟩ := exists_endlessArray .refl hacc
  have hnext (p : heap.EndlessArray v) :
      ∃ q : heap.EndlessArray v, heap.HasElement p.value q.value := by
    obtain ⟨w, helement, hw⟩ := exists_element_of_not_acc p.2.2
    obtain ⟨q, rfl⟩ := exists_endlessArray (p.2.1.tail helement) hw
    exact ⟨q, helement⟩
  obtain ⟨p, hp⟩ := exists_transGen_self start hnext
  exact h p.value p.2.1 (hp.lift EndlessArray.value fun _ _ helement => helement)

/-- A value leads to no cycle exactly if every way down from it ends. -/
theorem acyclic_iff_acc : heap.Acyclic v ↔ Acc heap.IsElement v := by
  refine ⟨Acyclic.acc, fun h => ?_⟩
  induction h with
  | intro v hacc ih =>
    intro w hreach hself
    obtain rfl | ⟨x, helement, hrest⟩ := Relation.ReflTransGen.cases_head hreach
    · -- the first step of the cycle leads to an element that is on the cycle, too
      obtain ⟨x, helement, hback⟩ := Relation.TransGen.head'_iff.1 hself
      exact ih x helement x .refl (Relation.TransGen.tail' hback helement)
    · exact ih x helement w hrest hself

end Heap

/-! ## Data -/

/-- Each member of a list is related to some member of a list that is related to it. -/
theorem exists_of_mem_of_forall₂ {α β : Type} {R : α → β → Prop} {as : List α} {bs : List β} {a : α}
    (h : List.Forall₂ R as bs) (hmem : a ∈ as) : ∃ b ∈ bs, R a b := by
  induction h with
  | nil => exact absurd hmem List.not_mem_nil
  | cons hfirst _ ih =>
    rcases List.mem_cons.1 hmem with rfl | hrest
    · exact ⟨_, List.mem_cons_self .., hfirst⟩
    · obtain ⟨b, hb, hab⟩ := ih hrest
      exact ⟨b, List.mem_cons_of_mem _ hb, hab⟩

theorem forall₂_imp_of_mem {α β : Type} {R S : α → β → Prop} {as : List α} {bs : List β}
    (h : List.Forall₂ R as bs) (himp : ∀ a ∈ as, ∀ b ∈ bs, R a b → S a b) :
    List.Forall₂ S as bs := by
  obtain ⟨hlength, hzip⟩ := List.forall₂_iff_zip.1 h
  refine List.forall₂_iff_zip.2 ⟨hlength, fun {a b} hmem => ?_⟩
  obtain ⟨ha, hb⟩ := List.of_mem_zip hmem
  exact himp a ha b hb (hzip hmem)

/-- What a value holds, no matter which arrays are shared. -/
inductive Datum where
  | number (n : Int64)
  | text (s : String)
  | list (items : List Datum)

namespace Datum

mutual

theorem inductionOn {motive : Datum → Prop} (number : ∀ n, motive (.number n))
    (text : ∀ s, motive (.text s))
    (list : ∀ items, (∀ d ∈ items, motive d) → motive (.list items)) : ∀ d, motive d
  | .number n => number n
  | .text s => text s
  | .list items => list items (inductionOnItems number text list items)

theorem inductionOnItems {motive : Datum → Prop} (number : ∀ n, motive (.number n))
    (text : ∀ s, motive (.text s))
    (list : ∀ items, (∀ d ∈ items, motive d) → motive (.list items)) :
    ∀ items : List Datum, ∀ d ∈ items, motive d
  | [], _, h => absurd h List.not_mem_nil
  | d :: items, e, h =>
    match List.mem_cons.1 h with
    | .inl heq => heq ▸ inductionOn number text list d
    | .inr hmem => inductionOnItems number text list items e hmem

end

theorem sizeOf_lt_of_mem {d : Datum} {items : List Datum} (h : d ∈ items) :
    sizeOf d < sizeOf (Datum.list items) := by
  have hlt := List.sizeOf_lt_of_mem h
  rw [Datum.list.sizeOf_spec]
  omega

end Datum

attribute [induction_eliminator] Datum.inductionOn

mutual

/-- The value holds the datum. Truth values hold the numbers that they count as. -/
def Heap.Holds (heap : Heap) : Value → Datum → Prop
  | v, .number n => v.integer? = some n
  | v, .text s => v = .text s
  | v, .list items => ∃ a, v = .array a ∧ Heap.HoldAll heap (heap.elements a).toList items

/-- The values hold the data, one each. -/
def Heap.HoldAll (heap : Heap) : List Value → List Datum → Prop
  | vs, [] => vs = []
  | vs, d :: ds => ∃ v rest, vs = v :: rest ∧ Heap.Holds heap v d ∧ Heap.HoldAll heap rest ds

end

namespace Heap

variable {heap : Heap} {v w : Value}

theorem holdAll_iff {vs : List Value} {ds : List Datum} :
    heap.HoldAll vs ds ↔ List.Forall₂ heap.Holds vs ds := by
  induction ds generalizing vs with
  | nil => simp [HoldAll, List.forall₂_nil_right_iff]
  | cons d ds ih =>
    rw [HoldAll, List.forall₂_cons_right_iff]
    constructor
    · rintro ⟨w, rest, rfl, hw, hrest⟩
      exact ⟨w, rest, hw, ih.1 hrest, rfl⟩
    · rintro ⟨w, rest, hw, hrest, rfl⟩
      exact ⟨w, rest, rfl, hw, ih.2 hrest⟩

@[simp]
theorem holds_int {n : Int64} {d : Datum} : heap.Holds (.int n) d ↔ d = .number n := by
  cases d <;> simp [Holds, Value.integer?, eq_comm]

@[simp]
theorem holds_bool {b : Bool} {d : Datum} :
    heap.Holds (.bool b) d ↔ d = .number (Value.ofBool b) := by
  cases d <;> simp [Holds, Value.integer?, eq_comm]

@[simp]
theorem not_holds_float {x : Float} {d : Datum} : ¬heap.Holds (.float x) d := by
  cases d <;> simp [Holds, Value.integer?]

@[simp]
theorem holds_text {s : String} {d : Datum} : heap.Holds (.text s) d ↔ d = .text s := by
  cases d <;> simp [Holds, Value.integer?, eq_comm]

@[simp]
theorem holds_array {a : Handle} {d : Datum} :
    heap.Holds (.array a) d ↔
      ∃ items, d = .list items ∧ List.Forall₂ heap.Holds (heap.elements a).toList items := by
  cases d <;> simp [Holds, Value.integer?, holdAll_iff]

/-- Lists hold one list of data only, if their members hold one datum only. -/
theorem forall₂_holds_unique {vs : List Value} {ds es : List Datum}
    (unique : ∀ d ∈ ds, ∀ v e, heap.Holds v d → heap.Holds v e → d = e)
    (hds : List.Forall₂ heap.Holds vs ds) (hes : List.Forall₂ heap.Holds vs es) : ds = es := by
  induction hds generalizing es with
  | nil => exact (List.forall₂_nil_left_iff.1 hes).symm
  | @cons v d vs ds hfirst hrest ih =>
    obtain ⟨e, es, hefirst, herest, rfl⟩ := List.forall₂_cons_left_iff.1 hes
    rw [unique d (List.mem_cons_self ..) v e hfirst hefirst,
      ih (fun d hd => unique d (List.mem_cons_of_mem _ hd)) herest]

/-- A value holds one datum only. -/
theorem Holds.unique {d e : Datum} (hd : heap.Holds v d) (he : heap.Holds v e) : d = e := by
  induction d generalizing v e with
  | list items ih =>
    obtain ⟨a, rfl⟩ : ∃ a, v = .array a := by cases v <;> simp at hd ⊢
    obtain ⟨_, ⟨⟩, hitems⟩ := holds_array.1 hd
    obtain ⟨others, rfl, hothers⟩ := holds_array.1 he
    rw [forall₂_holds_unique (fun d hmem v e => ih d hmem) hitems hothers]
  | _ => cases v <;> simp_all

theorem items_unique {vs : List Value} {ds es : List Datum} (hds : List.Forall₂ heap.Holds vs ds)
    (hes : List.Forall₂ heap.Holds vs es) : ds = es := by
  have hunique : Relator.RightUnique heap.Holds := fun _ _ _ hd he => hd.unique he
  exact hunique.forall₂ hds hes

theorem Holds.kind_eq_array {d : Datum} (h : heap.Holds v d) :
    v.kind = .array ↔ ∃ items, d = .list items := by
  cases v with
  | array a =>
    obtain ⟨items, rfl, -⟩ := holds_array.1 h
    simp [Value.kind]
  | _ => simp_all [Value.kind]

/-- The value leads to no float and to no array that contains itself. -/
structure Plain (heap : Heap) (v : Value) : Prop where
  acyclic : heap.Acyclic v
  kind : ∀ w, Relation.ReflTransGen heap.HasElement v w → w.kind ≠ .float

theorem Plain.element (h : heap.Plain v) (helement : heap.HasElement v w) : heap.Plain w :=
  ⟨h.acyclic.element helement, fun x hreach => h.kind x (hreach.head helement)⟩

/-- A datum for each of the values. -/
theorem exists_forall₂_holds {vs : List Value} (h : ∀ v ∈ vs, ∃ d, heap.Holds v d) :
    ∃ ds, List.Forall₂ heap.Holds vs ds := by
  induction vs with
  | nil => exact ⟨[], .nil⟩
  | cons v vs ih =>
    obtain ⟨d, hd⟩ := h v (List.mem_cons_self ..)
    obtain ⟨ds, hds⟩ := ih fun w hw => h w (List.mem_cons_of_mem _ hw)
    exact ⟨d :: ds, .cons hd hds⟩

theorem Plain.exists_holds (h : heap.Plain v) : ∃ d, heap.Holds v d := by
  induction h.acyclic.acc with
  | intro v _ ih =>
    cases v with
    | int n => exact ⟨.number n, by simp⟩
    | float x => exact absurd rfl (h.kind _ .refl)
    | bool b => exact ⟨.number (Value.ofBool b), by simp⟩
    | text s => exact ⟨.text s, by simp⟩
    | array a =>
      have helements : ∀ w ∈ (heap.elements a).toList, ∃ d, heap.Holds w d := by
        intro w hw
        have helement : heap.HasElement (.array a) w := ⟨a, rfl, hw⟩
        exact ih w helement (h.element helement)
      obtain ⟨items, hitems⟩ := exists_forall₂_holds helements
      exact ⟨.list items, by simpa using hitems⟩

/-- What an element of a value holds is an item of what the value holds. -/
theorem Holds.element {d : Datum} (h : heap.Holds v d) (helement : heap.HasElement v w) :
    ∃ items, d = .list items ∧ ∃ e ∈ items, heap.Holds w e := by
  obtain ⟨a, rfl, hmem⟩ := helement
  obtain ⟨items, rfl, hitems⟩ := holds_array.1 h
  exact ⟨items, rfl, exists_of_mem_of_forall₂ hitems hmem⟩

theorem Holds.acc {d : Datum} (h : heap.Holds v d) : Acc heap.IsElement v := by
  induction d generalizing v with
  | list items ih =>
    refine .intro v fun w helement => ?_
    obtain ⟨_, ⟨⟩, e, he, hw⟩ := h.element helement
    exact ih e he hw
  | _ =>
    refine .intro v fun w helement => ?_
    obtain ⟨_, ⟨⟩, -⟩ := h.element helement

/-- Whatever a value that holds a datum leads to holds one, too. -/
theorem Holds.reach {d : Datum} (h : heap.Holds v d)
    (hreach : Relation.ReflTransGen heap.HasElement v w) : ∃ e, heap.Holds w e := by
  induction hreach with
  | refl => exact ⟨d, h⟩
  | tail _ helement ih =>
    obtain ⟨e, he⟩ := ih
    obtain ⟨_, -, e', -, hw⟩ := he.element helement
    exact ⟨e', hw⟩

/-- The values that hold a datum are those that lead to no cycle and to no float. -/
theorem plain_iff_exists_holds : heap.Plain v ↔ ∃ d, heap.Holds v d := by
  refine ⟨Plain.exists_holds, fun ⟨d, h⟩ => ⟨acyclic_iff_acc.2 h.acc, fun w hreach => ?_⟩⟩
  obtain ⟨e, he⟩ := h.reach hreach
  rintro hkind
  obtain ⟨x, rfl⟩ : ∃ x, w = .float x := by cases w <;> simp [Value.kind] at hkind ⊢
  exact not_holds_float he

end Heap

end Scriptlet
