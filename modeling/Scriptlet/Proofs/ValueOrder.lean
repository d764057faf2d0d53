import Mathlib.Data.String.Basic
import Mathlib.Order.Compare
import Mathlib.Order.Defs.Unbundled
import Scriptlet.Proofs.Data

set_option autoImplicit false

/-! # The order of values

Equality and order go through arrays in two separate recursions, and the order has no outcome where
it meets two values of different kinds. On values that lead to no float and no cycle both come down
to one partial order of data: equality tells whether the two data are one (`equal?_of_holds`), and
the order of the values is that of the data (`compare?_of_holds`). So it is enough that data are
ordered lawfully. That an array is not compared with itself makes no difference, since a value holds
one datum only. -/

namespace Scriptlet

/-! ## The order of data -/

/-- Texts are in the order of the library. -/
theorem compareTexts_eq_compare (a b : String) : compareTexts a b = compare a b :=
  rfl

namespace Datum

mutual

/-- Order of data. Lists are ordered by the first items that differ, or else by length; there is no
    outcome where those are of different kinds. -/
def compare? : Datum → Datum → Option Ordering
  | .number n, .number m => some (compare n.toInt m.toInt)
  | .text s, .text t => some (compareTexts s t)
  | .list ds, .list es => compareItems? ds es
  | _, _ => none

def compareItems? : List Datum → List Datum → Option Ordering
  | [], [] => some .eq
  | [], _ :: _ => some .lt
  | _ :: _, [] => some .gt
  | d :: ds, e :: es =>
    match compare? d e with
    | some .eq => compareItems? ds es
    | answer => answer

end

theorem compareItems?_cons_eq_lt_iff {d e : Datum} {ds es : List Datum} :
    compareItems? (d :: ds) (e :: es) = some .lt ↔
      d.compare? e = some .lt ∨ d.compare? e = some .eq ∧ compareItems? ds es = some .lt := by
  rw [compareItems?]
  split
  · next heq => simp [heq]
  · next hne =>
    have hne : d.compare? e ≠ some .eq := hne
    simp [hne]

/-! ### Data of the same place -/

theorem compareItems?_eq_eq_iff {ds es : List Datum}
    (h : ∀ d ∈ ds, ∀ e, d.compare? e = some .eq ↔ d = e) :
    compareItems? ds es = some .eq ↔ ds = es := by
  induction ds generalizing es with
  | nil => cases es <;> simp [compareItems?]
  | cons d ds ih =>
    cases es with
    | nil => simp [compareItems?]
    | cons e es =>
      have hfirst := h d (List.mem_cons_self ..) e
      have hrest : compareItems? ds es = some .eq ↔ ds = es :=
        ih fun d' hd => h d' (List.mem_cons_of_mem _ hd)
      rw [compareItems?, List.cons.injEq]
      split
      · next heq => rw [hrest, ← hfirst, heq]; simp
      · next hne =>
        have hne : d.compare? e ≠ some .eq := hne
        simp [hne, ← hfirst]

theorem compare?_eq_eq_iff {d e : Datum} : d.compare? e = some .eq ↔ d = e := by
  induction d generalizing e with
  | number n => cases e <;> simp [compare?, Int64.toInt_inj]
  | text s =>
    cases e <;> simp [compare?, compareTexts_eq_compare]
  | list ds ih =>
    cases e with
    | list es => simpa [compare?] using compareItems?_eq_eq_iff fun d hd e => ih d hd
    | _ => simp [compare?]

instance decidableEq : DecidableEq Datum :=
  fun _ _ => decidable_of_iff _ compare?_eq_eq_iff

/-! ### Exchanged data -/

theorem compareItems?_swap {ds es : List Datum}
    (h : ∀ d ∈ ds, ∀ e : Datum, e.compare? d = (d.compare? e).map .swap) :
    compareItems? es ds = (compareItems? ds es).map .swap := by
  induction ds generalizing es with
  | nil => cases es <;> rfl
  | cons d ds ih =>
    cases es with
    | nil => rfl
    | cons e es =>
      have hrest : compareItems? es ds = (compareItems? ds es).map .swap :=
        ih fun d' hd => h d' (List.mem_cons_of_mem _ hd)
      simp only [compareItems?]
      rw [h d (List.mem_cons_self ..) e]
      cases d.compare? e with
      | none => rfl
      | some o => cases o <;> simp [hrest]

theorem compare?_swap (d e : Datum) : e.compare? d = (d.compare? e).map .swap := by
  induction d generalizing e with
  | number n =>
    cases e with
    | number m =>
      have hswap : compare m.toInt n.toInt = (compare n.toInt m.toInt).swap :=
        Std.OrientedCmp.eq_swap
      simp [compare?, hswap]
    | _ => rfl
  | text s =>
    cases e with
    | text t =>
      have hswap : compare t s = (compare s t).swap := Std.OrientedCmp.eq_swap
      simp [compare?, compareTexts_eq_compare, hswap]
    | _ => rfl
  | list ds ih =>
    cases e with
    | list es => simpa [compare?] using compareItems?_swap fun d hd e => ih d hd e
    | _ => rfl

/-! ### Data in a row -/

theorem compareItems?_lt_trans {ds es fs : List Datum}
    (h : ∀ d ∈ ds, ∀ e f : Datum, d.compare? e = some .lt → e.compare? f = some .lt →
      d.compare? f = some .lt)
    (hde : compareItems? ds es = some .lt) (hef : compareItems? es fs = some .lt) :
    compareItems? ds fs = some .lt := by
  induction ds generalizing es fs with
  | nil =>
    -- the list in the middle is not empty, so neither is the last one
    cases fs with
    | nil => cases es <;> simp [compareItems?] at hde hef
    | cons => rfl
  | cons d ds ih =>
    cases es with
    | nil => simp [compareItems?] at hde
    | cons e es =>
      cases fs with
      | nil => simp [compareItems?] at hef
      | cons f fs =>
        rw [compareItems?_cons_eq_lt_iff] at hde hef ⊢
        rcases hde with hde | ⟨hde, hds⟩ <;> rcases hef with hef | ⟨hef, hes⟩
        · exact .inl (h d (List.mem_cons_self ..) e f hde hef)
        · exact .inl (compare?_eq_eq_iff.1 hef ▸ hde)
        · exact .inl (compare?_eq_eq_iff.1 hde ▸ hef)
        · obtain rfl := compare?_eq_eq_iff.1 hde
          exact .inr ⟨hef, ih (fun d' hd => h d' (List.mem_cons_of_mem _ hd)) hds hes⟩

theorem compare?_lt_trans {d e f : Datum} (hde : d.compare? e = some .lt)
    (hef : e.compare? f = some .lt) : d.compare? f = some .lt := by
  induction d generalizing e f with
  | number n =>
    cases e <;> cases f <;> simp only [compare?, Option.some.injEq, reduceCtorEq] at hde hef ⊢
    exact Std.TransCmp.lt_trans hde hef
  | text s =>
    cases e <;> cases f <;> simp only [compare?, Option.some.injEq, reduceCtorEq] at hde hef ⊢
    rw [compareTexts_eq_compare] at *
    exact Std.TransCmp.lt_trans hde hef
  | list ds ih =>
    cases e <;> cases f <;> simp only [compare?, reduceCtorEq] at hde hef ⊢
    exact compareItems?_lt_trans (fun d hd e f => ih d hd) hde hef

end Datum

/-! ## Comparisons as equations

The bound on the depth is never reached where there is an answer, so it does not show: with one
level more a comparison has the answer that it has. -/

theorem Comparison.answerWithin_bound_succ (heap : Heap) (c : Comparison) :
    c.answerWithin heap (heap.comparisonBound + 1) = c.answerWithin heap heap.comparisonBound := by
  cases hanswer : c.answerWithin heap heap.comparisonBound with
  | some r => exact answerWithin_succ hanswer
  | none =>
    refine Classical.byContradiction fun hmore => ?_
    exact isDecided_iff.1 (ends_iff_isDecided.1 ⟨_, hmore⟩) hanswer

theorem outcomeOfEqual_injective : Function.Injective outcomeOfEqual := by
  decide

namespace Heap

variable {heap : Heap} {v w : Value} {d e : Datum}

theorem equal?_array (heap : Heap) (a b : Handle) :
    heap.equal? (.array a) (.array b) =
      if a = b then some true
      else if (heap.elements a).size ≠ (heap.elements b).size then some false
      else allEqual? heap.equal? (heap.elements a).toList (heap.elements b).toList := by
  have hbound := Comparison.answerWithin_bound_succ heap (.equality (.array a) (.array b))
  exact (Option.map_injective outcomeOfEqual_injective hbound).symm

theorem compare?_array (heap : Heap) (a b : Handle) :
    heap.compare? (.array a) (.array b) =
      if a = b then some (some .eq)
      else compareAll? heap.compare? (heap.elements a).toList (heap.elements b).toList :=
  (Comparison.answerWithin_bound_succ heap (.order (.array a) (.array b))).symm

/-! ## Values that hold data -/

theorem allEqual?_of_holds {f : Value → Value → Option Bool} {vs ws : List Value}
    {ds es : List Datum} (h : ∀ d ∈ ds, ∀ v w e, heap.Holds v d → heap.Holds w e →
      f v w = some (decide (d = e)))
    (hvs : List.Forall₂ heap.Holds vs ds) (hws : List.Forall₂ heap.Holds ws es) :
    allEqual? f vs ws = some (decide (ds = es)) := by
  induction hvs generalizing ws es with
  | nil => cases hws <;> simp [allEqual?]
  | @cons v d vs ds hv _ ih =>
    cases hws with
    | nil => simp [allEqual?]
    | @cons w e ws es hw hws =>
      have hrest := ih (fun d' hd => h d' (List.mem_cons_of_mem _ hd)) hws
      rw [allEqual?, h d (List.mem_cons_self ..) v w e hv hw]
      by_cases hfirst : d = e
      · simp [hfirst, hrest]
      · simp [hfirst]

theorem compareAll?_of_holds {f : Value → Value → Option (Option Ordering)} {vs ws : List Value}
    {ds es : List Datum} (h : ∀ d ∈ ds, ∀ v w e, heap.Holds v d → heap.Holds w e →
      f v w = some (d.compare? e))
    (hvs : List.Forall₂ heap.Holds vs ds) (hws : List.Forall₂ heap.Holds ws es) :
    compareAll? f vs ws = some (Datum.compareItems? ds es) := by
  induction hvs generalizing ws es with
  | nil => cases hws <;> rfl
  | @cons v d vs ds hv _ ih =>
    cases hws with
    | nil => rfl
    | @cons w e ws es hw hws =>
      have hrest := ih (fun d' hd => h d' (List.mem_cons_of_mem _ hd)) hws
      rw [compareAll?, Datum.compareItems?, h d (List.mem_cons_self ..) v w e hv hw]
      cases d.compare? e with
      | none => rfl
      | some o => cases o <;> simp [hrest]

theorem arrays_or_not (v w : Value) :
    (∃ a b, v = .array a ∧ w = .array b) ∨ v.kind ≠ .array ∨ w.kind ≠ .array := by
  cases v <;> cases w <;> simp [Value.kind]

/-- Values that are not both arrays are told apart at once. -/
theorem equalWithin_of_holds (hv : heap.Holds v d) (hw : heap.Holds w e)
    (hkind : v.kind ≠ .array ∨ w.kind ≠ .array) (depth : Nat) :
    heap.equalWithin (depth + 1) v w = some (decide (d = e)) := by
  cases v <;> cases w <;>
    simp only [holds_int, holds_bool, not_holds_float, holds_text, holds_array] at hv hw
  case array.array => simp [Value.kind] at hkind
  -- an array on one side
  case int.array | bool.array | text.array =>
    obtain ⟨items, rfl, -⟩ := hw
    subst hv
    simp [equalWithin, Value.number?]
  case array.int | array.bool | array.text =>
    obtain ⟨items, rfl, -⟩ := hv
    subst hw
    simp [equalWithin, Value.number?]
  -- numbers and texts
  all_goals
    subst hv hw
    simp [equalWithin, Value.number?, Number.equal, beq_eq_decide]

theorem compareWithin_of_holds (hv : heap.Holds v d) (hw : heap.Holds w e)
    (hkind : v.kind ≠ .array ∨ w.kind ≠ .array) (depth : Nat) :
    heap.compareWithin (depth + 1) v w = some (d.compare? e) := by
  cases v <;> cases w <;>
    simp only [holds_int, holds_bool, not_holds_float, holds_text, holds_array] at hv hw
  case array.array => simp [Value.kind] at hkind
  case int.array | bool.array | text.array =>
    obtain ⟨items, rfl, -⟩ := hw
    subst hv
    rfl
  case array.int | array.bool | array.text =>
    obtain ⟨items, rfl, -⟩ := hv
    subst hw
    rfl
  all_goals
    subst hv hw
    rfl

/-- Arrays are equal if their elements are, one by one. -/
theorem elements_equal_of_holds {f : Value → Value → Option Bool} {a b : Handle}
    {ds es : List Datum} (h : ∀ d ∈ ds, ∀ v w e, heap.Holds v d → heap.Holds w e →
      f v w = some (decide (d = e)))
    (hds : List.Forall₂ heap.Holds (heap.elements a).toList ds)
    (hes : List.Forall₂ heap.Holds (heap.elements b).toList es) :
    (if (heap.elements a).size ≠ (heap.elements b).size then some false
      else allEqual? f (heap.elements a).toList (heap.elements b).toList) =
        some (decide (Datum.list ds = Datum.list es)) := by
  split
  · next hsizes =>
    have hne : ds ≠ es := by
      rintro rfl
      exact hsizes (by simpa using hds.length_eq.trans hes.length_eq.symm)
    simp [hne]
  · simp [allEqual?_of_holds h hds hes]

/-- Induction on two values side by side: not both are arrays, or the elements of one go with those
    of the other. -/
@[elab_as_elim]
theorem Holds.inductionPair {motive : Value → Value → Datum → Datum → Prop}
    (apart : ∀ v w d e, heap.Holds v d → heap.Holds w e →
      v.kind ≠ .array ∨ w.kind ≠ .array → motive v w d e)
    (arrays : ∀ a b ds es, List.Forall₂ heap.Holds (heap.elements a).toList ds →
      List.Forall₂ heap.Holds (heap.elements b).toList es →
      (∀ d ∈ ds, ∀ v w e, heap.Holds v d → heap.Holds w e → motive v w d e) →
      motive (.array a) (.array b) (.list ds) (.list es))
    (hv : heap.Holds v d) (hw : heap.Holds w e) : motive v w d e := by
  induction d generalizing v w e with
  | list ds ih =>
    rcases arrays_or_not v w with ⟨a, b, rfl, rfl⟩ | hkind
    · obtain ⟨_, ⟨⟩, hds⟩ := holds_array.1 hv
      obtain ⟨es, rfl, hes⟩ := holds_array.1 hw
      exact arrays a b ds es hds hes fun d hd v w e => ih d hd
    · exact apart v w _ e hv hw hkind
  | _ =>
    have hkind : v.kind ≠ .array := fun hkind => by simpa using hv.kind_eq_array.1 hkind
    exact apart v w _ e hv hw (.inl hkind)

/-- Equality tells whether the values hold the same datum. -/
theorem equal?_of_holds (hv : heap.Holds v d) (hw : heap.Holds w e) :
    heap.equal? v w = some (decide (d = e)) := by
  refine Holds.inductionPair (fun v w d e hv hw hkind => ?_) (fun a b ds es hds hes ih => ?_) hv hw
  · exact equalWithin_of_holds hv hw hkind _
  · rw [equal?_array]
    by_cases hsame : a = b
    · -- no element has been looked at, but one array holds one datum
      subst hsame
      obtain rfl := items_unique hds hes
      simp
    · rw [if_neg hsame, elements_equal_of_holds ih hds hes]

/-- The order of the values is that of the data that they hold. -/
theorem compare?_of_holds (hv : heap.Holds v d) (hw : heap.Holds w e) :
    heap.compare? v w = some (d.compare? e) := by
  refine Holds.inductionPair (fun v w d e hv hw hkind => ?_) (fun a b ds es hds hes ih => ?_) hv hw
  · exact compareWithin_of_holds hv hw hkind _
  · rw [compare?_array]
    by_cases hsame : a = b
    · subst hsame
      obtain rfl := items_unique hds hes
      rw [if_pos rfl, Datum.compare?_eq_eq_iff.2 rfl]
    · rw [if_neg hsame, compareAll?_of_holds ih hds hes]
      rfl

/-! ## Element by element

The same comparisons without a shortcut: an array is compared with itself like with any other. -/

/-- Equality of values by their elements, `depth` levels of arrays deep. -/
def equalElementwise (heap : Heap) : (depth : Nat) → Value → Value → Option Bool
  | 0, _, _ => none
  | depth + 1, .array a, .array b =>
    if (heap.elements a).size ≠ (heap.elements b).size then some false
    else allEqual? (heap.equalElementwise depth) (heap.elements a).toList (heap.elements b).toList
  | depth + 1, left, right => heap.equalWithin (depth + 1) left right

/-- Order of values by their elements, `depth` levels of arrays deep. -/
def compareElementwise (heap : Heap) : (depth : Nat) → Value → Value → Option (Option Ordering)
  | 0, _, _ => none
  | depth + 1, .array a, .array b =>
    compareAll? (heap.compareElementwise depth) (heap.elements a).toList (heap.elements b).toList
  | depth + 1, left, right => heap.compareWithin (depth + 1) left right

theorem equalElementwise_of_holds (hv : heap.Holds v d) (hw : heap.Holds w e) :
    ∀ depth, sizeOf d ≤ depth → heap.equalElementwise (depth + 1) v w = some (decide (d = e)) := by
  refine Holds.inductionPair (fun v w d e hv hw hkind => ?_) (fun a b ds es hds hes ih => ?_) hv hw
  · intro depth _
    rw [equalElementwise]
    · exact equalWithin_of_holds hv hw hkind _
    · rintro a b rfl rfl
      simp [Value.kind] at hkind
  · intro depth hdepth
    rw [equalElementwise]
    refine elements_equal_of_holds (fun d hd v w e hv hw => ?_) hds hes
    have hlt := Datum.sizeOf_lt_of_mem hd
    obtain ⟨less, rfl⟩ : ∃ less, depth = less + 1 := ⟨depth - 1, by omega⟩
    exact ih d hd v w e hv hw less (by omega)

theorem compareElementwise_of_holds (hv : heap.Holds v d) (hw : heap.Holds w e) :
    ∀ depth, sizeOf d ≤ depth →
      heap.compareElementwise (depth + 1) v w = some (d.compare? e) := by
  refine Holds.inductionPair (fun v w d e hv hw hkind => ?_) (fun a b ds es hds hes ih => ?_) hv hw
  · intro depth _
    rw [compareElementwise]
    · exact compareWithin_of_holds hv hw hkind _
    · rintro a b rfl rfl
      simp [Value.kind] at hkind
  · intro depth hdepth
    rw [compareElementwise]
    refine compareAll?_of_holds (fun d hd v w e hv hw => ?_) hds hes
    have hlt := Datum.sizeOf_lt_of_mem hd
    obtain ⟨less, rfl⟩ : ∃ less, depth = less + 1 := ⟨depth - 1, by omega⟩
    exact ih d hd v w e hv hw less (by omega)

/-! ## The laws -/

/-- The operator gives this truth value. -/
def Tells (heap : Heap) (op : BinaryOp) (a b : Value) (answer : Bool) : Prop :=
  heap.apply op a b = some (.ok (.bool answer, heap))

/-- The order of the values is defined. -/
def Comparable (heap : Heap) (a b : Value) : Prop :=
  ∃ o, heap.compare? a b = some (some o)

/-- A value that leads to no float and to no array that contains itself. -/
def PlainValue (heap : Heap) : Type :=
  { v : Value // heap.Plain v }

/-- The laws of the comparisons of two values. -/
structure Lawful (heap : Heap) (a b : Value) : Prop where
  equal_answers : ∃ same, heap.Tells .equal a b same
  order_answers (r : Relation) : heap.Comparable a b → ∃ answer, heap.Tells (.order r) a b answer
  order_fails (r : Relation) : ¬heap.Comparable a b →
    heap.apply (.order r) a b = some (.error (.unsupportedOperands (.order r) a.kind b.kind))
  equal_iff : heap.Tells .equal a b true ↔
    heap.Comparable a b ∧ ¬heap.Tells (.order .less) a b true ∧
      ¬heap.Tells (.order .greater) a b true
  comparable_comm : heap.Comparable a b ↔ heap.Comparable b a
  less_iff : heap.Comparable a b →
    (heap.Tells (.order .less) a b true ↔ heap.Tells (.order .greater) b a true)
  lessEqual_iff : heap.Comparable a b →
    (heap.Tells (.order .lessEqual) a b true ↔ ¬heap.Tells (.order .greater) a b true)
  greaterEqual_iff : heap.Comparable a b →
    (heap.Tells (.order .greaterEqual) a b true ↔ ¬heap.Tells (.order .less) a b true)

section Laws

theorem tells_equal_iff (hv : heap.Holds v d) (hw : heap.Holds w e) {same : Bool} :
    heap.Tells .equal v w same ↔ decide (d = e) = same := by
  simp [Tells, apply, equal?_of_holds hv hw]

theorem tells_order_iff (hv : heap.Holds v d) (hw : heap.Holds w e) {r : Relation}
    {answer : Bool} :
    heap.Tells (.order r) v w answer ↔ ∃ o, d.compare? e = some o ∧ r.holds o = answer := by
  cases hanswer : d.compare? e <;> simp [Tells, apply, compare?_of_holds hv hw, hanswer]

theorem comparable_iff (hv : heap.Holds v d) (hw : heap.Holds w e) :
    heap.Comparable v w ↔ ∃ o, d.compare? e = some o := by
  simp [Comparable, compare?_of_holds hv hw]

/-- All four order operators read the one order of the data. -/
theorem lawful_of_holds (hv : heap.Holds v d) (hw : heap.Holds w e) : heap.Lawful v w where
  equal_answers := ⟨_, (tells_equal_iff hv hw).2 rfl⟩
  order_answers r hcomparable := by
    obtain ⟨o, ho⟩ := (comparable_iff hv hw).1 hcomparable
    exact ⟨_, (tells_order_iff hv hw).2 ⟨o, ho, rfl⟩⟩
  order_fails r hcomparable := by
    rw [comparable_iff hv hw] at hcomparable
    have hnone := Option.eq_none_iff_forall_ne_some.2 fun o ho => hcomparable ⟨o, ho⟩
    simp [apply, compare?_of_holds hv hw, hnone]
  equal_iff := by
    rw [tells_equal_iff hv hw, comparable_iff hv hw, tells_order_iff hv hw, tells_order_iff hv hw,
      decide_eq_true_iff, ← Datum.compare?_eq_eq_iff]
    cases d.compare? e with
    | none => simp
    | some o => cases o <;> simp [Relation.holds]
  comparable_comm := by
    rw [comparable_iff hv hw, comparable_iff hw hv, Datum.compare?_swap d e]
    cases d.compare? e <;> simp
  less_iff _ := by
    rw [tells_order_iff hv hw, tells_order_iff hw hv, Datum.compare?_swap d e]
    cases d.compare? e with
    | none => simp
    | some o => cases o <;> simp [Relation.holds]
  lessEqual_iff hcomparable := by
    obtain ⟨o, ho⟩ := (comparable_iff hv hw).1 hcomparable
    rw [tells_order_iff hv hw, tells_order_iff hv hw, ho]
    cases o <;> simp [Relation.holds]
  greaterEqual_iff hcomparable := by
    obtain ⟨o, ho⟩ := (comparable_iff hv hw).1 hcomparable
    rw [tells_order_iff hv hw, tells_order_iff hv hw, ho]
    cases o <;> simp [Relation.holds]

theorem tells_less_iff (hv : heap.Holds v d) (hw : heap.Holds w e) :
    heap.Tells (.order .less) v w true ↔ d.compare? e = some .lt := by
  rw [tells_order_iff hv hw]
  cases d.compare? e with
  | none => simp
  | some o => cases o <;> simp [Relation.holds]

end Laws

end Heap

/-- On values that lead to no float and no cycle the comparisons are lawful: equality is an
    equivalence, `<` a strict order, the operators agree with each other, equal values are ordered
    alike, and a comparison has the answer that it has element by element. -/
theorem comparisons_lawful (heap : Heap) :
    Equivalence (fun a b : heap.PlainValue => heap.Tells .equal a.1 b.1 true) ∧
      IsStrictOrder heap.PlainValue (fun a b => heap.Tells (.order .less) a.1 b.1 true) ∧
      (∀ a b : heap.PlainValue, heap.Lawful a.1 b.1) ∧
      (∀ a a' b b' : heap.PlainValue,
        heap.Tells .equal a.1 a'.1 true → heap.Tells .equal b.1 b'.1 true → ∀ r answer,
          (heap.Tells (.order r) a.1 b.1 answer ↔ heap.Tells (.order r) a'.1 b'.1 answer)) ∧
      ∀ a b : heap.PlainValue, ∃ depth, ∀ more,
        heap.equalElementwise (depth + more) a.1 b.1 = heap.equal? a.1 b.1 ∧
          heap.compareElementwise (depth + more) a.1 b.1 = heap.compare? a.1 b.1 := by
  choose datum hdatum using fun a : heap.PlainValue => Heap.plain_iff_exists_holds.1 a.2
  have hequal (a b : heap.PlainValue) : heap.Tells .equal a.1 b.1 true ↔ datum a = datum b := by
    rw [Heap.tells_equal_iff (hdatum a) (hdatum b), decide_eq_true_iff]
  have hless (a b : heap.PlainValue) := Heap.tells_less_iff (hdatum a) (hdatum b)
  have hequivalence : Equivalence fun a b : heap.PlainValue => heap.Tells .equal a.1 b.1 true :=
    { refl := fun a => (hequal a a).2 rfl
      symm := fun hab => (hequal _ _).2 ((hequal _ _).1 hab).symm
      trans := fun hab hbc => (hequal _ _).2 (((hequal _ _).1 hab).trans ((hequal _ _).1 hbc)) }
  have hstrict :
      IsStrictOrder heap.PlainValue fun a b => heap.Tells (.order .less) a.1 b.1 true :=
    { irrefl := fun a h => by
        have hself := Datum.compare?_eq_eq_iff.2 (rfl : datum a = datum a)
        simp [(hless a a).1 h] at hself
      trans := fun a b c hab hbc =>
        (hless a c).2 (Datum.compare?_lt_trans ((hless a b).1 hab) ((hless b c).1 hbc)) }
  refine ⟨hequivalence, hstrict, fun a b => Heap.lawful_of_holds (hdatum a) (hdatum b), ?_, ?_⟩
  · intro a a' b b' ha hb r answer
    rw [Heap.tells_order_iff (hdatum a) (hdatum b), Heap.tells_order_iff (hdatum a') (hdatum b'),
      (hequal a a').1 ha, (hequal b b').1 hb]
  · intro a b
    refine ⟨sizeOf (datum a) + 1, fun more => ?_⟩
    have hdepth : sizeOf (datum a) ≤ sizeOf (datum a) + more := Nat.le_add_right _ _
    rw [Nat.add_right_comm, Heap.equal?_of_holds (hdatum a) (hdatum b),
      Heap.compare?_of_holds (hdatum a) (hdatum b)]
    exact ⟨Heap.equalElementwise_of_holds (hdatum a) (hdatum b) _ hdepth,
      Heap.compareElementwise_of_holds (hdatum a) (hdatum b) _ hdepth⟩

/-- An array with shared elements, one that is written out, and one with a text in the place of a
    number. -/
def nestedArrays : Heap :=
  ⟨#[#[.int 1, .text "a"], #[.array ⟨0⟩, .array ⟨0⟩], #[.bool true, .text "a"],
    #[.array ⟨2⟩, .array ⟨0⟩], #[.array ⟨0⟩, .text "a"]]⟩

theorem nestedArrays_holds_shared :
    nestedArrays.Holds (.array ⟨1⟩)
      (.list [.list [.number 1, .text "a"], .list [.number 1, .text "a"]]) := by
  simp [nestedArrays, Heap.elements]

theorem nestedArrays_holds_written :
    nestedArrays.Holds (.array ⟨3⟩)
      (.list [.list [.number 1, .text "a"], .list [.number 1, .text "a"]]) := by
  simp [nestedArrays, Heap.elements, Value.ofBool]

theorem nestedArrays_holds_text :
    nestedArrays.Holds (.array ⟨4⟩) (.list [.list [.number 1, .text "a"], .text "a"]) := by
  simp [nestedArrays, Heap.elements]

/-- Two arrays that hold the same datum, and one whose order with them is not defined. -/
theorem comparisons_lawful_nested :
    nestedArrays.Plain (.array ⟨1⟩) ∧ nestedArrays.Plain (.array ⟨3⟩) ∧
      nestedArrays.Plain (.array ⟨4⟩) ∧
      nestedArrays.Tells .equal (.array ⟨1⟩) (.array ⟨3⟩) true ∧
      nestedArrays.Comparable (.array ⟨1⟩) (.array ⟨3⟩) ∧
      ¬nestedArrays.Tells (.order .less) (.array ⟨1⟩) (.array ⟨3⟩) true ∧
      ¬nestedArrays.Comparable (.array ⟨1⟩) (.array ⟨4⟩) ∧
      ¬nestedArrays.Comparable (.array ⟨4⟩) (.array ⟨1⟩) := by
  have hshared := Heap.plain_iff_exists_holds.2 ⟨_, nestedArrays_holds_shared⟩
  have hwritten := Heap.plain_iff_exists_holds.2 ⟨_, nestedArrays_holds_written⟩
  have htext := Heap.plain_iff_exists_holds.2 ⟨_, nestedArrays_holds_text⟩
  have hequal : nestedArrays.Tells .equal (.array ⟨1⟩) (.array ⟨3⟩) true := by
    unfold Heap.Tells
    cbv
  have hdiffer : ¬nestedArrays.Comparable (.array ⟨1⟩) (.array ⟨4⟩) := by
    have hanswer : nestedArrays.compare? (.array ⟨1⟩) (.array ⟨4⟩) = some none := by cbv
    rintro ⟨o, ho⟩
    simp [hanswer] at ho
  obtain ⟨-, -, hlawful, -, -⟩ := comparisons_lawful nestedArrays
  have hsame := (hlawful ⟨_, hshared⟩ ⟨_, hwritten⟩).equal_iff.1 hequal
  have hcomm := (hlawful ⟨_, hshared⟩ ⟨_, htext⟩).comparable_comm
  exact ⟨hshared, hwritten, htext, hequal, hsame.1, hsame.2.1, hdiffer,
    fun hback => hdiffer (hcomm.2 hback)⟩

end Scriptlet
