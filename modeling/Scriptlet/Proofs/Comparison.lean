import Mathlib.Data.Fintype.Card
import Mathlib.Data.Fintype.Prod
import Mathlib.Order.WellFounded
import Scriptlet.Proofs.Tasks

set_option autoImplicit false

/-! # Comparisons that end

A comparison of two arrays asks for comparisons of their elements, place by place, until one settles
it. With one level more it has an answer if and only if everything that it asks for has one with the
level less (`answerWithin_succ_eq_none_iff`), and everything about its end follows from that. One
that ends takes as many levels as the longest way down, and no pair of arrays is on such a way
twice, since a pair takes a certain number of levels. So it ends within the bound
(`ends_iff_isDecided`). One that does not end asks for one that does not end either, and there are
finitely many pairs of arrays: some pair asks for itself again, and both of its arrays contain
themselves (`exists_selfContaining_of_not_ends`). -/

namespace Scriptlet

/-! ## Lists of elements -/

/-- Comparing two lists comes to two elements at the same place: those in front of them are the
    same. -/
inductive Meets (same : Value → Value → Prop) : List Value → List Value → Value → Value → Prop
  | head (a b : Value) (as bs : List Value) : Meets same (a :: as) (b :: bs) a b
  | tail {a b x y : Value} {as bs : List Value} :
      same a b → Meets same as bs x y → Meets same (a :: as) (b :: bs) x y

namespace Meets

variable {same same' : Value → Value → Prop} {as bs : List Value} {x y : Value}

theorem mono (h : ∀ a b, same a b → same' a b) (hmeets : Meets same as bs x y) :
    Meets same' as bs x y := by
  induction hmeets with
  | head => exact .head _ _ _ _
  | tail hsame _ ih => exact .tail (h _ _ hsame) ih

theorem mem (h : Meets same as bs x y) : x ∈ as ∧ y ∈ bs := by
  induction h with
  | head => exact ⟨List.mem_cons_self .., List.mem_cons_self ..⟩
  | tail _ _ ih => exact ⟨List.mem_cons_of_mem _ ih.1, List.mem_cons_of_mem _ ih.2⟩

end Meets

/-- Equality as an order in which values are the same or cannot be compared. -/
def outcomeOfEqual (same : Bool) : Option Ordering :=
  if same then some .eq else none

section Lists

variable {f g : Value → Value → Option (Option Ordering)}

/-- Lists of one length are tested for equality the way they are compared. -/
theorem allEqual?_map {f : Value → Value → Option Bool} {as bs : List Value}
    (h : as.length = bs.length) :
    (allEqual? f as bs).map outcomeOfEqual =
      compareAll? (fun a b => (f a b).map outcomeOfEqual) as bs := by
  induction as generalizing bs with
  | nil =>
    obtain rfl : bs = [] := List.length_eq_zero_iff.1 h.symm
    rfl
  | cons a as ih =>
    cases bs with
    | nil => exact absurd h (by simp)
    | cons b bs =>
      have hlength : as.length = bs.length := by simpa using h
      unfold allEqual? compareAll?
      cases f a b with
      | none => rfl
      | some same =>
        cases same with
        | false => rfl
        | true => exact ih hlength

theorem compareAll?_mono (h : ∀ a b r, f a b = some r → g a b = some r) {as bs : List Value}
    {r : Option Ordering} (hf : compareAll? f as bs = some r) : compareAll? g as bs = some r := by
  induction as generalizing bs with
  | nil => cases bs <;> exact hf
  | cons a as ih =>
    cases bs with
    | nil => exact hf
    | cons b bs =>
      unfold compareAll? at hf ⊢
      cases hab : f a b with
      | none => exact absurd hf (by simp [hab])
      | some answer =>
        rw [hab] at hf
        rw [h a b answer hab]
        split at hf
        · exact ih hf
        · exact hf

theorem exists_of_compareAll?_eq_none {as bs : List Value} (h : compareAll? f as bs = none) :
    ∃ x y, Meets (fun a b => f a b = some (some .eq)) as bs x y ∧ f x y = none := by
  induction as generalizing bs with
  | nil => cases bs <;> exact absurd h (by simp [compareAll?])
  | cons a as ih =>
    cases bs with
    | nil => exact absurd h (by simp [compareAll?])
    | cons b bs =>
      unfold compareAll? at h
      split at h
      · next hab =>
        obtain ⟨x, y, hmeets, hnone⟩ := ih h
        exact ⟨x, y, .tail hab hmeets, hnone⟩
      · exact ⟨a, b, .head _ _ _ _, h⟩

/-- What is in front need not have an answer, as long as it has no other one. -/
theorem compareAll?_eq_none {as bs : List Value} {x y : Value}
    (hmeets : Meets (fun a b => ∀ r, f a b = some r → r = some .eq) as bs x y)
    (h : f x y = none) : compareAll? f as bs = none := by
  induction hmeets with
  | head => simp [compareAll?, h]
  | @tail a b _ _ _ _ hsame _ ih =>
    unfold compareAll?
    cases hab : f a b with
    | none => rfl
    | some r =>
      obtain rfl := hsame r hab
      exact ih h

end Lists

/-! ## Levels of a comparison -/

namespace Comparison

variable {heap : Heap} {c c' : Comparison} {depth : Nat}

def left : Comparison → Value
  | equality left _ | order left _ => left

def right : Comparison → Value
  | equality _ right | order _ right => right

/-- The same comparison of other values. -/
def on : Comparison → Value → Value → Comparison
  | equality _ _, left, right => equality left right
  | order _ _, left, right => order left right

@[simp]
theorem on_on (c : Comparison) (a b x y : Value) : (c.on a b).on x y = c.on x y := by
  cases c <;> rfl

@[simp]
theorem left_on (c : Comparison) (a b : Value) : (c.on a b).left = a := by
  cases c <;> rfl

@[simp]
theorem right_on (c : Comparison) (a b : Value) : (c.on a b).right = b := by
  cases c <;> rfl

/-- The answer with so many levels of arrays. -/
def answerWithin (heap : Heap) (depth : Nat) : Comparison → Option (Option Ordering)
  | equality left right => (heap.equalWithin depth left right).map outcomeOfEqual
  | order left right => heap.compareWithin depth left right

/-- The comparison ends: with enough levels it has an answer. -/
def Ends (heap : Heap) (c : Comparison) : Prop :=
  ∃ depth, c.answerWithin heap depth ≠ none

/-- The comparison goes through the two lists element by element. An array is not compared with
    itself, and arrays of different sizes are not equal without a look at the elements. -/
inductive Members (heap : Heap) : Comparison → List Value → List Value → Prop
  | equality {a b : Handle} : a ≠ b → (heap.elements a).size = (heap.elements b).size →
      Members heap (.equality (.array a) (.array b)) (heap.elements a).toList
        (heap.elements b).toList
  | order {a b : Handle} : a ≠ b →
      Members heap (.order (.array a) (.array b)) (heap.elements a).toList (heap.elements b).toList

/-- The comparison asks for another one: of two elements at the same place, behind elements that are
    the same. -/
def Asks (heap : Heap) (c c' : Comparison) : Prop :=
  ∃ as bs x y, c.Members heap as bs ∧
    Meets (fun a b => ∃ depth, (c.on a b).answerWithin heap depth = some (some .eq)) as bs x y ∧
      c' = c.on x y

/-- Only two different arrays are compared element by element. -/
theorem Members.eq_on {as bs : List Value} (h : c.Members heap as bs) :
    ∃ a b, a ≠ b ∧ c = c.on (.array a) (.array b) ∧ as = (heap.elements a).toList ∧
      bs = (heap.elements b).toList := by
  cases h with
  | equality hne _ => exact ⟨_, _, hne, rfl, rfl, rfl⟩
  | order hne => exact ⟨_, _, hne, rfl, rfl, rfl⟩

@[simp]
theorem answerWithin_zero (heap : Heap) (c : Comparison) : c.answerWithin heap 0 = none := by
  cases c <;> rfl

theorem Members.answerWithin_succ {as bs : List Value} (h : c.Members heap as bs) (depth : Nat) :
    c.answerWithin heap (depth + 1) =
      compareAll? (fun a b => (c.on a b).answerWithin heap depth) as bs := by
  cases h with
  | @equality a b hne hsizes =>
    have hlength : (heap.elements a).toList.length = (heap.elements b).toList.length := by
      simpa using hsizes
    have hlists := allEqual?_map (f := heap.equalWithin depth) hlength
    simpa [answerWithin, Heap.equalWithin, hne, hsizes, on] using hlists
  | order hne => simp [answerWithin, Heap.compareWithin, hne, on]

/-- Where no elements are compared, one level is enough. -/
theorem exists_answer (h : ¬∃ as bs, c.Members heap as bs) :
    ∃ answer, ∀ depth, c.answerWithin heap (depth + 1) = some answer := by
  cases c with
  | equality left right =>
    cases left <;> cases right
    case array.array a b =>
      by_cases hsame : a = b
      · exact ⟨some .eq, fun _ => by simp [answerWithin, Heap.equalWithin, hsame, outcomeOfEqual]⟩
      · have hsizes : (heap.elements a).size ≠ (heap.elements b).size := fun hsizes =>
          h ⟨_, _, .equality hsame hsizes⟩
        refine ⟨none, fun _ => ?_⟩
        simp [answerWithin, Heap.equalWithin, hsame, hsizes, outcomeOfEqual]
    all_goals exact ⟨_, fun _ => rfl⟩
  | order left right =>
    cases left <;> cases right
    case array.array a b =>
      have hsame : a = b := Classical.byContradiction fun hne => h ⟨_, _, .order hne⟩
      exact ⟨some .eq, fun _ => by simp [answerWithin, Heap.compareWithin, hsame]⟩
    all_goals exact ⟨_, fun _ => rfl⟩

/-! ## More levels -/

theorem answerWithin_succ {r : Option Ordering} (h : c.answerWithin heap depth = some r) :
    c.answerWithin heap (depth + 1) = some r := by
  induction depth generalizing c r with
  | zero => exact absurd h (by simp)
  | succ depth ih =>
    by_cases hmembers : ∃ as bs, c.Members heap as bs
    · obtain ⟨as, bs, hmembers⟩ := hmembers
      rw [hmembers.answerWithin_succ] at h ⊢
      exact compareAll?_mono (fun _ _ _ => ih) h
    · obtain ⟨answer, hanswer⟩ := exists_answer hmembers
      rw [hanswer] at h ⊢
      exact h

theorem answerWithin_mono {depth' : Nat} (hle : depth ≤ depth') {r : Option Ordering}
    (h : c.answerWithin heap depth = some r) : c.answerWithin heap depth' = some r := by
  induction hle with
  | refl => exact h
  | step _ ih => exact answerWithin_succ ih

theorem answerWithin_agree {depth' : Nat} {r r' : Option Ordering}
    (h : c.answerWithin heap depth = some r) (h' : c.answerWithin heap depth' = some r') :
    r = r' := by
  have hmax := answerWithin_mono (Nat.le_max_left depth depth') h
  rw [answerWithin_mono (Nat.le_max_right depth depth') h'] at hmax
  exact (Option.some.inj hmax).symm

/-- The step: with one level more, the comparison has no answer exactly if something that it asks
    for has none with the level less. -/
theorem answerWithin_succ_eq_none_iff :
    c.answerWithin heap (depth + 1) = none ↔
      ∃ c', c.Asks heap c' ∧ c'.answerWithin heap depth = none := by
  constructor
  · intro h
    by_cases hmembers : ∃ as bs, c.Members heap as bs
    · obtain ⟨as, bs, hmembers⟩ := hmembers
      rw [hmembers.answerWithin_succ] at h
      obtain ⟨x, y, hmeets, hnone⟩ := exists_of_compareAll?_eq_none h
      exact ⟨c.on x y, ⟨as, bs, x, y, hmembers, hmeets.mono fun _ _ h => ⟨depth, h⟩, rfl⟩, hnone⟩
    · obtain ⟨answer, hanswer⟩ := exists_answer hmembers
      exact absurd h (by simp [hanswer])
  · rintro ⟨c', ⟨as, bs, x, y, hmembers, hmeets, rfl⟩, hnone⟩
    rw [hmembers.answerWithin_succ]
    refine compareAll?_eq_none (hmeets.mono fun a b hsame r hr => ?_) hnone
    obtain ⟨depth', hsame⟩ := hsame
    exact answerWithin_agree hr hsame

/-! ## The bound -/

/-- The comparison needs more levels than these, but only one more. -/
def Outlasts (heap : Heap) (c : Comparison) (depth : Nat) : Prop :=
  c.answerWithin heap depth = none ∧ c.answerWithin heap (depth + 1) ≠ none

theorem Outlasts.unique {depth' : Nat} (h : c.Outlasts heap depth) (h' : c.Outlasts heap depth') :
    depth = depth' := by
  have hle {m n : Nat} (hm : c.Outlasts heap m) (hn : c.Outlasts heap n) : m ≤ n := by
    refine Nat.le_of_not_lt fun hlt => ?_
    obtain ⟨r, hr⟩ := Option.ne_none_iff_exists'.1 hn.2
    have hanswer := answerWithin_mono hlt hr
    rw [hm.1] at hanswer
    exact absurd hanswer (by simp)
  exact Nat.le_antisymm (hle h h') (hle h' h)

theorem Outlasts.asks (h : c.Outlasts heap (depth + 1)) :
    ∃ c', c.Asks heap c' ∧ c'.Outlasts heap depth := by
  obtain ⟨c', hasks, hnone⟩ := answerWithin_succ_eq_none_iff.1 h.1
  refine ⟨c', hasks, hnone, fun hmore => ?_⟩
  exact h.2 (answerWithin_succ_eq_none_iff.2 ⟨c', hasks, hmore⟩)

theorem Ends.exists_outlasts (h : c.Ends heap) : ∃ depth, c.Outlasts heap depth := by
  obtain ⟨depth, hdepth⟩ := h
  induction depth with
  | zero => exact absurd (answerWithin_zero heap c) hdepth
  | succ depth ih =>
    by_cases hless : c.answerWithin heap depth = none
    · exact ⟨depth, hless, hdepth⟩
    · exact ih hless

/-- A pair of arrays of the heap. -/
abbrev Pair (heap : Heap) : Type :=
  Fin heap.cells.size × Fin heap.cells.size

/-- The same comparison of a pair of arrays. -/
def onPair (c : Comparison) (p : Pair heap) : Comparison :=
  c.on (.array ⟨p.1⟩) (.array ⟨p.2⟩)

/-- What asks for anything compares a pair of arrays of the heap. -/
theorem Asks.exists_onPair (h : c.Asks heap c') : ∃ p : Pair heap, c = c.onPair p := by
  obtain ⟨as, bs, x, y, hmembers, hmeets, -⟩ := h
  obtain ⟨a, b, -, hc, rfl, rfl⟩ := hmembers.eq_on
  have hrange {h : Handle} {v : Value} (hv : v ∈ (heap.elements h).toList) :
      h.index < heap.cells.size := by
    by_cases hlt : h.index < heap.cells.size
    · exact hlt
    · exact absurd hv (by simp [Heap.elements, Array.getD, hlt])
  exact ⟨(⟨a.index, hrange hmeets.mem.1⟩, ⟨b.index, hrange hmeets.mem.2⟩), hc⟩

@[simp]
theorem onPair_on (c : Comparison) (a b : Value) (p : Pair heap) :
    (c.on a b).onPair p = c.onPair p :=
  on_on c a b _ _

/-- On the way down, each number of levels is needed by some pair. -/
theorem Outlasts.exists_onPair (h : c.Outlasts heap depth) (k : Fin depth) :
    ∃ p : Pair heap, (c.onPair p).Outlasts heap (k + 1) := by
  induction depth generalizing c with
  | zero => exact k.elim0
  | succ depth ih =>
    obtain ⟨c', hasks, hlasts⟩ := h.asks
    by_cases hlast : k.val = depth
    · obtain ⟨p, hp⟩ := hasks.exists_onPair
      exact ⟨p, by rw [hlast, ← hp]; exact h⟩
    · obtain ⟨_, _, x, y, -, -, rfl⟩ := hasks
      have hk : k.val < depth := by omega
      obtain ⟨p, hp⟩ := ih hlasts ⟨k.val, hk⟩
      exact ⟨p, by simpa using hp⟩

/-- There are not enough pairs for more. -/
theorem Outlasts.le (h : c.Outlasts heap depth) :
    depth ≤ heap.cells.size * heap.cells.size := by
  choose pair hpair using h.exists_onPair
  have hinjective : Function.Injective pair := by
    intro j k heq
    have hj := hpair j
    rw [heq] at hj
    exact Fin.ext (Nat.succ.inj (hj.unique (hpair k)))
  simpa using Fintype.card_le_of_injective pair hinjective

theorem isDecided_iff :
    c.isDecided heap = true ↔ c.answerWithin heap heap.comparisonBound ≠ none := by
  cases c <;> simp [isDecided, answerWithin, Heap.equal?, Heap.compare?, Option.isSome_iff_ne_none]

/-- The bound is high enough: a comparison has an answer exactly if it ends. -/
theorem ends_iff_isDecided : c.Ends heap ↔ c.isDecided heap = true := by
  rw [isDecided_iff]
  constructor
  · intro h
    obtain ⟨depth, hlasts⟩ := h.exists_outlasts
    obtain ⟨r, hr⟩ := Option.ne_none_iff_exists'.1 hlasts.2
    have hbound : depth + 1 ≤ heap.comparisonBound := by
      have hle := hlasts.le
      unfold Heap.comparisonBound
      omega
    rw [answerWithin_mono hbound hr]
    exact Option.some_ne_none r
  · intro h
    exact ⟨heap.comparisonBound, h⟩

end Comparison

/-! ## Arrays that contain themselves -/

/-- With finitely many steps to choose from, going on forever leads in a circle. -/
theorem exists_transGen_self {α : Type} [Finite α] {r : α → α → Prop} (start : α)
    (hnext : ∀ a, ∃ b, r a b) : ∃ a, Relation.TransGen r a a := by
  refine Classical.byContradiction fun hnone => ?_
  -- otherwise going back is a well-founded order, and there is a last one
  have htrans : IsTrans α fun a b => Relation.TransGen r b a :=
    ⟨fun _ _ _ hab hbc => hbc.trans hab⟩
  have hirrefl : Std.Irrefl fun a b => Relation.TransGen r b a := ⟨fun a ha => hnone ⟨a, ha⟩⟩
  have hwf := Finite.wellFounded_of_trans_of_irrefl fun a b => Relation.TransGen r b a
  obtain ⟨last, -, hlast⟩ := hwf.has_min Set.univ ⟨start, trivial⟩
  obtain ⟨next, hstep⟩ := hnext last
  exact hlast next trivial (.single hstep)

/-- The first value is an array and the second one is among its elements. -/
def Heap.HasElement (heap : Heap) (v w : Value) : Prop :=
  ∃ h, v = .array h ∧ w ∈ (heap.elements h).toList

/-- The value is an array that is found among its elements, or their elements, and so on. -/
def Heap.SelfContaining (heap : Heap) (v : Value) : Prop :=
  Relation.TransGen heap.HasElement v v

namespace Comparison

variable {heap : Heap} {c c' : Comparison}

theorem Asks.hasElement (h : c.Asks heap c') :
    heap.HasElement c.left c'.left ∧ heap.HasElement c.right c'.right ∧ c.left ≠ c.right := by
  obtain ⟨as, bs, x, y, hmembers, hmeets, rfl⟩ := h
  obtain ⟨a, b, hne, hc, rfl, rfl⟩ := hmembers.eq_on
  rw [hc]
  simp only [left_on, right_on]
  refine ⟨⟨a, rfl, hmeets.mem.1⟩, ⟨b, rfl, hmeets.mem.2⟩, fun heq => hne ?_⟩
  exact Value.array.inj heq

/-- A comparison that does not end asks for one that does not end either. -/
theorem exists_asks_of_not_ends (h : ¬c.Ends heap) : ∃ c', c.Asks heap c' ∧ ¬c'.Ends heap := by
  have hnone : c.answerWithin heap (heap.comparisonBound + 1) = none :=
    Classical.byContradiction fun hanswer => h ⟨_, hanswer⟩
  obtain ⟨c', hasks, hnone'⟩ := answerWithin_succ_eq_none_iff.1 hnone
  refine ⟨c', hasks, fun hends => ?_⟩
  exact isDecided_iff.1 (ends_iff_isDecided.1 hends) hnone'

/-- What a comparison comes to is of its kind. -/
theorem onPair_eq (h : Relation.ReflTransGen (Asks heap) c c') (p : Pair heap) :
    c'.onPair p = c.onPair p := by
  induction h with
  | refl => rfl
  | tail _ hasks ih =>
    obtain ⟨_, _, x, y, -, -, rfl⟩ := hasks
    rw [onPair_on, ih]

/-- The pairs that the comparison comes to and at which it does not end. -/
def EndlessPair (heap : Heap) (c : Comparison) : Type :=
  { p : Pair heap // Relation.ReflTransGen (Asks heap) c (c.onPair p) ∧ ¬(c.onPair p).Ends heap }

instance : Finite (EndlessPair heap c) :=
  inferInstanceAs (Finite { _p : Pair heap // _ })

/-- What is asked for at the pair. -/
def EndlessPair.comparison (p : EndlessPair heap c) : Comparison :=
  c.onPair p.1

theorem exists_endlessPair (hreach : Relation.ReflTransGen (Asks heap) c c')
    (h : ¬c'.Ends heap) : ∃ p : EndlessPair heap c, p.comparison = c' := by
  obtain ⟨_, hasks, -⟩ := exists_asks_of_not_ends h
  obtain ⟨p, hp⟩ := hasks.exists_onPair
  rw [onPair_eq hreach] at hp
  subst hp
  exact ⟨⟨p, hreach, h⟩, rfl⟩

/-- There are finitely many pairs of arrays, so a comparison that goes on forever comes to one
    that asks for itself again. -/
theorem exists_asks_again (h : ¬c.Ends heap) :
    ∃ c', Relation.ReflTransGen (Asks heap) c c' ∧ Relation.TransGen (Asks heap) c' c' := by
  obtain ⟨start, -⟩ := exists_endlessPair .refl h
  have hnext (p : EndlessPair heap c) :
      ∃ q : EndlessPair heap c, p.comparison.Asks heap q.comparison := by
    obtain ⟨c', hasks, hends⟩ := exists_asks_of_not_ends p.2.2
    obtain ⟨q, rfl⟩ := exists_endlessPair (p.2.1.tail hasks) hends
    exact ⟨q, hasks⟩
  obtain ⟨p, hp⟩ := exists_transGen_self start hnext
  exact ⟨p.comparison, p.2.1, hp.lift EndlessPair.comparison fun _ _ hasks => hasks⟩

/-- Only a comparison that comes to two different arrays which both contain themselves may not
    end. -/
theorem exists_selfContaining_of_not_ends (h : ¬c.Ends heap) :
    ∃ c', Relation.ReflTransGen (Asks heap) c c' ∧ c'.left ≠ c'.right ∧
      heap.SelfContaining c'.left ∧ heap.SelfContaining c'.right := by
  obtain ⟨c', hreach, hagain⟩ := exists_asks_again h
  obtain ⟨_, hasks, -⟩ := Relation.TransGen.head'_iff.1 hagain
  refine ⟨c', hreach, hasks.hasElement.2.2, ?_, ?_⟩
  · exact hagain.lift left fun _ _ hasks => hasks.hasElement.1
  · exact hagain.lift right fun _ _ hasks => hasks.hasElement.2.1

end Comparison

end Scriptlet
