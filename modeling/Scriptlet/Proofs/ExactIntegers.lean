import Mathlib.Algebra.Ring.Int.Defs
import Scriptlet.Proofs.Ends

set_option autoImplicit false

/-! # Whole numbers: exact or an overflow

Sums, differences and products of whole numbers are computed in words of 64 bits. They never wrap
around: a tree of such operators either has a value, and that is the number which the tree means, or
it ends with an overflow (`evaluates_exactly_or_overflows`). The overflow is that of the first node
whose number does not fit into a word, in the order in which operators are applied, which is
post-order. An inner node that does not fit is not made good by an operator above it.

The result of a single operator is decided by whether the exact number fits (`applyBinary_of_fits`,
`applyBinary_of_not_fits`). Both halves of the theorem are inductions on the tree: as long as
everything fits nothing ends early (`ends_exact`), and the first node in post-order that does not
fit is met before any later one (`ends_overflow`). -/

namespace Scriptlet

/-! ## Numbers that fit -/

/-- The number is that of a word. -/
def FitsWord (n : Int) : Prop :=
  -2 ^ 63 ≤ n ∧ n < 2 ^ 63

instance (n : Int) : Decidable (FitsWord n) :=
  inferInstanceAs (Decidable (_ ∧ _))

theorem fitsWord_toInt (n : Int64) : FitsWord n.toInt :=
  ⟨n.le_toInt, n.toInt_lt⟩

theorem wordOf?_of_fits {n : Int} (h : FitsWord n) : ∃ w, wordOf? n = some w ∧ w.toInt = n := by
  have hle : n ≤ Int64.maxValue.toInt := Int.le_of_lt_add_one h.2
  have hword : wordOf? n = some (.ofInt n) := if_pos ⟨h.1, hle⟩
  exact ⟨.ofInt n, hword, toInt_of_wordOf? hword⟩

theorem wordOf?_of_not_fits {n : Int} (h : ¬FitsWord n) : wordOf? n = none := by
  cases hword : wordOf? n with
  | none => rfl
  | some w =>
    have hfits : FitsWord n := toInt_of_wordOf? hword ▸ fitsWord_toInt w
    exact absurd hfits h

/-! ## Trees -/

/-- The operators that make whole numbers of whole numbers. -/
inductive WholeOp where
  | add | subtract | multiply
deriving DecidableEq, Repr

namespace WholeOp

/-- The operator of the language. -/
def arithmetic : WholeOp → Arithmetic
  | add => .add
  | subtract => .subtract
  | multiply => .multiply

/-- The operator on numbers of any size. -/
def exact : WholeOp → Int → Int → Int
  | add => (· + ·)
  | subtract => (· - ·)
  | multiply => (· * ·)

end WholeOp

/-- An expression of literals for whole numbers with `+`, `-` and `*`. -/
inductive WholeExpr where
  | literal (n : Int64)
  | node (op : WholeOp) (left right : WholeExpr)
deriving DecidableEq

namespace WholeExpr

/-- The expression of the language. -/
def expr : WholeExpr → Expr
  | literal n => .int n
  | node op left right => .binary (.arithmetic op.arithmetic) left.expr right.expr

/-- The number that the tree means. -/
def exact : WholeExpr → Int
  | literal n => n.toInt
  | node op left right => op.exact left.exact right.exact

/-- All subtrees, each one behind those of its operands, and the left operand first. -/
def postorder : WholeExpr → List WholeExpr
  | literal n => [literal n]
  | node op left right => left.postorder ++ right.postorder ++ [node op left right]

/-- The first subtree in post-order whose number does not fit. -/
def firstUnfit? (t : WholeExpr) : Option WholeExpr :=
  t.postorder.find? fun u => !decide (FitsWord u.exact)

theorem firstUnfit?_node (op : WholeOp) (left right : WholeExpr) :
    (node op left right).firstUnfit? = (left.firstUnfit?.or right.firstUnfit?).or
      (if FitsWord (op.exact left.exact right.exact) then none else some (node op left right)) := by
  simp only [firstUnfit?, postorder, List.find?_append, List.find?_singleton]
  by_cases h : FitsWord (op.exact left.exact right.exact) <;> simp [exact, h]

theorem firstUnfit?_literal (n : Int64) : (literal n).firstUnfit? = none := by
  simp [firstUnfit?, postorder, exact, fitsWord_toInt n]

theorem firstUnfit?_eq_none_iff {t : WholeExpr} :
    t.firstUnfit? = none ↔ ∀ u ∈ t.postorder, FitsWord u.exact := by
  simp [firstUnfit?]

end WholeExpr

/-! ## Operators -/

/-- On whole numbers, an operator is the exact one or fails. -/
theorem Heap.arithmetic_whole (heap : Heap) (op : WholeOp) (a b : Int64) :
    heap.arithmetic op.arithmetic (.int a) (.int b) =
      match wordOf? (op.exact a.toInt b.toInt) with
      | some n => .ok (.int n, heap)
      | none => .error (.overflow op.arithmetic) := by
  have hnumbers : heap.arithmetic op.arithmetic (.int a) (.int b) =
      ((Number.apply op.arithmetic (.int a) (.int b)).map Number.toValue).map (·, heap) := by
    cases op <;> rfl
  have happly : Number.apply op.arithmetic (.int a) (.int b) =
      match wordOf? (op.exact a.toInt b.toInt) with
      | some n => .ok (.int n)
      | none => .error (.overflow op.arithmetic) := by
    cases op <;> rfl
  rw [hnumbers, happly]
  cases wordOf? (op.exact a.toInt b.toInt) <;> rfl

namespace Eval

theorem applyBinary_of_fits {op : WholeOp} {a b : Int64} (h : FitsWord (op.exact a.toInt b.toInt))
    (s : Session) :
    ∃ n, applyBinary (.arithmetic op.arithmetic) (.int a) (.int b) s = some (.ok (.int n), s) ∧
      n.toInt = op.exact a.toInt b.toInt := by
  obtain ⟨n, hword, hexact⟩ := wordOf?_of_fits h
  refine ⟨n, ?_, hexact⟩
  rw [applyBinary_arithmetic, Heap.arithmetic_whole, hword]

theorem applyBinary_of_not_fits {op : WholeOp} {a b : Int64}
    (h : ¬FitsWord (op.exact a.toInt b.toInt)) (s : Session) :
    applyBinary (.arithmetic op.arithmetic) (.int a) (.int b) s =
      some (.error (.overflow op.arithmetic), s) := by
  rw [applyBinary_arithmetic, Heap.arithmetic_whole, wordOf?_of_not_fits h]

/-! ## Evaluation -/

/-- Where every subtree fits, the tree has the value that it means. -/
theorem ends_exact {t : WholeExpr} (h : t.firstUnfit? = none) (settings : Settings) (s : Session) :
    ∃ n, Ends (evaluate settings · t.expr) s (.ok (.int n)) s ∧ n.toInt = t.exact := by
  induction t with
  | literal n => exact ⟨n, ends_int n, rfl⟩
  | node op left right ihl ihr =>
    rw [WholeExpr.firstUnfit?_node, Option.or_eq_none_iff, Option.or_eq_none_iff] at h
    obtain ⟨⟨hleft, hright⟩, hself⟩ := h
    obtain ⟨a, hendl, hexactl⟩ := ihl hleft
    obtain ⟨b, hendr, hexactr⟩ := ihr hright
    by_cases hfits : FitsWord (op.exact left.exact right.exact)
    · rw [← hexactl, ← hexactr] at hfits
      obtain ⟨n, happly, hexact⟩ := applyBinary_of_fits hfits s
      refine ⟨n, ends_binary_iff.2 (.inr ⟨_, _, hendl, .inr ⟨_, _, hendr, happly⟩⟩), ?_⟩
      rw [hexact, hexactl, hexactr]
      rfl
    · exact absurd hself (by simp [hfits])

/-- The first subtree in post-order that does not fit ends the evaluation. -/
theorem ends_overflow {t u : WholeExpr} (h : t.firstUnfit? = some u) (settings : Settings)
    (s : Session) :
    ∃ op left right, u = .node op left right ∧
      Ends (evaluate settings · t.expr) s (.error (.overflow op.arithmetic)) s := by
  induction t with
  | literal n => exact absurd h (by simp [WholeExpr.firstUnfit?_literal])
  | node op left right ihl ihr =>
    rw [WholeExpr.firstUnfit?_node] at h
    cases hleft : left.firstUnfit? with
    | some u' =>
      rw [hleft, Option.some_or, Option.some_or] at h
      obtain ⟨op', l, r, hu, hend⟩ := ihl (hleft.trans h)
      exact ⟨op', l, r, hu, ends_binary_iff.2 (.inl ⟨_, hend, rfl⟩)⟩
    | none =>
      obtain ⟨a, hendl, hexactl⟩ := ends_exact hleft settings s
      cases hright : right.firstUnfit? with
      | some u' =>
        rw [hleft, hright, Option.none_or, Option.some_or] at h
        obtain ⟨op', l, r, hu, hend⟩ := ihr (hright.trans h)
        exact ⟨op', l, r, hu,
          ends_binary_iff.2 (.inr ⟨_, _, hendl, .inl ⟨_, hend, rfl⟩⟩)⟩
      | none =>
        obtain ⟨b, hendr, hexactr⟩ := ends_exact hright settings s
        rw [hleft, hright, Option.none_or, Option.none_or] at h
        by_cases hfits : FitsWord (op.exact left.exact right.exact)
        · exact absurd h (by simp [hfits])
        · rw [if_neg hfits, Option.some.injEq] at h
          rw [← hexactl, ← hexactr] at hfits
          exact ⟨op, left, right, h.symm, ends_binary_iff.2
            (.inr ⟨_, _, hendl, .inr ⟨_, _, hendr, applyBinary_of_not_fits hfits s⟩⟩)⟩

end Eval

open Eval

/-- **Trees of `+`, `-` and `*` are exact or overflow.** In every session, the evaluation of a tree
    ends in exactly one way, and the session is what it was. It gives the number that the tree means
    if and only if the number of every subtree is one of a word of 64 bits; it never gives another
    value. Otherwise it is an overflow of the operator of a subtree, the first one in post-order
    whose number does not fit. -/
theorem evaluates_exactly_or_overflows (settings : Settings) (t : WholeExpr) (s : Session) :
    ∃ r, Ends (evaluate settings · t.expr) s r s ∧
      (∀ r' s', Ends (evaluate settings · t.expr) s r' s' → r' = r ∧ s' = s) ∧
      ((∃ n, r = .ok (.int n) ∧ n.toInt = t.exact) ↔ ∀ u ∈ t.postorder, FitsWord u.exact) ∧
      (∀ v, r = .ok v → ∃ n, v = .int n ∧ n.toInt = t.exact) ∧
      ((¬∀ u ∈ t.postorder, FitsWord u.exact) →
        ∃ before op left right after, t.postorder = before ++ .node op left right :: after ∧
          (∀ u ∈ before, FitsWord u.exact) ∧ ¬FitsWord (WholeExpr.node op left right).exact ∧
          r = .error (.overflow op.arithmetic)) := by
  rw [← WholeExpr.firstUnfit?_eq_none_iff]
  cases hfirst : t.firstUnfit? with
  | none =>
    obtain ⟨n, hend, hexact⟩ := ends_exact hfirst settings s
    refine ⟨.ok (.int n), hend, fun r' s' h => hend.unique (ascending_evaluate _ _) h, ?_, ?_, ?_⟩
    · exact iff_of_true ⟨n, rfl, hexact⟩ rfl
    · intro v hv
      cases hv
      exact ⟨n, rfl, hexact⟩
    · intro h
      exact absurd rfl h
  | some u =>
    obtain ⟨op, left, right, rfl, hend⟩ := ends_overflow hfirst settings s
    obtain ⟨hnot, before, after, hsplit, hbefore⟩ := List.find?_eq_some_iff_append.1 hfirst
    refine ⟨_, hend, fun r' s' h => hend.unique (ascending_evaluate _ _) h, ?_, ?_, ?_⟩
    · simp
    · intro v hv
      exact absurd hv (by simp)
    · intro _
      refine ⟨before, op, left, right, after, hsplit, fun u hu => ?_, ?_, rfl⟩
      · simpa using hbefore u hu
      · simpa only [Bool.not_eq_true', decide_eq_false_iff_not] using hnot

/-- The greatest word plus one, minus one: the number fits, and the sum on the way does not. -/
example : (evaluate {} 3 (WholeExpr.node .subtract
    (.node .add (.literal Int64.maxValue) (.literal 1)) (.literal 1)).expr {}).map (·.1) =
      some (.error (.overflow .add)) := by
  rfl

end Scriptlet
