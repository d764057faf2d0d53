import Scriptlet.Proofs.Nesting

set_option autoImplicit false

/-! # How deep operators stand

Each right operand of a tight operator and each pair of brackets uses up one level of nesting, so
the limit bounds how deep they make a tree. The operands of a chain use up none, and since a chain
groups to the left, the first of them stands below all of its operators: a tree is as deep as its
longest chain. What the limit does bound is how many chains there are on the way down. So the depth
of operators is bounded by the limit and the length of the left runs of one level
(`operatorDepth_le_of_ofSource`); a sum shows that it is not bounded by the limit alone. -/

namespace Scriptlet

namespace Expr

mutual

/-- The greatest number of operators on a way down the tree, through operands, arguments, elements
    and indices. -/
def operatorDepth : Expr → Nat
  | binary _ left right => max left.operatorDepth right.operatorDepth + 1
  | call _ es | index _ es | array es => operatorDepthAll es
  | eval operand | id operand => operand.operatorDepth
  | int _ | text _ | name _ => 0

/-- The greatest depth of operators in the members of a list. -/
def operatorDepthAll : List Expr → Nat
  | [] => 0
  | e :: es => max e.operatorDepth (operatorDepthAll es)

end

/-- The number of operators of a level that follow each other down the left edge of the tree. -/
def leftRun (level : BinaryOp.Level) : Expr → Nat
  | binary op left _ => if op.level = level then left.leftRun level + 1 else 0
  | _ => 0

/-- Of the operators that group to the left, at most `k` of one level follow each other down the
    left edge. -/
def runsWithin (k : Nat) (e : Expr) : Bool :=
  decide (e.leftRun .middle ≤ k) && decide (e.leftRun .loose ≤ k)

theorem operatorDepthAll_le_iff {es : List Expr} {b : Nat} :
    operatorDepthAll es ≤ b ↔ ∀ e ∈ es, e.operatorDepth ≤ b := by
  induction es with
  | nil => simp [operatorDepthAll]
  | cons e es ih => rw [operatorDepthAll, Nat.max_le, ih, List.forall_mem_cons]

/-! ## Phrases -/

open Grammar

/-- Where left runs are within `k`, the phrases have at most `b` operators on any way down. -/
def DepthBound (k b : Nat) (P : Phrase Expr) : Prop :=
  ∀ ⦃ls e⦄, P ls e → e.everywhere (runsWithin k) = true → e.operatorDepth ≤ b

variable {k b : Nat}

namespace DepthBound

variable {E R Operand : Phrase Expr}

theorem mono {c : Nat} (h : DepthBound k b E) (hle : b ≤ c) : DepthBound k c E :=
  fun _ _ hE he => Nat.le_trans (h hE he) hle

theorem commaSeparated (hE : DepthBound k b E) {ls : List Lexeme} {es : List Expr}
    (h : CommaSeparated E ls es) (hes : ∀ e ∈ es, e.everywhere (runsWithin k) = true) :
    ∀ e ∈ es, e.operatorDepth ≤ b := by
  induction h with
  | single h => simpa using hE h (by simpa using hes)
  | more h _ ih =>
    rw [List.forall_mem_cons] at hes ⊢
    exact ⟨hE h hes.1, ih hes.2⟩

theorem indices (hE : DepthBound k b E) {ls : List Lexeme} {es : List Expr}
    (h : Indices E ls es) (hes : ∀ e ∈ es, e.everywhere (runsWithin k) = true) :
    ∀ e ∈ es, e.operatorDepth ≤ b := by
  induction h with
  | single h => simpa using hE h (by simpa using hes)
  | more h _ ih =>
    rw [List.forall_mem_cons] at hes ⊢
    exact ⟨hE h hes.1, ih hes.2⟩

theorem primary (hE : DepthBound k b E) : DepthBound k b (Primary E) := by
  intro ls e h he
  have hoperands := (everywhere_iff.1 he).2
  cases h with
  | int | text | name | callEmpty | arrayEmpty => exact Nat.zero_le _
  | call _ h | array h => exact operatorDepthAll_le_iff.2 (hE.commaSeparated h hoperands)
  | index _ h => exact operatorDepthAll_le_iff.2 (hE.indices h hoperands)
  | parenthesized h => exact hE h he
  | eval h | id h =>
    have hinner := hE h (hoperands _ (List.mem_singleton_self _))
    exact hinner

theorem factorOf (hE : DepthBound k b E) (hR : DepthBound k b R) :
    DepthBound k (b + 1) (FactorOf E R) := by
  intro ls e h he
  cases h with
  | primary h => exact Nat.le_succ_of_le (hE.primary h he)
  | tight hl _ hr =>
    obtain ⟨-, hoperands⟩ := everywhere_iff.1 he
    have hleft := hE.primary hl (hoperands _ (by simp [operands]))
    have hright := hR hr (hoperands _ (by simp [operands]))
    rw [operatorDepth]
    omega

/-- A chain is as deep below its operators as its operands are; its operators make up the left
    run. -/
theorem chain_leftRun {level : BinaryOp.Level} (ho : DepthBound k b Operand) {ls : List Lexeme}
    {e : Expr} (h : Chain level Operand ls e) (he : e.everywhere (runsWithin k) = true) :
    e.operatorDepth ≤ b + e.leftRun level := by
  induction h with
  | operand h => exact Nat.le_add_right_of_le (ho h he)
  | more _ hlevel hr ih =>
    obtain ⟨-, hoperands⟩ := everywhere_iff.1 he
    have hleft := ih (hoperands _ (by simp [operands]))
    have hright := ho hr (hoperands _ (by simp [operands]))
    rw [operatorDepth, leftRun, if_pos hlevel]
    omega

theorem chain {level : BinaryOp.Level} (hlevel : level ≠ .tight) (ho : DepthBound k b Operand) :
    DepthBound k (b + k) (Chain level Operand) := by
  intro ls e h he
  have hruns := (everywhere_iff.1 he).1
  simp only [runsWithin, Bool.and_eq_true, decide_eq_true_eq] at hruns
  have hrun : e.leftRun level ≤ k := by
    cases level with
    | middle => exact hruns.1
    | loose => exact hruns.2
    | tight => exact absurd rfl hlevel
  exact Nat.le_trans (ho.chain_leftRun h he) (Nat.add_le_add_left hrun b)

theorem chains (ho : DepthBound k b Operand) :
    DepthBound k (b + 2 * k) (Chain .loose (Chain .middle Operand)) :=
  ((ho.chain (by decide)).chain (by decide)).mono (by omega)

theorem factor (k n : Nat) : DepthBound k ((2 * k + 1) * n) (Factor n) := by
  induction n with
  | zero =>
    intro ls e h he
    cases h with
    | primary h => exact primary (fun _ _ hE => hE.elim) h he
    | tight _ _ hr => exact hr.elim
  | succ n ih =>
    rw [Nat.mul_succ, ← Nat.add_assoc]
    exact ih.chains.factorOf (ih.mono (Nat.le_add_right ..))

theorem expression (k n : Nat) : DepthBound k ((2 * k + 1) * n) (Expression n) := by
  cases n with
  | zero => exact fun _ _ h => h.elim
  | succ n =>
    rw [Nat.mul_succ]
    exact (factor k n).chains.mono (by omega)

/-- A call and an indexed variable are no operators: they are within the bound if their arguments
    and indices are. -/
theorem of_operands (hE : DepthBound k b E) {ls : List Lexeme} {e : Expr} (h : E ls e)
    (hruns : e.runsWithin k = true) (hes : ∀ c ∈ e.operands, c.everywhere (runsWithin k) = true)
    (hdepth : e.operatorDepth = operatorDepthAll e.operands) :
    ∀ c ∈ e.operands, c.operatorDepth ≤ b := by
  have hall := hE h (everywhere_iff.2 ⟨hruns, hes⟩)
  rw [hdepth] at hall
  exact operatorDepthAll_le_iff.1 hall

/-- The expressions of a statement are phrases, or the operands of one. -/
theorem statement {B : Phrase Block} (hE : DepthBound k b E) {ls : List Lexeme} {stmt : Stmt}
    (h : Statement B E ls stmt)
    (hes : ∀ e ∈ stmt.expressions, e.everywhere (runsWithin k) = true) :
    ∀ e ∈ stmt.expressions, e.operatorDepth ≤ b := by
  have hone {ls : List Lexeme} {e : Expr} (h : E ls e)
      (he : ∀ c ∈ [e], c.everywhere (runsWithin k) = true) : ∀ c ∈ [e], c.operatorDepth ≤ b := by
    simpa using hE h (by simpa using he)
  cases h with
  | exit | defineEmpty | define | promote | increment =>
    exact fun _ hmem => absurd hmem List.not_mem_nil
  | print h | assignAll _ _ h => exact hE.commaSeparated h hes
  | branch h | branchElse h | whileLoop h | forLoop _ h | return_ h | declareGlobal _ h
  | assign _ h | compound _ _ h | expression h => exact hone h hes
  | append ht hv | remove ht hv =>
    obtain ⟨htarget, hvalue⟩ := List.forall_mem_cons.1 hes
    exact List.forall_mem_cons.2 ⟨hE ht htarget, hone hv hvalue⟩
  | assignIndex hx h =>
    obtain ⟨hindices, hvalue⟩ := List.forall_mem_append.1 hes
    refine List.forall_mem_append.2 ⟨?_, hone h hvalue⟩
    exact hE.of_operands hx (by simp [runsWithin, leftRun]) hindices rfl
  | call h => exact hE.of_operands h (by simp [runsWithin, leftRun]) hes rfl

end DepthBound

end Expr

/-! ## Source texts -/

/-- **Nesting of operators.** If at most `k` operators of one level that groups to the left follow
    each other down a left edge, no way down an expression of an accepted text passes more than
    `2 * k + 1` operators for each level of the limit; for `k = 1`, three. -/
theorem operatorDepth_le_of_ofSource (k : Nat) (source : String) :
    (∀ e, (Expr.ofSource source).result = .ok e → e.everywhere (Expr.runsWithin k) = true →
      e.operatorDepth ≤ (2 * k + 1) * nestingLimit) ∧
    ∀ block depth headers stmt, (Block.ofSource source).result = .ok block →
      Nested block depth headers stmt →
      (∀ e ∈ stmt.expressions, e.everywhere (Expr.runsWithin k) = true) →
      ∀ e ∈ stmt.expressions, e.operatorDepth ≤ (2 * k + 1) * nestingLimit := by
  constructor
  · intro e h he
    have hphrase :=
      (readAll_eq_ok_iff_phrase (Expr.sound_expression _) (Expr.complete_expression _) _ _ _).1 h
    exact Expr.DepthBound.expression k nestingLimit hphrase he
  · intro block depth headers stmt h hn hes
    have hblock := (readAll_eq_ok_iff_phrase (Stmt.sound_block _) (Stmt.complete_block _) _ _ _).1 h
    obtain ⟨left, _, hsum, hstmt⟩ := hn.exists_statement hblock
    have hlt := hn.headers_lt
    have hleft : left ≤ nestingLimit := by omega
    exact ((Expr.DepthBound.expression k left).mono (Nat.mul_le_mul_left _ hleft)).statement hstmt
      hes

/-! ## Long sums -/

/-- `x`, with `k` times `+ x` behind it. -/
def Expr.sum : Nat → Expr
  | 0 => .name "x"
  | k + 1 => .binary (.arithmetic .add) (sum k) (.name "x")

theorem Expr.operatorDepth_sum (k : Nat) : (sum k).operatorDepth = k := by
  induction k with
  | zero => rfl
  | succ k ih => simp [sum, operatorDepth, ih]

namespace Grammar

/-- The lexemes of `Expr.sum`. -/
def sum : Nat → List Lexeme
  | 0 => [.name "x"]
  | k + 1 => sum k ++ [.symbol .plus, .name "x"]

theorem isValid_of_mem_sum (k : Nat) : ∀ l ∈ sum k, l.isValid = true := by
  induction k with
  | zero => decide
  | succ k ih =>
    have hlast : ∀ l ∈ [Lexeme.symbol .plus, .name "x"], l.isValid = true := by decide
    intro l hl
    rcases List.mem_append.1 hl with hl | hl
    · exact ih l hl
    · exact hlast l hl

theorem expression_sum (n k : Nat) : Expression (n + 1) (sum k) (.sum k) := by
  have hname : Factor n [.name "x"] (.name "x") := Expr.factor_of_primary (.name "x")
  have hsum : Chain .middle (Factor n) (sum k) (.sum k) := by
    induction k with
    | zero => exact .operand hname
    | succ k ih =>
      have hlevel : (BinaryOp.arithmetic .add).level = .middle := rfl
      exact .more ih hlevel hname
  exact .operand hsum

end Grammar

theorem Expr.ofSource_sum (k : Nat) :
    (Expr.ofSource (written (Grammar.sum k))).result = .ok (.sum k) := by
  refine (readAll_eq_ok_iff_phrase (sound_expression _) (complete_expression _) _ _ _).2 ?_
  rw [lexemes_written (Grammar.isValid_of_mem_sum k)]
  exact Grammar.expression_sum 127 k

theorem Block.ofSource_sum (k : Nat) :
    (Block.ofSource (written (Grammar.sum k ++ [.symbol .semicolon]))).result =
      .ok [.expression (.sum k)] := by
  have hstmt : Grammar.Statement (Grammar.Block 127) (Grammar.Expression 127) (Grammar.sum k)
      (.expression (.sum k)) :=
    .expression (Grammar.expression_sum 126 k) (by cases k <;> simp [Expr.sum])
  refine Block.ofSource_written (.single hstmt) fun l hl => ?_
  rcases List.mem_append.1 hl with hl | hl
  · exact Grammar.isValid_of_mem_sum k l hl
  · rw [List.mem_singleton.1 hl]
    rfl

/-- A sum of four terms is a left run of three operators. -/
theorem operatorDepth_le_of_ofSource_sum :
    (Expr.ofSource (written (Grammar.sum 3))).result = .ok (.sum 3) ∧
      (Block.ofSource (written (Grammar.sum 3 ++ [.symbol .semicolon]))).result =
        .ok [.expression (.sum 3)] ∧
      (Expr.sum 3).everywhere (Expr.runsWithin 3) = true ∧
      (Expr.sum 3).operatorDepth ≤ (2 * 3 + 1) * nestingLimit := by
  have hruns : (Expr.sum 3).everywhere (Expr.runsWithin 3) = true := by decide
  refine ⟨Expr.ofSource_sum 3, Block.ofSource_sum 3, hruns, ?_⟩
  exact (operatorDepth_le_of_ofSource 3 _).2 _ _ _ _ (Block.ofSource_sum 3)
    (.top (List.mem_singleton_self _)) (by simpa [Stmt.expressions] using hruns) _
    (List.mem_singleton_self _)

/-- The limit does not bound the depth of operators: a sum of 514 terms is accepted, as an
    expression and in a program. -/
theorem not_forall_operatorDepth_le :
    (¬ ∀ source e, (Expr.ofSource source).result = .ok e →
      e.operatorDepth ≤ 4 * nestingLimit) ∧
    ¬ ∀ source block depth headers stmt, (Block.ofSource source).result = .ok block →
      Nested block depth headers stmt →
      ∀ e ∈ stmt.expressions, e.operatorDepth ≤ 4 * nestingLimit := by
  have hdeep : ¬ (Expr.sum 513).operatorDepth ≤ 4 * nestingLimit := by
    rw [Expr.operatorDepth_sum]
    decide
  constructor
  · intro h
    exact hdeep (h _ _ (Expr.ofSource_sum 513))
  · intro h
    exact hdeep (h _ _ _ _ _ (Block.ofSource_sum 513) (.top (List.mem_singleton_self _)) _
      (List.mem_singleton_self _))

end Scriptlet
