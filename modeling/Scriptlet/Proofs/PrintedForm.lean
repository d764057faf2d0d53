import Scriptlet.Proofs.Lexing
import Scriptlet.Proofs.StmtGrammar

set_option autoImplicit false

/-! # Written expressions

Reading undoes writing. The written form of an expression has the lexemes `Expr.lexemes`, with every
binary operator between parentheses, so each expression is written as a primary: no operator outside
decides how it is read. What can go wrong is the nesting alone. `Expr.nesting` counts the levels
that the written form uses; with as many levels the parser yields the expression, and with fewer it
stops because the nesting is too deep (`ofSource_render`).

Not every tree can be written: the language has no negative literals and no way to put a double
quote between double quotes, a name has to be one, and an indexed variable has an index.
`Expr.Printable` leaves the other trees out. -/

namespace Scriptlet.Expr

/-- Trees whose written form stands for them. -/
inductive Printable : Expr → Prop
  | int {n : Int64} : 0 ≤ n → Printable (.int n)
  | text {s : String} : '"' ∉ s.toList → Printable (.text s)
  | name {x : String} : isName x = true → Printable (.name x)
  | binary (op : BinaryOp) {left right : Expr} :
      Printable left → Printable right → Printable (.binary op left right)
  | call {f : String} {arguments : List Expr} :
      isName f = true → (∀ e ∈ arguments, Printable e) → Printable (.call f arguments)
  | index {x : String} {indices : List Expr} :
      isName x = true → indices ≠ [] → (∀ e ∈ indices, Printable e) →
        Printable (.index x indices)
  | array {elements : List Expr} : (∀ e ∈ elements, Printable e) → Printable (.array elements)
  | eval {e : Expr} : Printable e → Printable (.eval e)
  | id {e : Expr} : Printable e → Printable (.id e)

mutual

/-- The levels of nesting of the written form. Each part stands one level below the whole, and the
    right operand of a tight operator one more. -/
@[simp]
def nesting : Expr → Nat
  | int _ | text _ | name _ => 1
  | binary op left right =>
    1 + max left.nesting (right.nesting + if op.level = .tight then 1 else 0)
  | call _ arguments => 1 + nestingAll arguments
  | index _ indices => 1 + nestingAll indices
  | array elements => 1 + nestingAll elements
  | eval e => 1 + e.nesting
  | id e => 1 + e.nesting

/-- The greatest nesting of the members of a list. -/
@[simp]
def nestingAll : List Expr → Nat
  | [] => 0
  | e :: es => max e.nesting (nestingAll es)

end

mutual

/-- The lexemes of the written form. -/
@[simp]
def lexemes : Expr → List Lexeme
  | int n => [.number (Decimal.ofInt n.toInt)]
  | text s => [.quoted .double s]
  | name x => [.name x]
  | binary op left right =>
    .symbol .parenLeft ::
      (left.lexemes ++ .symbol op.symbol :: (right.lexemes ++ [.symbol .parenRight]))
  | call f arguments =>
    .name f :: .symbol .parenLeft :: (lexemesAll arguments ++ [.symbol .parenRight])
  | index x indices => .name x :: lexemesIndices indices
  | array elements => .symbol .bracketLeft :: (lexemesAll elements ++ [.symbol .bracketRight])
  | eval e => .keyword .eval :: .symbol .parenLeft :: (e.lexemes ++ [.symbol .parenRight])
  | id e => .keyword .id :: .symbol .parenLeft :: (e.lexemes ++ [.symbol .parenRight])

/-- Members of a list, with commas between them. -/
@[simp]
def lexemesAll : List Expr → List Lexeme
  | [] => []
  | e :: es => e.lexemes ++ lexemesMore es

/-- Members of a list, each behind a comma. -/
@[simp]
def lexemesMore : List Expr → List Lexeme
  | [] => []
  | e :: es => .symbol .comma :: (e.lexemes ++ lexemesMore es)

/-- Indices, each between brackets. -/
@[simp]
def lexemesIndices : List Expr → List Lexeme
  | [] => []
  | e :: es => .symbol .bracketLeft :: (e.lexemes ++ .symbol .bracketRight :: lexemesIndices es)

end

theorem nesting_pos (e : Expr) : 0 < e.nesting := by
  cases e <;> simp only [nesting] <;> omega

theorem nesting_le_nestingAll {e : Expr} {es : List Expr} (h : e ∈ es) :
    e.nesting ≤ nestingAll es := by
  induction es with
  | nil => exact absurd h (by simp)
  | cons first es ih =>
    rw [nestingAll]
    rcases List.mem_cons.1 h with rfl | h
    · exact Nat.le_max_left _ _
    · exact Nat.le_trans (ih h) (Nat.le_max_right _ _)

/-! ## The lexemes of the written form -/

theorem ofInt_of_nonneg {n : Int64} (hn : 0 ≤ n) :
    Decimal.ofInt n.toInt = String.ofList (Decimal.digits n.toNatClampNeg) := by
  have hcast := Int64.cast_toNatClampNeg n hn
  rw [Decimal.ofInt, if_neg (by omega), ← hcast, Int.natAbs_natCast]

theorem spells_int {n : Int64} (hn : 0 ≤ n) : Spells (int n).render (int n).lexemes := by
  have hlt := n.toNatClampNeg_lt
  rw [render, lexemes, ofInt_of_nonneg hn]
  exact .number (Nat.le_sub_one_of_lt hlt)

theorem render_binary (op : BinaryOp) (left right : Expr) :
    (binary op left right).render = Symbol.parenLeft.text ++ (left.render ++
      (" " ++ (op.symbol.text ++ (" " ++ (right.render ++ Symbol.parenRight.text))))) := by
  show "(" ++ left.render ++ " " ++ op.text ++ " " ++ right.render ++ ")" = _
  simp only [String.append_assoc]
  rfl

theorem render_call (f : String) (arguments : List Expr) :
    (call f arguments).render = f ++ (Symbol.parenLeft.text ++
      (String.intercalate ", " (renderAll arguments) ++ Symbol.parenRight.text)) := by
  show f ++ "(" ++ String.intercalate ", " (renderAll arguments) ++ ")" = _
  simp only [String.append_assoc]
  rfl

theorem render_array (elements : List Expr) :
    (array elements).render = Symbol.bracketLeft.text ++
      (String.intercalate ", " (renderAll elements) ++ Symbol.bracketRight.text) := by
  show "[" ++ String.intercalate ", " (renderAll elements) ++ "]" = _
  rw [String.append_assoc]
  rfl

theorem render_eval (e : Expr) : (eval e).render =
    Keyword.eval.text ++ (Symbol.parenLeft.text ++ (e.render ++ Symbol.parenRight.text)) := by
  show Keyword.eval.text ++ Symbol.parenLeft.text ++ e.render ++ Symbol.parenRight.text = _
  rw [String.append_assoc, String.append_assoc]

theorem render_id (e : Expr) : (id e).render =
    Keyword.id.text ++ (Symbol.parenLeft.text ++ (e.render ++ Symbol.parenRight.text)) := by
  show Keyword.id.text ++ Symbol.parenLeft.text ++ e.render ++ Symbol.parenRight.text = _
  rw [String.append_assoc, String.append_assoc]

theorem renderIndices_cons (e : Expr) (es : List Expr) : renderIndices (e :: es) =
    Symbol.bracketLeft.text ++ (e.render ++ (Symbol.bracketRight.text ++ renderIndices es)) := by
  show "[" ++ e.render ++ "]" ++ renderIndices es = _
  simp only [String.append_assoc]
  rfl

theorem endsWord_renderIndices (es : List Expr) : EndsWord (renderIndices es).toList := by
  cases es with
  | nil => exact endsWord_nil
  | cons e es =>
    rw [renderIndices_cons]
    exact endsWord_standsAlone rfl _

theorem spells_renderIndices {es : List Expr} (ih : ∀ e ∈ es, Spells e.render e.lexemes) :
    Spells (renderIndices es) (lexemesIndices es) := by
  induction es with
  | nil => exact .empty
  | cons e es hes =>
    rw [renderIndices_cons, lexemesIndices]
    have hmore := hes fun e he => ih e (by simp [he])
    exact .symbol rfl ((ih e (by simp)).append (.symbol rfl hmore) (endsWord_standsAlone rfl _))

theorem lexemesAll_eq_intercalate (es : List Expr) :
    lexemesAll es = List.intercalate [.symbol .comma] (es.map lexemes) := by
  induction es with
  | nil => rfl
  | cons first es ih =>
    cases es with
    | nil => simp
    | cons second es =>
      rw [lexemesAll, List.map_cons] at ih
      rw [lexemesAll, lexemesMore, ih, List.map_cons, List.map_cons, List.intercalate_cons_cons,
        List.append_assoc]
      rfl

theorem spells_renderAll {es : List Expr} (ih : ∀ e ∈ es, Spells e.render e.lexemes) :
    Spells (String.intercalate ", " (renderAll es)) (lexemesAll es) := by
  rw [renderAll_eq_map, lexemesAll_eq_intercalate]
  exact .commaSeparated ih

/-- The written form of a printable expression has the lexemes of the expression. -/
theorem spells_render {e : Expr} (h : e.Printable) : Spells e.render e.lexemes := by
  induction h with
  | int hn => exact spells_int hn
  | text hs => exact .quoted .double hs
  | name hx => exact .name hx
  | binary op _ _ ihl ihr =>
    rw [render_binary, lexemes]
    exact .symbol rfl (ihl.append (.operator op.symbol (ihr.close rfl)) (endsWord_blank _))
  | call hf _ ih =>
    rw [render_call, lexemes]
    exact (Spells.name hf).append (.symbol rfl ((spells_renderAll ih).close rfl))
      (endsWord_standsAlone rfl _)
  | index hx _ _ ih =>
    rw [render, lexemes]
    exact (Spells.name hx).append (spells_renderIndices ih) (endsWord_renderIndices _)
  | array _ ih =>
    rw [render_array, lexemes]
    exact .symbol rfl ((spells_renderAll ih).close rfl)
  | eval _ ih =>
    rw [render_eval, lexemes]
    exact (Spells.keyword .eval).append (.symbol rfl (ih.close rfl)) (endsWord_standsAlone rfl _)
  | id _ ih =>
    rw [render_id, lexemes]
    exact (Spells.keyword .id).append (.symbol rfl (ih.close rfl)) (endsWord_standsAlone rfl _)

/-! ## Enough levels -/

open Scriptlet.Parser Grammar

theorem ofNat_value_ofInt {n : Int64} (hn : 0 ≤ n) :
    Int64.ofNat (Decimal.value (Decimal.ofInt n.toInt).toList) = n := by
  rw [ofInt_of_nonneg hn, String.toList_ofList, Decimal.value_digits,
    Int64.ofNat_toNatClampNeg n hn]

theorem commaSeparated_lexemes {E : Phrase Expr} {e : Expr} {es : List Expr}
    (h : ∀ d ∈ e :: es, E d.lexemes d) : CommaSeparated E (lexemesAll (e :: es)) (e :: es) := by
  have hmap := CommaSeparated.intercalate fun d hd => h d hd
  rw [← lexemesAll_eq_intercalate, List.map_id'] at hmap
  exact hmap

theorem indices_lexemes {E : Phrase Expr} {e : Expr} {es : List Expr}
    (h : ∀ d ∈ e :: es, E d.lexemes d) : Indices E (lexemesIndices (e :: es)) (e :: es) := by
  induction es generalizing e with
  | nil => exact .single (h e (by simp))
  | cons next es ih => exact .more (h e (by simp)) (ih fun d hd => h d (by simp [hd]))

theorem factor_of_primary {n : Nat} {ls : List Lexeme} {e : Expr}
    (h : Primary (Expression n) ls e) : Factor n ls e := by
  cases n with
  | zero => exact .primary h
  | succ n => exact .primary h

/-- What stands between the parentheses of a binary operator. -/
theorem expression_binary {n : Nat} {op : BinaryOp} {ls ms : List Lexeme} {left right : Expr}
    (hl : Primary (Expression n) ls left)
    (hr : op.level ≠ .tight → Primary (Expression n) ms right)
    (hright : op.level = .tight → ∃ k, n = k + 1 ∧ Primary (Expression k) ms right) :
    Expression (n + 1) (ls ++ .symbol op.symbol :: ms) (.binary op left right) := by
  cases hlevel : op.level with
  | tight =>
    obtain ⟨k, rfl, hms⟩ := hright hlevel
    exact .operand (.operand (.tight hl hlevel (factor_of_primary hms)))
  | middle =>
    have hms := factor_of_primary (hr (by simp [hlevel]))
    exact .operand (.more (.operand (factor_of_primary hl)) hlevel hms)
  | loose =>
    have hms := factor_of_primary (hr (by simp [hlevel]))
    exact .more (.operand (.operand (factor_of_primary hl))) hlevel (.operand hms)

/-- At an expression position, which takes one level, a primary is an expression. -/
theorem expression_of_forall_primary {e : Expr} {n : Nat} (hn : e.nesting ≤ n)
    (h : ∀ n, e.nesting ≤ n + 1 → Primary (Expression n) e.lexemes e) :
    Expression n e.lexemes e := by
  have hpos := e.nesting_pos
  obtain ⟨m, rfl⟩ : ∃ m, n = m + 1 := ⟨n - 1, by omega⟩
  exact .operand (.operand (factor_of_primary (h m hn)))

/-- The written form of an expression is a primary. -/
theorem primary_lexemes {e : Expr} (h : e.Printable) :
    ∀ n, e.nesting ≤ n + 1 → Primary (Expression n) e.lexemes e := by
  have hparts {es : List Expr} {n : Nat} (hn : 1 + nestingAll es ≤ n + 1)
      (ih : ∀ d ∈ es, ∀ n, d.nesting ≤ n + 1 → Primary (Expression n) d.lexemes d) :
      ∀ d ∈ es, Expression n d.lexemes d := by
    intro d hd
    have hle := nesting_le_nestingAll hd
    exact expression_of_forall_primary (by omega) (ih d hd)
  induction h with
  | @int i hi =>
    intro n _
    have hint : Primary (Expression n) [.number (Decimal.ofInt i.toInt)] _ := .int _
    rwa [ofNat_value_ofInt hi] at hint
  | text _ => exact fun n _ => .text .double _
  | name _ => exact fun n _ => .name _
  | @binary op left right _ _ ihl ihr =>
    intro n hn
    rw [nesting] at hn
    have hpos := left.nesting_pos
    have hpos' := right.nesting_pos
    obtain ⟨m, rfl⟩ : ∃ m, n = m + 1 := ⟨n - 1, by omega⟩
    have hbinary : Expression (m + 1) (left.lexemes ++ .symbol op.symbol :: right.lexemes)
        (.binary op left right) := by
      refine expression_binary (ihl m (by omega)) (fun _ => ihr m (by omega)) fun hlevel => ?_
      -- one level goes to the parentheses, and one more to the right operand
      rw [if_pos hlevel] at hn
      exact ⟨m - 1, by omega, ihr (m - 1) (by omega)⟩
    simpa [lexemes] using Primary.parenthesized hbinary
  | @call f arguments hf _ ih =>
    intro n hn
    cases arguments with
    | nil => exact .callEmpty f
    | cons e es => exact .call f (commaSeparated_lexemes (hparts hn ih))
  | @index x indices _ hne _ ih =>
    intro n hn
    cases indices with
    | nil => exact absurd rfl hne
    | cons e es => exact .index x (indices_lexemes (hparts hn ih))
  | @array elements _ ih =>
    intro n hn
    cases elements with
    | nil => exact .arrayEmpty
    | cons e es => exact .array (commaSeparated_lexemes (hparts hn ih))
  | eval _ ih =>
    intro n hn
    rw [nesting] at hn
    exact .eval (expression_of_forall_primary (by omega) ih)
  | id _ ih =>
    intro n hn
    rw [nesting] at hn
    exact .id (expression_of_forall_primary (by omega) ih)

theorem expression_lexemes {e : Expr} (h : e.Printable) {n : Nat} (hn : e.nesting ≤ n) :
    Expression n e.lexemes e :=
  expression_of_forall_primary hn (primary_lexemes h)

/-! ## Too few levels -/

theorem refuses_factor {n : Nat} {ls : List Lexeme} {reason : Reason}
    (h : Refuses (primary (parser n)) ls reason) : Refuses (factor n) ls reason := by
  cases n with
  | zero => exact h.bind _
  | succ n => exact h.bind _

theorem refuses_expression {n : Nat} {ls : List Lexeme} {reason : Reason}
    (h : Refuses (primary (parser n)) ls reason) : Refuses (parser (n + 1)) ls reason :=
  ((refuses_factor h).bind _).bind _

theorem refuses_chain_right {operand : Parser Expr} {op : BinaryOp} {ls ms : List Lexeme}
    {left : Expr} {reason : Reason} (hl : Reads operand ls left (.symbol op.symbol :: ms))
    (hr : Refuses operand ms reason) : Refuses (chain op.level operand) ls reason :=
  .after hl ((RefusesMany.first (by simp) operator?_self (hr.bind _)).many.bind _)

theorem refuses_factorWith_right {expression right : Parser Expr} {op : BinaryOp}
    {ls ms : List Lexeme} {left : Expr} {reason : Reason}
    (hl : Reads (primary expression) ls left (.symbol op.symbol :: ms)) (hop : op.level = .tight)
    (hr : Refuses right ms reason) : Refuses (factorWith expression right) ls reason := by
  refine .after hl fun tokens htokens => ?_
  obtain ⟨mid, hmid, hoperator⟩ := operator?_self tokens htokens
  rw [hop] at hoperator
  obtain ⟨rest, hrest⟩ := hr.bind (fun r => pure (binary op left r)) hmid
  exact ⟨rest, by simp only [hoperator]; exact hrest⟩

theorem refuses_factor_right {n : Nat} {op : BinaryOp} {ls ms : List Lexeme} {left : Expr}
    (hl : Reads (primary (parser n)) ls left (.symbol op.symbol :: ms)) (hop : op.level = .tight)
    (hr : ∀ k, n = k + 1 → Refuses (factor k) ms .tooDeep) : Refuses (factor n) ls .tooDeep := by
  cases n with
  | zero => exact refuses_factorWith_right hl hop (.fail _ _)
  | succ n => exact refuses_factorWith_right hl hop (hr n rfl)

/-- A right operand that is nested too deeply stops the parser behind the left one. -/
theorem refuses_binary {n : Nat} {op : BinaryOp} {ls ms : List Lexeme} {left : Expr}
    (hl : Primary (Expression n) ls left)
    (hr : op.level ≠ .tight → Refuses (primary (parser n)) ms .tooDeep)
    (hright : op.level = .tight → ∀ k, n = k + 1 → Refuses (primary (parser k)) ms .tooDeep) :
    Refuses (parser (n + 1)) (ls ++ .symbol op.symbol :: ms) .tooDeep := by
  cases hlevel : op.level with
  | tight =>
    have hleft : Reads (primary (parser n)) (ls ++ .symbol op.symbol :: ms) left
        (.symbol op.symbol :: ms) := by
      refine complete_primary (complete_expression n) (startsWith_expression n) hl ?_
      simp [joinsPrimary_symbol]
    have hfactor := refuses_factor_right hleft hlevel fun k hk =>
      refuses_factor (hright hlevel k hk)
    exact (hfactor.bind _).bind _
  | middle =>
    have hleft : Reads (factor n) (ls ++ .symbol op.symbol :: ms) left
        (.symbol op.symbol :: ms) := by
      refine complete_factor n (factor_of_primary hl) ?_
      simp [joinsFactor, joinsPrimary_symbol, isOperator_symbol, hlevel]
    have hchain := refuses_chain_right hleft (refuses_factor (hr (by simp [hlevel])))
    rw [hlevel] at hchain
    exact hchain.bind _
  | loose =>
    have hleft : Reads (chain .middle (factor n)) (ls ++ .symbol op.symbol :: ms) left
        (.symbol op.symbol :: ms) := by
      refine complete_middle (complete_factor n) (.operand (factor_of_primary hl)) ?_
      simp [joinsMiddle, joinsFactor, joinsPrimary_symbol, isOperator_symbol, hlevel]
    have hchain := refuses_chain_right hleft ((refuses_factor (hr (by simp [hlevel]))).bind _)
    rwa [hlevel] at hchain

/-! Members of a list are read up to the first one that is nested too deeply. -/

section Lists

theorem lt_nestingAll_tail {n : Nat} {e : Expr} {es : List Expr} (hn : n < nestingAll (e :: es))
    (he : e.nesting ≤ n) : n < nestingAll es := by
  rw [nestingAll] at hn
  omega

/-- Behind a member that is not the last one stands a comma. -/
theorem stops_lexemesMore {n : Nat} {es : List Expr} (hn : n < nestingAll es) (fs : List Lexeme) :
    Stops joins (lexemesMore es ++ fs) := by
  cases es with
  | nil => exact absurd hn (by simp [nestingAll])
  | cons e es => rfl

/-- A list that is not empty does not start with what closes one. -/
theorem stops_lexemesAll {s : Symbol} (hs : starts (.symbol s) = false) {n : Nat} {es : List Expr}
    (hes : ∀ d ∈ es, Printable d) (hn : n < nestingAll es) (fs : List Lexeme) :
    Stops (· = .symbol s) (lexemesAll es ++ fs) := by
  cases es with
  | nil => exact absurd hn (by simp [nestingAll])
  | cons e es =>
    have hexpression := expression_lexemes (hes e (by simp)) (Nat.le_refl _)
    rw [lexemesAll, List.append_assoc]
    exact stops_of_startsWith (startsWith_expression _) hs hexpression _

variable {n : Nat} {es : List Expr} (hreads : ∀ d ∈ es, d.nesting ≤ n → Expression n d.lexemes d)
  (hrefuses : ∀ d ∈ es, n < d.nesting → ∀ fs, Refuses (parser n) (d.lexemes ++ fs) .tooDeep)
  (hn : n < nestingAll es) (fs : List Lexeme)

include hreads hrefuses hn

theorem refusesMany_lexemesMore :
    RefusesMany (behind .comma) (fun _ => parser n) (lexemesMore es ++ fs) .tooDeep := by
  induction es with
  | nil => exact absurd hn (by simp [nestingAll])
  | cons e es ih =>
    rw [lexemesMore, List.cons_append, List.append_assoc]
    rcases Nat.lt_or_ge n e.nesting with he | he
    · exact .first (by simp) behind_self (hrefuses e (by simp) he _)
    · have hes := lt_nestingAll_tail hn he
      have hread := complete_expression n (hreads e (by simp) he) (stops_lexemesMore hes fs)
      refine .cons behind_self hread (by grind) ?_
      exact ih (fun d hd => hreads d (by simp [hd])) (fun d hd => hrefuses d (by simp [hd])) hes

theorem refuses_commaSeparated :
    Refuses (commaSeparated (parser n)) (lexemesAll es ++ fs) .tooDeep := by
  cases es with
  | nil => exact absurd hn (by simp [nestingAll])
  | cons e es =>
    rw [lexemesAll, List.append_assoc]
    rcases Nat.lt_or_ge n e.nesting with he | he
    · exact (hrefuses e (by simp) he _).bind _
    · have hes := lt_nestingAll_tail hn he
      have hread := complete_expression n (hreads e (by simp) he) (stops_lexemesMore hes fs)
      refine .after hread ((RefusesMany.many ?_).bind _)
      exact refusesMany_lexemesMore (fun d hd => hreads d (by simp [hd]))
        (fun d hd => hrefuses d (by simp [hd])) hes fs

theorem refusesMany_lexemesIndices :
    RefusesMany (behind .bracketLeft) (fun _ => do
      let e ← parser n
      symbol .bracketRight .indexExpression
      return e) (lexemesIndices es ++ fs) .tooDeep := by
  induction es with
  | nil => exact absurd hn (by simp [nestingAll])
  | cons e es ih =>
    rw [lexemesIndices, List.cons_append, List.append_assoc, List.cons_append]
    rcases Nat.lt_or_ge n e.nesting with he | he
    · exact .first (by simp) behind_self ((hrefuses e (by simp) he _).bind _)
    · have hes := lt_nestingAll_tail hn he
      have hread := complete_expression n (hreads e (by simp) he)
        (show Stops joins (.symbol .bracketRight :: (lexemesIndices es ++ fs)) from rfl)
      refine .cons behind_self (hread.bind ((Reads.symbol _ _ _).bind (.pure _ _)))
        (by grind) ?_
      exact ih (fun d hd => hreads d (by simp [hd])) (fun d hd => hrefuses d (by simp [hd])) hes

end Lists

/-- With too few levels for the written form, reading it stops because of them. -/
theorem refuses_primary {e : Expr} (h : e.Printable) :
    ∀ n fs, n + 1 < e.nesting → Refuses (primary (parser n)) (e.lexemes ++ fs) .tooDeep := by
  have hpart {d : Expr} {n : Nat} (hn : n < d.nesting)
      (ih : ∀ n fs, n + 1 < d.nesting → Refuses (primary (parser n)) (d.lexemes ++ fs) .tooDeep)
      (fs : List Lexeme) : Refuses (parser n) (d.lexemes ++ fs) .tooDeep := by
    cases n with
    | zero => exact .fail _ _
    | succ n => exact refuses_expression (ih n fs hn)
  have hreads {es : List Expr} (hes : ∀ d ∈ es, Printable d) (n : Nat) :
      ∀ d ∈ es, d.nesting ≤ n → Expression n d.lexemes d := by
    intro d hd hle
    exact expression_lexemes (hes d hd) hle
  induction h with
  | int _ | text _ | name _ =>
    intro n fs hn
    rw [nesting] at hn
    omega
  | @binary op left right hl _ ihl ihr =>
    intro n fs hn
    rw [nesting] at hn
    rw [lexemes, List.cons_append, List.append_assoc, List.cons_append, List.append_assoc]
    refine .of_cons (fun _ _ => rfl) (.bind ?_ _)
    cases n with
    | zero => exact .fail _ _
    | succ m =>
      -- the left operand is read first, so the right one decides only if the left one fits
      rcases Nat.lt_or_ge (m + 1) left.nesting with hleft | hleft
      · exact refuses_expression (ihl m _ hleft)
      · refine refuses_binary (primary_lexemes hl m hleft) (fun hlevel => ?_) fun hlevel k hk => ?_
        · rw [if_neg hlevel] at hn
          exact ihr m _ (by omega)
        · rw [if_pos hlevel] at hn
          exact ihr k _ (by omega)
  | @call f arguments _ hes ih =>
    intro n fs hn
    rw [nesting] at hn
    rw [lexemes, List.cons_append, List.cons_append, List.append_assoc]
    have hlist : n < nestingAll arguments := by omega
    -- some argument is too deep, so there is one, and the parser does not see an empty list
    refine .of_cons (fun _ _ => rfl) (.after (Reads.trySymbol_self _ _) (.bind ?_ _))
    refine .after (Reads.atSymbol_of_stops (stops_lexemesAll rfl hes hlist _)) (.bind ?_ _)
    exact refuses_commaSeparated (hreads hes n) (fun d hd hlt => hpart hlt (ih d hd)) hlist _
  | @index x indices _ hne hes ih =>
    intro n fs hn
    rw [nesting] at hn
    rw [lexemes, List.cons_append]
    have hnone : Stops (· = .symbol .parenLeft) (lexemesIndices indices ++ fs) := by
      cases indices with
      | nil => exact absurd rfl hne
      | cons e es => rfl
    refine .of_cons (fun _ _ => rfl) (.after (Reads.trySymbol_of_stops hnone) (.bind ?_ _))
    exact (refusesMany_lexemesIndices (hreads hes n) (fun d hd hlt => hpart hlt (ih d hd))
      (by omega) fs).many
  | @array elements hes ih =>
    intro n fs hn
    rw [nesting] at hn
    rw [lexemes, List.cons_append, List.append_assoc]
    have hlist : n < nestingAll elements := by omega
    refine .of_cons (fun _ _ => rfl) (.bind ?_ _)
    refine .after (Reads.trySymbol_of_stops (stops_lexemesAll rfl hes hlist _)) (.bind ?_ _)
    exact refuses_commaSeparated (hreads hes n) (fun d hd hlt => hpart hlt (ih d hd)) hlist _
  | eval _ ih =>
    intro n fs hn
    rw [nesting] at hn
    rw [lexemes, List.cons_append, List.cons_append, List.append_assoc]
    refine .of_cons (fun _ _ => rfl) (.bind ?_ _)
    exact .after (Reads.symbol _ _ _) ((hpart (by omega) ih _).bind _)
  | id _ ih =>
    intro n fs hn
    rw [nesting] at hn
    rw [lexemes, List.cons_append, List.cons_append, List.append_assoc]
    refine .of_cons (fun _ _ => rfl) (.bind ?_ _)
    exact .after (Reads.symbol _ _ _) ((hpart (by omega) ih _).bind _)

theorem refuses_lexemes {e : Expr} (h : e.Printable) {n : Nat} (hn : n < e.nesting) :
    Refuses (parser n) e.lexemes .tooDeep := by
  rw [← List.append_nil e.lexemes]
  cases n with
  | zero => exact .fail _ _
  | succ n => exact refuses_expression (refuses_primary h n [] hn)

end Scriptlet.Expr

/-! ## Round trip -/

namespace Scriptlet

open Scriptlet.Parser

theorem readAll_of_refuses {α : Type} {p : Parser α} {source : String} {reason : Reason}
    (h : Refuses p (Grammar.lexemes source) reason) (surplus : Reason) :
    ∃ error, (readAll p surplus source).result = .error error ∧ error.reason = reason := by
  obtain ⟨rest, hrest⟩ := h rfl
  refine ⟨Stop.error ⟨reason, rest⟩, ?_, rfl⟩
  simp only [readAll, hrest]

/-- A text with the lexemes of an expression is read as that expression. -/
theorem Expr.ofSource_of_spells {source : String} {ls : List Lexeme} {e : Expr}
    (h : Spells source ls) (hphrase : Grammar.Expression nestingLimit ls e) :
    (Expr.ofSource source).result = .ok e := by
  rw [← h.lexemes] at hphrase
  exact (readAll_eq_ok_iff_phrase (sound_expression _) (complete_expression _) _ _ e).2 hphrase

/-- **Reading undoes writing.** The written form of a printable expression reads as that expression
    exactly if its nesting is within the limit; otherwise reading fails, and says that the nesting
    is too deep. -/
theorem ofSource_render {e : Expr} (h : e.Printable) :
    ((Expr.ofSource e.render).result = .ok e ↔ e.nesting ≤ nestingLimit) ∧
      (nestingLimit < e.nesting → ∃ error, (Expr.ofSource e.render).result = .error error ∧
        error.reason.message = "Nested too deeply") := by
  have hlexemes : Grammar.lexemes e.render = e.lexemes := (Expr.spells_render h).lexemes
  have hdeep : nestingLimit < e.nesting →
      ∃ error, (Expr.ofSource e.render).result = .error error ∧ error.reason = .tooDeep := by
    intro hn
    have hrefuses := Expr.refuses_lexemes h hn
    rw [← hlexemes] at hrefuses
    exact readAll_of_refuses hrefuses _
  refine ⟨⟨fun hok => ?_, fun hn => ?_⟩, fun hn => ?_⟩
  · rcases Nat.lt_or_ge nestingLimit e.nesting with hn | hn
    · obtain ⟨error, herror, -⟩ := hdeep hn
      exact absurd (hok.symm.trans herror) (by simp)
    · exact hn
  · refine (readAll_eq_ok_iff_phrase (Expr.sound_expression _) (Expr.complete_expression _) _ _
      e).2 ?_
    rw [hlexemes]
    exact Expr.expression_lexemes h hn
  · obtain ⟨error, herror, hreason⟩ := hdeep hn
    exact ⟨error, herror, by rw [hreason]; rfl⟩

/-- `(x[1] * f("a b", []))`. -/
def Expr.sample : Expr :=
  .binary (.arithmetic .multiply) (.index "x" [.int 1]) (.call "f" [.text "a b", .array []])

theorem Expr.printable_sample : sample.Printable := by
  refine .binary _ (.index (by decide) (by simp) ?_) (.call (by decide) ?_)
  · simpa using Printable.int (by decide)
  · simpa using ⟨Printable.text (by decide), Printable.array (by simp)⟩

theorem Expr.printable_repeat_eval {e : Expr} (h : e.Printable) (n : Nat) :
    (Nat.repeat eval n e).Printable := by
  induction n with
  | zero => exact h
  | succ n ih => exact .eval ih

theorem Expr.nesting_repeat_eval (e : Expr) (n : Nat) :
    (Nat.repeat eval n e).nesting = n + e.nesting := by
  induction n with
  | zero => simp [Nat.repeat]
  | succ n ih =>
    rw [Nat.repeat, nesting, ih]
    omega

/-- An expression of four levels reads back under 124 times `eval`, but not under 125. -/
theorem ofSource_render_sample :
    Expr.sample.Printable ∧ Expr.sample.nesting = 4 ∧
      (Expr.ofSource (Nat.repeat Expr.eval 124 Expr.sample).render).result =
        .ok (Nat.repeat Expr.eval 124 Expr.sample) ∧
      ∃ error, (Expr.ofSource (Nat.repeat Expr.eval 125 Expr.sample).render).result =
        .error error ∧ error.reason.message = "Nested too deeply" := by
  have hnesting : Expr.sample.nesting = 4 := by decide
  refine ⟨Expr.printable_sample, hnesting, ?_, ?_⟩
  · refine (ofSource_render (Expr.printable_repeat_eval Expr.printable_sample 124)).1.2 ?_
    rw [Expr.nesting_repeat_eval, hnesting]
    decide
  · refine (ofSource_render (Expr.printable_repeat_eval Expr.printable_sample 125)).2 ?_
    rw [Expr.nesting_repeat_eval, hnesting]
    decide

end Scriptlet
