import Scriptlet.Proofs.Predictive
import Scriptlet.Proofs.StmtGrammar

set_option autoImplicit false

/-! # The parsers are predictive

Every parser of the language predicts: it stops only where no phrase of its kind can go on, and what
it does depends on one lexeme behind what it takes. The lemmas follow the parsers function by
function, in the order of their soundness, with what a function reads inside left as a parameter.

There are two parsers in each statement, with fewer levels of nesting and with more. At the bottom
of the first nothing is left to read with, which the judgement ignores as too deep; so the phrases
are those with one level more than the first parser has, where there always is one
(`Stmt.predicts_blockParser`). Clauses of a `for` header recurse on the number of tokens instead,
and `Stmt.predicts_expressionUpTo` shows that any bound will do that is as large. -/

namespace Scriptlet

open Scriptlet.Parser Grammar

/-! ## Lists -/

namespace Parser

theorem predicts_behind (s : Symbol) {n m : Nat} :
    Predicts n m (starter (behind s)) (starter (behind s))
      (Optionally fun ls _ => ls = [.symbol s]) := by
  refine (Predicts.starter (fun l => if l = .symbol s then some () else none) rfl
    ?_).mono fun ls selected h => ?_
  · intro l position rest
    cases l with
    | symbol found => by_cases h : found = s <;> simp [behind, h]
    | _ => rfl
  · cases h with
    | none => exact .none
    | some h =>
      obtain ⟨l, rfl, h⟩ := h
      by_cases hl : l = .symbol s
      · exact .some (by rw [hl])
      · exact absurd h (by simp [hl])

variable {α : Type} {n m : Nat} {item item' : Parser α} {Item : Phrase α}

theorem Predicts.many_comma (hi : ∀ {n m}, Predicts n m item item' Item) :
    Predicts n m (Parser.many (behind .comma) fun _ => item)
      (Parser.many (behind .comma) fun _ => item') fun ls as =>
      as = [] ∧ ls = [] ∨ ∃ ms, ls = .symbol .comma :: ms ∧ CommaSeparated Item ms as := by
  refine .many (predicts_behind .comma) (fun _ => hi) rfl ?_ (.inl ⟨rfl, rfl⟩) ?_
  · rintro ls _ ms a rfl _
    simp
  · rintro ls _ ms a ns as rfl ha (⟨rfl, rfl⟩ | ⟨os, rfl, has⟩)
    · rw [List.append_nil]
      exact .inr ⟨ms, rfl, .single ha⟩
    · exact .inr ⟨_, rfl, .more ha has⟩

theorem Predicts.commaSeparated (hi : ∀ {n m}, Predicts n m item item' Item) :
    Predicts n m (Parser.commaSeparated item) (Parser.commaSeparated item')
      (CommaSeparated Item) := by
  refine hi.bind fun ms a ha => (many_comma hi).bind fun ls as has => .pure ?_
  rw [List.append_nil]
  rcases has with ⟨rfl, rfl⟩ | ⟨ns, rfl, has⟩
  · rw [List.append_nil]
    exact .single ha
  · exact .more ha has

end Parser

/-! ## Expressions -/

namespace Expr

/-- The operator of a level that a lexeme is. -/
def operatorOf? (level : BinaryOp.Level) : Lexeme → Option BinaryOp
  | .symbol s => BinaryOp.ofSymbolAt? level s
  | _ => none

theorem predicts_operator? (level : BinaryOp.Level) {n m : Nat} :
    Predicts n m (starter (operator? level)) (starter (operator? level))
      (Optionally fun ls op => ls = [.symbol op.symbol] ∧ op.level = level) := by
  refine (Predicts.starter (operatorOf? level) rfl ?_).mono fun ls selected h => ?_
  · intro l position rest
    cases l <;> rfl
  · cases h with
    | none => exact .none
    | some h =>
      obtain ⟨l, rfl, h⟩ := h
      cases l with
      | symbol s =>
        obtain ⟨rfl, hlevel⟩ := BinaryOp.ofSymbolAt?_eq_some.1 h
        exact .some ⟨rfl, hlevel⟩
      | _ => exact absurd h (by simp [operatorOf?])

theorem predicts_chain (level : BinaryOp.Level) {n m : Nat} {operand operand' : Parser Expr}
    {Operand : Phrase Expr} (ho : ∀ {n m}, Predicts n m operand operand' Operand) :
    Predicts n m (chain level operand) (chain level operand') (Chain level Operand) := by
  have hitem (op : BinaryOp) {n m : Nat} : Predicts n m
      (do let right ← operand; return (op, right)) (do let right ← operand'; return (op, right))
      fun ls item => item.1 = op ∧ Operand ls item.2 := by
    refine ho.bind fun ls right hright => .pure ⟨rfl, ?_⟩
    rwa [List.append_nil]
  have hmore {n m : Nat} : Predicts n m
      (many (operator? level) fun op => do let right ← operand; return (op, right))
      (many (operator? level) fun op => do let right ← operand'; return (op, right))
      fun ls items => ∀ ms e, Chain level Operand ms e → Chain level Operand (ms ++ ls)
        (items.foldl (fun left item => .binary item.1 left item.2) e) := by
    refine .many (predicts_operator? level) hitem rfl ?_ ?_ ?_
    · rintro ls op ms item ⟨rfl, -⟩ _
      simp
    · intro ms e he
      rwa [List.append_nil]
    · rintro ls op ns ⟨op', right⟩ os items ⟨rfl, hlevel⟩ ⟨rfl, hright⟩ hitems ms e he
      rw [List.singleton_append, ← List.cons_append, ← List.append_assoc]
      exact hitems _ _ (.more he hlevel hright)
  refine ho.bind fun ms e he => hmore.bind fun ls items hitems => .pure ?_
  rw [List.append_nil]
  exact hitems ms e (.operand he)

section Parts

variable {n m : Nat} {expression expression' right right' : Parser Expr} {E R : Phrase Expr}

theorem predicts_parenthesized (k : Keyword)
    (he : ∀ {n m}, Predicts n m expression expression' E) :
    Predicts n m (parenthesized k expression) (parenthesized k expression') fun ls e =>
      ∃ ms, ls = .symbol .parenLeft :: ms ++ [.symbol .parenRight] ∧ E ms e := by
  refine (Predicts.symbol _ _).bind fun _ _ hl => he.bind fun ms e hms =>
    (Predicts.symbol _ _).bind fun _ _ hr => .pure ⟨ms, ?_, hms⟩
  simp [hl, hr]

theorem predicts_callArguments (he : ∀ {n m}, Predicts n m expression expression' E) :
    Predicts n m (callArguments expression) (callArguments expression') fun ls arguments =>
      ∀ f, Primary E (.name f :: .symbol .parenLeft :: ls) (.call f arguments) := by
  refine (Predicts.atSymbol _).bind fun _ closed hat => ?_
  rw [hat]
  cases closed with
  | true =>
    simp only [if_true, pure_bind]
    refine (Predicts.symbol _ _).bind fun _ _ hr => .pure fun f => ?_
    rw [hr]
    exact .callEmpty f
  | false =>
    refine (Predicts.commaSeparated he).bind fun ms arguments h =>
      (Predicts.symbol _ _).bind fun _ _ hr => .pure fun f => ?_
    rw [hr]
    exact .call f h

theorem predicts_elements (he : ∀ {n m}, Predicts n m expression expression' E) :
    Predicts n m (elements expression) (elements expression') fun ls es =>
      Primary E (.symbol .bracketLeft :: ls) (.array es) := by
  refine (Predicts.trySymbol _).bind fun _ closed hat => ?_
  rw [hat]
  cases closed with
  | true => exact .pure .arrayEmpty
  | false =>
    refine (Predicts.commaSeparated he).bind fun ms es h =>
      (Predicts.symbol _ _).bind fun _ _ hr => .pure ?_
    rw [hr]
    exact .array h

theorem predicts_indices (he : ∀ {n m}, Predicts n m expression expression' E) :
    Predicts n m (indices expression) (indices expression') fun ls es =>
      es = [] ∧ ls = [] ∨ Indices E ls es := by
  have hitem {n m : Nat} : Predicts n m
      (do let e ← expression; symbol .bracketRight .indexExpression; return e)
      (do let e ← expression'; symbol .bracketRight .indexExpression; return e)
      fun ls e => ∃ ms, ls = ms ++ [.symbol .bracketRight] ∧ E ms e := by
    refine he.bind fun ms e hms => (Predicts.symbol _ _).bind fun _ _ hr => .pure ⟨ms, ?_, hms⟩
    rw [hr, List.append_nil]
  refine .many (predicts_behind .bracketLeft) (fun _ => hitem) rfl ?_ (.inl ⟨rfl, rfl⟩) ?_
  · rintro ls _ ms e rfl _
    simp
  · rintro ls _ _ e ns es rfl ⟨ms, rfl, hms⟩ (⟨rfl, rfl⟩ | hns)
    · rw [List.append_nil]
      exact .inr (.single hms)
    · rw [List.append_assoc]
      exact .inr (.more hms hns)

theorem predicts_afterName (he : ∀ {n m}, Predicts n m expression expression' E) (x : String) :
    Predicts n m (afterName expression x) (afterName expression' x) fun ls e =>
      Primary E (.name x :: ls) e := by
  refine (Predicts.trySymbol _).bind fun _ called hat => ?_
  rw [hat]
  cases called with
  | true =>
    refine (predicts_callArguments he).bind fun ls arguments hls => .pure ?_
    rw [List.append_nil]
    exact hls x
  | false =>
    refine (predicts_indices he).bind fun ls es hls => ?_
    rcases hls with ⟨rfl, rfl⟩ | hls
    · exact .pure (.name x)
    · cases es with
      | nil => cases hls
      | cons e es =>
        refine .pure ?_
        rw [List.append_nil]
        exact .index x hls

theorem begins_primary : Begins (Primary E) [] :=
  begins_nil (.name "x") (by decide)

theorem predicts_primary (he : ∀ {n m}, Predicts n m expression expression' E) :
    Predicts n m (primary expression) (primary expression') (Primary E) where
  inhabited := begins_primary
  onTokens tokens hlen := by
    have hrefuse {l : Lexeme} {position : Position} {rest : List Token}
        (h : ∀ e position rest, primary e (⟨l, position⟩ :: rest) =
          .error ⟨.expression, ⟨l, position⟩ :: rest⟩) :
        PredictsAt m (primary expression) (primary expression') (Primary E)
          (⟨l, position⟩ :: rest) := by
      refine .refuse begins_primary (h _ _ _) fun back hback => ?_
      obtain ⟨position, rest, rfl⟩ := lookahead_eq_some hback
      exact h _ _ _
    cases tokens with
    | nil =>
      refine .refuse begins_primary rfl fun back hback => ?_
      rw [lookahead_eq_none hback]
      rfl
    | cons token rest =>
      obtain ⟨l, position⟩ := token
      have hrest := Nat.le_of_succ_le hlen
      cases l with
      | number digits =>
        exact .take (.int digits) (fun _ _ => rfl) fun _ _ => rfl
      | quoted q s =>
        exact .take (.text q s) (fun _ _ => rfl) fun _ _ => rfl
      | name x => exact .cons hrest (predicts_afterName he x) (fun _ _ => rfl) fun _ _ => rfl
      | symbol s =>
        cases s with
        | parenLeft =>
          refine .cons hrest ?_ (fun _ _ => rfl) fun _ _ => rfl
          refine he.bind fun ls e hls => (Predicts.symbol _ _).bind fun _ _ h => .pure ?_
          rw [h]
          exact .parenthesized hls
        | bracketLeft =>
          refine .cons hrest ?_ (fun _ _ => rfl) fun _ _ => rfl
          refine (predicts_elements he).bind fun ls es hls => .pure ?_
          rwa [List.append_nil]
        | _ => exact hrefuse fun _ _ _ => rfl
      | keyword k =>
        cases k with
        | eval =>
          refine .cons hrest ?_ (fun _ _ => rfl) fun _ _ => rfl
          refine (predicts_parenthesized .eval he).bind fun ls e hls => .pure ?_
          obtain ⟨ms, rfl, hms⟩ := hls
          rw [List.append_nil]
          exact .eval hms
        | id =>
          refine .cons hrest ?_ (fun _ _ => rfl) fun _ _ => rfl
          refine (predicts_parenthesized .id he).bind fun ls e hls => .pure ?_
          obtain ⟨ms, rfl, hms⟩ := hls
          rw [List.append_nil]
          exact .id hms
        | _ => exact hrefuse fun _ _ _ => rfl

theorem predicts_factorWith (he : ∀ {n m}, Predicts n m expression expression' E)
    (hr : ∀ {n m}, Predicts n m right right' R) :
    Predicts n m (factorWith expression right) (factorWith expression' right')
      (FactorOf E R) := by
  -- with a parser for the operator, the dispatch on it becomes a sequence
  have hsplit (expression right : Parser Expr) : factorWith expression right = (do
      let left ← primary expression
      match ← starter (operator? .tight) with
      | none => return left
      | some op => return .binary op left (← right)) := by
    funext tokens
    simp only [factorWith, bind, starter]
    cases primary expression tokens with
    | error stop => rfl
    | ok result =>
      simp only
      cases operator? .tight result.2 <;> rfl
  rw [hsplit, hsplit]
  refine (predicts_primary he).bind fun ls left hls =>
    (predicts_operator? .tight).bind fun os op hos => ?_
  cases hos with
  | none =>
    refine .pure ?_
    rw [List.append_nil, List.append_nil]
    exact .primary hls
  | some hop =>
    obtain ⟨rfl, hlevel⟩ := hop
    refine hr.bind fun ms r hms => .pure ?_
    rw [List.append_nil]
    exact .tight hls hlevel hms

end Parts

theorem begins_factor (n : Nat) : Begins (Factor n) [] := by
  have hname : Factor n [.name "x"] (.name "x") := by
    cases n <;> exact .primary (.name "x")
  exact begins_nil hname (by decide)

theorem begins_expression (n : Nat) : Begins (Expression (n + 1)) [] :=
  (begins_factor n).mono fun _ _ h => .operand (.operand h)

/-- With one more level in the grammar, there is a phrase even where the parser has no level
    left. -/
theorem predicts_factor {j k : Nat} (h : j ≤ k) {n m : Nat} :
    Predicts n m (factor j) (factor k) (Factor (j + 1)) := by
  induction j generalizing k n m with
  | zero =>
    have hright : Begins (Factor 0) [] := begins_factor 0
    have hinner : Begins (Chain .loose (Chain .middle (Factor 0))) [] := begins_expression 0
    cases k with
    | zero => exact predicts_factorWith (.tooDeep hinner) (.tooDeep hright)
    | succ k => exact predicts_factorWith (.tooDeep hinner) (.tooDeep hright)
  | succ j ih =>
    obtain ⟨k, rfl⟩ : ∃ i, k = i + 1 := ⟨k - 1, by omega⟩
    have hfactor {n m : Nat} := ih (Nat.le_of_succ_le_succ h) (n := n) (m := m)
    exact predicts_factorWith (predicts_chain .loose (predicts_chain .middle hfactor)) hfactor

theorem predicts_expression {j k : Nat} (h : j ≤ k) {n m : Nat} :
    Predicts n m (parser j) (parser k) (Expression (j + 1)) := by
  cases j with
  | zero => exact .tooDeep (begins_expression 0)
  | succ j =>
    obtain ⟨k, rfl⟩ : ∃ i, k = i + 1 := ⟨k - 1, by omega⟩
    have hfactor {n m : Nat} := predicts_factor (Nat.le_of_succ_le_succ h) (n := n) (m := m)
    exact predicts_chain .loose (predicts_chain .middle hfactor)

end Expr

/-! ## Statements -/

namespace Stmt

section Parts

variable {n m : Nat} {clause clause' : Parser Stmt} {block block' : Parser Block}
  {expression expression' : Parser Expr} {B : Phrase Block} {E : Phrase Expr}

theorem predicts_printed (he : ∀ {n m}, Predicts n m expression expression' E) :
    Predicts n m (printed expression) (printed expression') fun ls s =>
      Statement B E (.keyword .print :: ls) s := by
  refine (Predicts.symbol _ _).bind fun _ _ hl =>
    (Predicts.commaSeparated he).bind fun ls arguments h =>
    (Predicts.symbol _ _).bind fun _ _ hr => .pure ?_
  rw [hl, hr]
  exact .print h

theorem predicts_branched (hb : ∀ {n m}, Predicts n m block block' B)
    (he : ∀ {n m}, Predicts n m expression expression' E) :
    Predicts n m (branched block expression) (branched block' expression') fun ls s =>
      Statement B E (.keyword .if_ :: ls) s := by
  refine he.bind fun cs condition hc => (Predicts.keyword _ _).bind fun _ _ hthen =>
    hb.bind fun ts thenBlock ht => (Predicts.tryKeyword _).bind fun _ other hother => ?_
  rw [hthen, hother]
  cases other with
  | true =>
    refine hb.bind fun es elseBlock hes => (Predicts.keyword _ _).bind fun _ _ hend => .pure ?_
    rw [hend]
    simpa using Statement.branchElse hc ht hes
  | false =>
    simp only [Bool.false_eq_true, if_false, pure_bind]
    refine (Predicts.keyword _ _).bind fun _ _ hend => .pure ?_
    rw [hend]
    simpa using Statement.branch hc ht

theorem predicts_looped (hb : ∀ {n m}, Predicts n m block block' B)
    (he : ∀ {n m}, Predicts n m expression expression' E) :
    Predicts n m (looped block expression) (looped block' expression') fun ls s =>
      Statement B E (.keyword .while_ :: ls) s := by
  refine he.bind fun cs condition hc => (Predicts.keyword _ _).bind fun _ _ hdo =>
    hb.bind fun bs body hbs => (Predicts.keyword _ _).bind fun _ _ hend => .pure ?_
  rw [hdo, hend]
  simpa using Statement.whileLoop hc hbs

theorem predicts_counted
    (hs : ∀ {j k}, k ≤ m → Predicts j k clause clause' (Statement B E))
    (hb : ∀ {n m}, Predicts n m block block' B)
    (he : ∀ {n m}, Predicts n m expression expression' E) :
    Predicts n m (counted clause block expression) (counted clause' block' expression')
      fun ls s => Statement B E (.keyword .for_ :: ls) s := by
  refine (hs (Nat.le_refl m)).bind fun is init hi => (Predicts.symbol _ _).bind fun _ _ hfirst =>
    he.bind fun cs condition hc => (Predicts.symbol _ _).bind fun _ _ hsecond =>
    (hs (by omega)).bind fun ss step hss => (Predicts.keyword _ _).bind fun _ _ hdo =>
    hb.bind fun bs body hbs => (Predicts.keyword _ _).bind fun _ _ hend => .pure ?_
  rw [hfirst, hsecond, hdo, hend]
  simpa using Statement.forLoop hi hc hss hbs

theorem predicts_name (wanted : Wanted) (place : Place) :
    Predicts n m (name wanted place) (name wanted place) Name :=
  (Predicts.name wanted place).mono fun _ x h => h ▸ .name x

theorem predicts_parameters :
    Predicts n m parameters parameters fun ls ps => ps = [] ∧ ls = [.symbol .parenRight] ∨
      ∃ ms, ls = ms ++ [.symbol .parenRight] ∧ CommaSeparated Name ms ps := by
  refine (Predicts.atSymbol _).bind fun _ closed hat => ?_
  rw [hat]
  cases closed with
  | true =>
    simp only [if_true, pure_bind]
    refine (Predicts.symbol _ _).bind fun _ _ hr => .pure (.inl ⟨rfl, ?_⟩)
    simp [hr]
  | false =>
    refine (predicts_name _ _).bind fun ms first hfirst =>
      (Predicts.many_comma (predicts_name _ _)).bind fun ns more hmore =>
      (Predicts.symbol _ _).bind fun _ _ hr => .pure (.inr ?_)
    rw [hr]
    rcases hmore with ⟨rfl, rfl⟩ | ⟨os, rfl, hmore⟩
    · exact ⟨ms, by simp, .single hfirst⟩
    · exact ⟨ms ++ .symbol .comma :: os, by simp, .more hfirst hmore⟩

theorem predicts_defined (hb : ∀ {n m}, Predicts n m block block' B) :
    Predicts n m (defined block) (defined block') fun ls s =>
      Statement B E (.keyword .function :: ls) s := by
  refine (Predicts.name _ _).bind fun _ f hf => (Predicts.symbol _ _).bind fun _ _ hl =>
    predicts_parameters.bind fun ps parameters hps => hb.bind fun bs body hbs =>
    (Predicts.keyword _ _).bind fun _ _ hend => .pure ?_
  rw [hf, hl, hend]
  rcases hps with ⟨rfl, rfl⟩ | ⟨ms, rfl, hps⟩
  · simpa using Statement.defineEmpty f hbs
  · simpa using Statement.define f hps hbs

theorem predicts_globalized (he : ∀ {n m}, Predicts n m expression expression' E) :
    Predicts n m (globalized expression) (globalized expression') fun ls s =>
      Statement B E (.keyword .global :: ls) s := by
  refine (Predicts.name _ _).bind fun _ x hx =>
    (Predicts.trySymbol _).bind fun _ declared hat => ?_
  rw [hx, hat]
  cases declared with
  | true =>
    refine he.bind fun ls value h => .pure ?_
    rw [List.append_nil]
    exact .declareGlobal x h
  | false => exact .pure (.promote x)

theorem predicts_targeted (k : Keyword) (he : ∀ {n m}, Predicts n m expression expression' E) :
    Predicts n m (targeted k expression) (targeted k expression') fun ls pair => ∃ ts vs,
      ls = .symbol .parenLeft :: ts ++ .symbol .comma :: vs ++ [.symbol .parenRight] ∧
        E ts pair.1 ∧ E vs pair.2 := by
  refine (Predicts.symbol _ _).bind fun _ _ hl => he.bind fun ts target ht =>
    (Predicts.symbol _ _).bind fun _ _ hcomma => he.bind fun vs value hv =>
    (Predicts.symbol _ _).bind fun _ _ hr => .pure ⟨ts, vs, ?_, ht, hv⟩
  simp [hl, hcomma, hr]

theorem predicts_assignAll (he : ∀ {n m}, Predicts n m expression expression' E) (x : String) :
    Predicts n m
      (do
        let more ← many (behind .comma) fun _ => name .name (.symbol .comma)
        symbol .assign .names
        return assignAll (x :: more) (← commaSeparated expression))
      (do
        let more ← many (behind .comma) fun _ => name .name (.symbol .comma)
        symbol .assign .names
        return assignAll (x :: more) (← commaSeparated expression'))
      fun ls s => ∃ ns more vs values, ls = ns ++ .symbol .assign :: vs ∧
        (more = [] ∧ ns = [] ∨ ∃ ms, ns = .symbol .comma :: ms ∧ CommaSeparated Name ms more) ∧
        CommaSeparated E vs values ∧ s = assignAll (x :: more) values := by
  refine (Predicts.many_comma (predicts_name _ _)).bind fun ns more hmore =>
    (Predicts.symbol _ _).bind fun _ _ ha =>
    (Predicts.commaSeparated he).bind fun vs values hvs =>
    .pure ⟨ns, more, vs, values, ?_, hmore, hvs, rfl⟩
  simp [ha]

theorem begins_afterName {xs : List Lexeme} {x : String} (hx : E xs (.name x)) :
    Begins (fun ls s => Statement B E (xs ++ ls) s) [] :=
  begins_nil (.increment .up hx) (by decide)

theorem predicts_afterName (he : ∀ {n m}, Predicts n m expression expression' E)
    {xs : List Lexeme} {x : String} (hx : E xs (.name x)) :
    Predicts n m (afterName expression x) (afterName expression' x) fun ls s =>
      Statement B E (xs ++ ls) s where
  inhabited := begins_afterName hx
  onTokens tokens hlen := by
    have hbare : Statement B E (xs ++ []) (.expression (.name x)) := by
      rw [List.append_nil]
      exact .expression hx (by simp)
    have hpass {l : Lexeme} {position : Position} {rest : List Token}
        (h : ∀ e position rest, afterName e x (⟨l, position⟩ :: rest) =
          .ok (.expression (.name x), ⟨l, position⟩ :: rest)) :
        PredictsAt m (afterName expression x) (afterName expression' x)
          (fun ls s => Statement B E (xs ++ ls) s) (⟨l, position⟩ :: rest) := by
      refine .pass hbare (h _ _ _) fun back hback => ?_
      obtain ⟨position, rest, rfl⟩ := lookahead_eq_some hback
      exact h _ _ _
    cases tokens with
    | nil =>
      refine .pass hbare rfl fun back hback => ?_
      rw [lookahead_eq_none hback]
      rfl
    | cons token rest =>
      obtain ⟨l, position⟩ := token
      have hrest := Nat.le_of_succ_le hlen
      have hcompound {s : Symbol} (op : Arithmetic) (hop : Arithmetic.ofCompound? s = some op)
          (h : ∀ e position rest, afterName e x (⟨.symbol s, position⟩ :: rest) =
            (do return .compound x op (← e) : Parser Stmt) rest) :
          PredictsAt m (afterName expression x) (afterName expression' x)
            (fun ls s => Statement B E (xs ++ ls) s) (⟨.symbol s, position⟩ :: rest) := by
        refine .cons hrest ?_ (h expression) (h expression')
        refine he.bind fun ls value hvalue => .pure ?_
        rw [List.append_nil]
        exact .compound hx hop hvalue
      cases l with
      | symbol s =>
        cases s with
        | assign =>
          refine .cons hrest ?_ (fun _ _ => rfl) fun _ _ => rfl
          refine he.bind fun ls value h => .pure ?_
          rw [List.append_nil]
          exact .assign hx h
        | plusPlus =>
          exact .take (.increment .up hx) (fun _ _ => rfl) fun _ _ => rfl
        | minusMinus =>
          exact .take (.increment .down hx) (fun _ _ => rfl) fun _ _ => rfl
        | comma =>
          have hall := (predicts_assignAll he x (n := n) (m := m)).onTokens _ hlen
          have hnames := hall.restrict (Q := fun ls s => Statement B E (xs ++ ls) s) ?_
            (begins_afterName hx) ?_
          · refine hnames.congr rfl fun back hback => ?_
            obtain ⟨position, rest, rfl⟩ := lookahead_eq_some hback
            rfl
          · rintro s ⟨ns, more, vs, values, hls, -⟩
            exact absurd hls (by simp)
          · rintro ls s ⟨ns, more, vs, values, hls, hmore, hvs, rfl⟩
            -- without a further name, the comma would have to be the equals sign
            rcases hmore with ⟨rfl, rfl⟩ | ⟨ms, rfl, hmore⟩
            · exact absurd hls (by simp)
            · rw [hls]
              simpa using Statement.assignAll hx hmore hvs
        | plusAssign => exact hcompound .add rfl fun _ _ _ => rfl
        | minusAssign => exact hcompound .subtract rfl fun _ _ _ => rfl
        | starAssign => exact hcompound .multiply rfl fun _ _ _ => rfl
        | slashAssign => exact hcompound .divide rfl fun _ _ _ => rfl
        | _ => exact hpass fun _ _ _ => rfl
      | _ => exact hpass fun _ _ _ => rfl

theorem predicts_simple (he : ∀ {n m}, Predicts n m expression expression' E) :
    Predicts n m (simple expression) (simple expression') (Statement B E) := by
  refine he.bind fun xs e hxs => ?_
  have hbare (h : ∀ f arguments, e ≠ .call f arguments) {n m : Nat} :
      Predicts n m (pure (.expression e)) (pure (.expression e)) fun ls s =>
        Statement B E (xs ++ ls) s := by
    refine .pure ?_
    rw [List.append_nil]
    exact .expression hxs h
  cases e with
  | name x => exact predicts_afterName he hxs
  | index x indices =>
    refine (Predicts.trySymbol _).bind fun _ assigned hat => ?_
    rw [hat]
    cases assigned with
    | true =>
      refine he.bind fun ls value h => .pure ?_
      rw [List.append_nil]
      exact .assignIndex hxs h
    | false => exact hbare (by simp)
  | call f arguments =>
    refine .pure ?_
    rw [List.append_nil]
    exact .call hxs
  | _ => exact hbare (by simp)

theorem begins_statement : Begins (Statement B E) [] :=
  begins_nil .exit (by decide)

/-- A statement predicts what its parts predict; the clauses of a header, which stand behind the
    keyword, only have to on fewer tokens. -/
theorem predicts_form (hs : ∀ {j k}, k ≤ m - 1 → Predicts j k clause clause' (Statement B E))
    (hb : ∀ {n m}, Predicts n m block block' B)
    (he : ∀ {n m}, Predicts n m expression expression' E) :
    Predicts n m (form clause block expression) (form clause' block' expression')
      (Statement B E) where
  inhabited := begins_statement
  onTokens tokens hlen := by
    have hsimple := (predicts_simple (B := B) he (n := n) (m := m)).onTokens tokens hlen
    cases tokens with
    | nil =>
      refine hsimple.congr rfl fun back hback => ?_
      rw [lookahead_eq_none hback]
      rfl
    | cons token rest =>
      obtain ⟨l, position⟩ := token
      have hrest := Nat.le_of_succ_le hlen
      have hother (h : ∀ clause block expression position rest,
          form clause block expression (⟨l, position⟩ :: rest) =
            simple expression (⟨l, position⟩ :: rest)) :
          PredictsAt m (form clause block expression) (form clause' block' expression')
            (Statement B E) (⟨l, position⟩ :: rest) := by
        refine hsimple.congr (h _ _ _ _ _) fun back hback => ?_
        obtain ⟨position, rest, rfl⟩ := lookahead_eq_some hback
        exact h _ _ _ _ _
      cases l with
      | keyword k =>
        cases k with
        | exit =>
          exact .take .exit (fun _ _ => rfl) fun _ _ => rfl
        | print => exact .cons hrest (predicts_printed he) (fun _ _ => rfl) fun _ _ => rfl
        | if_ => exact .cons hrest (predicts_branched hb he) (fun _ _ => rfl) fun _ _ => rfl
        | while_ => exact .cons hrest (predicts_looped hb he) (fun _ _ => rfl) fun _ _ => rfl
        | for_ => exact .cons hrest (predicts_counted hs hb he) (fun _ _ => rfl) fun _ _ => rfl
        | function => exact .cons hrest (predicts_defined hb) (fun _ _ => rfl) fun _ _ => rfl
        | return_ =>
          refine .cons hrest ?_ (fun _ _ => rfl) fun _ _ => rfl
          refine he.bind fun ls value h => .pure ?_
          rw [List.append_nil]
          exact .return_ h
        | global => exact .cons hrest (predicts_globalized he) (fun _ _ => rfl) fun _ _ => rfl
        | append =>
          refine .cons hrest ?_ (fun _ _ => rfl) fun _ _ => rfl
          refine (predicts_targeted _ he).bind fun ls pair h => .pure ?_
          obtain ⟨ts, vs, rfl, ht, hv⟩ := h
          rw [List.append_nil]
          exact .append ht hv
        | remove =>
          refine .cons hrest ?_ (fun _ _ => rfl) fun _ _ => rfl
          refine (predicts_targeted _ he).bind fun ls pair h => .pure ?_
          obtain ⟨ts, vs, rfl, ht, hv⟩ := h
          rw [List.append_nil]
          exact .remove ht hv
        | _ => exact hother fun _ _ _ _ _ => rfl
      | _ => exact hother fun _ _ _ _ _ => rfl

/-- On few enough tokens, the bound on headers makes no difference. -/
theorem predicts_parserUpTo (hb : ∀ {n m}, Predicts n m block block' B)
    (he : ∀ {n m}, Predicts n m expression expression' E) (h h' : Nat) :
    Predicts n h' (parserUpTo block expression h) (parserUpTo block' expression' h')
      (Statement B E) := by
  induction h generalizing n h' with
  | zero =>
    cases h' with
    | zero => exact predicts_form (fun _ => .tooDeep begins_statement) hb he
    | succ h' => exact predicts_form (fun _ => .tooDeep begins_statement) hb he
  | succ h ih =>
    have hheader (h' : Nat) : Predicts n (h' + 1) (parserUpTo block expression (h + 1))
        (parserUpTo block' expression' (h' + 1)) (Statement B E) :=
      predicts_form (fun hk => (ih h').fewer (Nat.le_refl _) hk) hb he
    cases h' with
    | zero =>
      -- without tokens, one header more makes no difference
      refine ((hheader 0).fewer (Nat.le_refl _) (Nat.zero_le 1)).congr_right fun tokens hlen => ?_
      obtain rfl := List.length_eq_zero_iff.1 (Nat.le_zero.1 hlen)
      rfl
    | succ h' => exact hheader h'

theorem predicts_statement (hb : ∀ {n m}, Predicts n m block block' B)
    (he : ∀ {n m}, Predicts n m expression expression' E) :
    Predicts n m (parser block expression) (parser block' expression') (Statement B E) :=
  .byLength fun h h' => predicts_parserUpTo hb he h h'

theorem predicts_further :
    Predicts n m (starter further) (starter further) (Optionally fun ls _ => ls = []) where
  inhabited := begins_nil .none (by simp)
  onTokens tokens _ := by
    let found (l : Option Lexeme) : Option Unit :=
      l.bind fun l => if goesOn l then some () else none
    have heq (tokens : List Token) :
        starter further tokens = .ok (found (lookahead tokens), tokens) := by
      cases tokens with
      | nil => rfl
      | cons token rest =>
        obtain ⟨l, position⟩ := token
        cases l with
        | keyword k =>
          cases hk : endsBlock k <;> simp [starter, further, found, lookahead, goesOn, hk]
        | _ => rfl
    refine .pass ?_ (heq tokens) fun back hback => hback ▸ heq back
    cases found (lookahead tokens) with
    | none => exact .none
    | some => exact .some rfl

theorem predicts_terminated {statement statement' : Parser Stmt} {S : Phrase Stmt}
    (hs : ∀ {n m}, Predicts n m statement statement' S) :
    Predicts n m (terminated statement) (terminated statement') fun ls s =>
      ∃ ms, ls = ms ++ [.symbol .semicolon] ∧ S ms s := by
  refine hs.bind fun ms s h => (Predicts.symbol _ _).bind fun _ _ hend => .pure ⟨ms, ?_, h⟩
  rw [hend, List.append_nil]

theorem predicts_statements {statement statement' : Parser Stmt} {S : Phrase Stmt}
    (hs : ∀ {n m}, Predicts n m statement statement' S) :
    Predicts n m (statements statement) (statements statement') (Statements S) := by
  have hmore {n m : Nat} : Predicts n m (many further fun _ => terminated statement)
      (many further fun _ => terminated statement') fun ls rest =>
      rest = [] ∧ ls = [] ∨ Statements S ls rest := by
    refine .many predicts_further (fun _ => predicts_terminated hs) rfl ?_ (.inl ⟨rfl, rfl⟩) ?_
    · rintro _ _ _ s - ⟨ms, rfl, -⟩
      simp
    · rintro _ _ _ s ns rest rfl ⟨ms, rfl, h⟩ (⟨rfl, rfl⟩ | hrest)
      · rw [List.append_nil]
        exact .inr (.single h)
      · rw [List.nil_append, List.append_assoc]
        exact .inr (.more h hrest)
  refine (predicts_terminated hs).bind fun _ s h => hmore.bind fun ls rest hrest => .pure ?_
  obtain ⟨ms, rfl, h⟩ := h
  rw [List.append_nil]
  rcases hrest with ⟨rfl, rfl⟩ | hrest
  · rw [List.append_nil]
    exact .single h
  · rw [List.append_assoc]
    exact .more h hrest

end Parts

theorem predicts_blockParser {j k : Nat} (h : j ≤ k) {n m : Nat} :
    Predicts n m (blockParser j) (blockParser k) (Grammar.Block (j + 1)) := by
  induction j generalizing k n m with
  | zero =>
    have hexit : Grammar.Block 1 ([.keyword .exit] ++ [.symbol .semicolon]) [.exit] :=
      Statements.single .exit
    exact .tooDeep (begins_nil hexit (by decide))
  | succ j ih =>
    obtain ⟨k, rfl⟩ : ∃ i, k = i + 1 := ⟨k - 1, by omega⟩
    have hle := Nat.le_of_succ_le_succ h
    exact predicts_statements (predicts_statement (ih hle) (Expr.predicts_expression hle))

end Stmt

end Scriptlet
