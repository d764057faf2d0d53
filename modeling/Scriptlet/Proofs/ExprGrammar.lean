import Scriptlet.Proofs.Grammar

set_option autoImplicit false

/-! # The expression parser and the grammar

`Expr.parser n` takes exactly the phrases of `Grammar.Expression n`: it is sound, and complete in
front of lexemes that do not join an expression. Both directions follow the parser function by
function, with what a function reads inside left as a parameter, and close by induction on the
levels.

Completeness has to know the lexemes around a phrase. Which lexemes join an expression in front of
them depends on the operators of its level; and an expression never starts with a closing bracket,
which is how an empty list is told from another. -/

namespace Scriptlet

theorem BinaryOp.symbol_of_ofSymbol? {s : Symbol} {op : BinaryOp} (h : ofSymbol? s = some op) :
    op.symbol = s := by
  unfold ofSymbol? at h
  split at h <;> first | (cases h; rfl) | exact absurd h (by simp)

theorem BinaryOp.ofSymbolAt?_eq_some {level : Level} {s : Symbol} {op : BinaryOp} :
    ofSymbolAt? level s = some op ↔ s = op.symbol ∧ op.level = level := by
  unfold ofSymbolAt?
  rw [Option.filter_eq_some_iff]
  simp only [beq_iff_eq]
  constructor
  · rintro ⟨hs, hl⟩
    exact ⟨(symbol_of_ofSymbol? hs).symm, hl⟩
  · rintro ⟨rfl, hl⟩
    exact ⟨ofSymbol?_symbol op, hl⟩

/-! ## Lists with commas -/

namespace Parser

/-- Every phrase starts with a lexeme of the given kind. -/
def StartsWith {α : Type} (P : Phrase α) (first : Lexeme → Bool) : Prop :=
  ∀ ls a, P ls a → ∃ l tail, ls = l :: tail ∧ first l = true

open Grammar

variable {α : Type} {item : Parser α} {Item : Phrase α}

/-- What a repetition takes behind commas: nothing, or a comma and a list. -/
theorem Sound.many_comma (hi : Sound item Item) :
    Sound (Parser.many (behind .comma) fun _ => item) fun ls as =>
      as = [] ∧ ls = [] ∨ ∃ ms, ls = .symbol .comma :: ms ∧ CommaSeparated Item ms as := by
  refine .many (fun _ _ _ h => behind_eq_some h) (fun _ => hi) (.inl ⟨rfl, rfl⟩) ?_
  rintro ls _ ms a ns as rfl ha (⟨rfl, rfl⟩ | ⟨os, rfl, has⟩)
  · rw [List.append_nil]
    exact .inr ⟨ms, rfl, .single ha⟩
  · exact .inr ⟨_, rfl, .more ha has⟩

theorem Sound.commaSeparated (hi : Sound item Item) :
    Sound (Parser.commaSeparated item) (CommaSeparated Item) := by
  refine hi.bind fun ms a ha => hi.many_comma.bind fun ls as has => .pure ?_
  rw [List.append_nil]
  rcases has with ⟨rfl, rfl⟩ | ⟨ns, rfl, has⟩
  · rw [List.append_nil]
    exact .single ha
  · exact .more ha has

/-- Behind a comma, a repetition reads the items of a list. -/
theorem readsMany_comma {joins : Lexeme → Bool} (hi : Complete item Item joins)
    (hcomma : joins (.symbol .comma) = false) {fs : List Lexeme} (hfs : Stops joins fs)
    (hnone : Stops (· = .symbol .comma) fs) {ls : List Lexeme} {as : List α}
    (h : CommaSeparated Item ls as) :
    ReadsMany (behind .comma) (fun _ => item) (.symbol .comma :: (ls ++ fs)) as fs := by
  induction h with
  | single ha =>
    exact .cons behind_self (hi ha hfs) (by grind) (.nil (behind_of_stops hnone))
  | more ha _ ih =>
    rw [List.append_assoc]
    exact .cons behind_self (hi ha (by simpa using hcomma)) (by grind) ih

theorem Complete.commaSeparated {joins : Lexeme → Bool} (hi : Complete item Item joins)
    (hcomma : joins (.symbol .comma) = false) :
    Complete (Parser.commaSeparated item) (CommaSeparated Item)
      (fun l => joins l || l = .symbol .comma) := by
  intro ls as fs h hfs
  obtain ⟨hjoins, hnone⟩ := stops_or.1 hfs
  cases h with
  | single ha =>
    exact (hi ha hjoins).bind ((ReadsMany.nil (behind_of_stops hnone)).many.bind (.pure _ _))
  | more ha has =>
    rw [List.append_assoc]
    exact (hi ha (by simpa using hcomma)).bind
      ((readsMany_comma hi hcomma hjoins hnone has).many.bind (.pure _ _))

end Parser

namespace Expr

open Scriptlet.Parser Grammar

/-! ## Soundness -/

theorem operator?_eq_some {level : BinaryOp.Level} {tokens mid : List Token} {op : BinaryOp}
    (h : operator? level tokens = some (op, mid)) :
    ∃ ls, tokens.map Token.lexeme = ls ++ mid.map Token.lexeme ∧
      ls = [.symbol op.symbol] ∧ op.level = level := by
  unfold operator? at h
  split at h
  · rw [Option.map_eq_some_iff] at h
    obtain ⟨op', hop, heq⟩ := h
    simp only [Prod.mk.injEq] at heq
    obtain ⟨rfl, rfl⟩ := heq
    obtain ⟨rfl, hlevel⟩ := BinaryOp.ofSymbolAt?_eq_some.1 hop
    exact ⟨[.symbol op'.symbol], rfl, rfl, hlevel⟩
  · exact absurd h (by simp)

theorem sound_chain (level : BinaryOp.Level) {operand : Parser Expr} {Operand : Phrase Expr}
    (ho : Sound operand Operand) : Sound (chain level operand) (Chain level Operand) := by
  have hitem (op : BinaryOp) : Sound (do
      let right ← operand
      return (op, right)) fun ls item => item.1 = op ∧ Operand ls item.2 := by
    refine ho.bind fun ls right hright => .pure ⟨rfl, ?_⟩
    rwa [List.append_nil]
  -- What is repeated extends any chain in front of it; this is where it groups to the left.
  have hmore : Sound (many (operator? level) fun op => do
      let right ← operand
      return (op, right)) fun ls items =>
      ∀ ms e, Chain level Operand ms e → Chain level Operand (ms ++ ls)
        (items.foldl (fun left item => .binary item.1 left item.2) e) := by
    refine .many (fun _ _ _ h => operator?_eq_some h) hitem ?_ ?_
    · intro ms e he
      rwa [List.append_nil]
    · rintro ls op ns ⟨op', right⟩ os items ⟨hls, hlevel⟩ ⟨hop, hright⟩ hitems ms e he
      subst hls hop
      rw [List.singleton_append, ← List.cons_append, ← List.append_assoc]
      exact hitems _ _ (.more he hlevel hright)
  refine ho.bind fun ms e he => hmore.bind fun ls items hitems => .pure ?_
  rw [List.append_nil]
  exact hitems ms e (.operand he)

section Soundness

variable {expression right : Parser Expr} {E R : Phrase Expr}

theorem sound_parenthesized (k : Keyword) (he : Sound expression E) :
    Sound (parenthesized k expression) fun ls e =>
      ∃ ms, ls = .symbol .parenLeft :: ms ++ [.symbol .parenRight] ∧ E ms e := by
  refine (Sound.symbol _ _).bind fun _ _ hl => he.bind fun ms e hms =>
    (Sound.symbol _ _).bind fun _ _ hr => .pure ⟨ms, ?_, hms⟩
  simp [hl, hr]

theorem sound_callArguments (he : Sound expression E) :
    Sound (callArguments expression) fun ls arguments =>
      ∀ f, Primary E (.name f :: .symbol .parenLeft :: ls) (.call f arguments) := by
  refine (Sound.atSymbol _).bind fun _ closed hat => ?_
  rw [hat]
  cases closed with
  | true =>
    simp only [if_true, pure_bind]
    refine (Sound.symbol _ _).bind fun _ _ hr => .pure fun f => ?_
    rw [hr]
    exact .callEmpty f
  | false =>
    refine he.commaSeparated.bind fun ms arguments hms =>
      (Sound.symbol _ _).bind fun _ _ hr => .pure fun f => ?_
    rw [hr]
    exact .call f hms

theorem sound_elements (he : Sound expression E) :
    Sound (elements expression) fun ls es =>
      Primary E (.symbol .bracketLeft :: ls) (.array es) := by
  refine (Sound.trySymbol _).bind fun _ closed hat => ?_
  rw [hat]
  cases closed with
  | true => exact .pure .arrayEmpty
  | false =>
    refine he.commaSeparated.bind fun ms es hms => (Sound.symbol _ _).bind fun _ _ hr => .pure ?_
    rw [hr]
    exact .array hms

theorem sound_indices (he : Sound expression E) :
    Sound (indices expression) fun ls es => es = [] ∧ ls = [] ∨ Indices E ls es := by
  have hitem : Sound (do
      let e ← expression
      symbol .bracketRight .indexExpression
      return e) fun ls e => ∃ ms, ls = ms ++ [.symbol .bracketRight] ∧ E ms e := by
    refine he.bind fun ms e hms => (Sound.symbol _ _).bind fun _ _ hr => .pure ⟨ms, ?_, hms⟩
    rw [hr, List.append_nil]
  refine .many (fun _ _ _ h => behind_eq_some h) (fun _ => hitem) (.inl ⟨rfl, rfl⟩) ?_
  rintro ls _ _ e ns es hls ⟨ms, rfl, hms⟩ (⟨rfl, rfl⟩ | hns)
  · rw [hls, List.append_nil]
    exact .inr (.single hms)
  · rw [hls, List.append_assoc]
    exact .inr (.more hms hns)

theorem sound_afterName (he : Sound expression E) (x : String) :
    Sound (afterName expression x) fun ls e => Primary E (.name x :: ls) e := by
  refine (Sound.trySymbol _).bind fun _ called hat => ?_
  rw [hat]
  cases called with
  | true =>
    refine (sound_callArguments he).bind fun ls arguments hls => .pure ?_
    rw [List.append_nil]
    exact hls x
  | false =>
    refine (sound_indices he).bind fun ls es hls => ?_
    rcases hls with ⟨rfl, rfl⟩ | hls
    · exact .pure (.name x)
    · cases es with
      -- there is at least one index, so the parser does not take the name for a variable
      | nil => cases hls
      | cons e es =>
        refine .pure ?_
        rw [List.append_nil]
        exact .index x hls

theorem sound_primary (he : Sound expression E) : Sound (primary expression) (Primary E) := by
  intro tokens a rest hr
  unfold primary at hr
  split at hr
  · simp only [Except.ok.injEq, Prod.mk.injEq] at hr
    obtain ⟨rfl, rfl⟩ := hr
    exact ⟨_, rfl, .int _⟩
  · simp only [Except.ok.injEq, Prod.mk.injEq] at hr
    obtain ⟨rfl, rfl⟩ := hr
    exact ⟨_, rfl, .text _ _⟩
  · exact Sound.of_cons (sound_afterName he _) hr
  · refine Sound.of_cons (he.bind fun ls e hls => (Sound.symbol _ _).bind fun _ _ h => .pure ?_) hr
    rw [h]
    exact .parenthesized hls
  · refine Sound.of_cons ((sound_elements he).bind fun ls e hls => .pure ?_) hr
    rwa [List.append_nil]
  · refine Sound.of_cons ((sound_parenthesized .eval he).bind fun ls e hls => .pure ?_) hr
    obtain ⟨ms, rfl, hms⟩ := hls
    rw [List.append_nil]
    exact .eval hms
  · refine Sound.of_cons ((sound_parenthesized .id he).bind fun ls e hls => .pure ?_) hr
    obtain ⟨ms, rfl, hms⟩ := hls
    rw [List.append_nil]
    exact .id hms
  · exact absurd hr (by simp [fail])

theorem sound_factorWith (he : Sound expression E) (hr : Sound right R) :
    Sound (factorWith expression right) (FactorOf E R) := by
  refine (sound_primary he).bind fun ls left hls tokens a rest h => ?_
  split at h
  · simp only [Except.ok.injEq, Prod.mk.injEq] at h
    obtain ⟨rfl, rfl⟩ := h
    refine ⟨[], rfl, ?_⟩
    show FactorOf E R (ls ++ []) left
    rw [List.append_nil]
    exact .primary hls
  · next op mid hop =>
    obtain ⟨os, hos, rfl, hlevel⟩ := operator?_eq_some hop
    have hright : Sound (do return .binary op left (← right)) fun ms e =>
        FactorOf E R (ls ++ .symbol op.symbol :: ms) e := by
      refine hr.bind fun ms r hms => .pure ?_
      rw [List.append_nil]
      exact .tight hls hlevel hms
    obtain ⟨ms, hms, hfactor⟩ := hright h
    exact ⟨.symbol op.symbol :: ms, by rw [hos, hms]; rfl, hfactor⟩

end Soundness

/-- What the factor parser takes is a factor. -/
theorem sound_factor (n : Nat) : Sound (factor n) (Factor n) := by
  induction n with
  | zero => exact sound_factorWith (.fail _) (.fail _)
  | succ n ih => exact sound_factorWith (sound_chain .loose (sound_chain .middle ih)) ih

/-- What the expression parser takes is an expression. -/
theorem sound_expression (n : Nat) : Sound (parser n) (Expression n) := by
  cases n with
  | zero => exact .fail _
  | succ n => exact sound_chain .loose (sound_chain .middle (sound_factor n))

/-! ## What stands around an expression -/

/-- Lexemes that start an expression. -/
def starts : Lexeme → Bool
  | .number _ | .quoted _ _ | .name _ => true
  | .symbol .parenLeft | .symbol .bracketLeft => true
  | .keyword .eval | .keyword .id => true
  | _ => false

/-- Operators of a level. -/
def isOperator (level : BinaryOp.Level) : Lexeme → Bool
  | .symbol s => (BinaryOp.ofSymbolAt? level s).isSome
  | _ => false

/-- Lexemes that join a primary in front of them: it becomes a call or an indexed variable. -/
def joinsPrimary : Lexeme → Bool
  | .symbol .parenLeft | .symbol .bracketLeft => true
  | _ => false

/-- Lexemes that join a factor in front of them. -/
def joinsFactor (l : Lexeme) : Bool := joinsPrimary l || isOperator .tight l

/-- Lexemes that join a chain of middle operators in front of them. -/
def joinsMiddle (l : Lexeme) : Bool := joinsFactor l || isOperator .middle l

/-- Lexemes that join an expression in front of them. -/
def joins (l : Lexeme) : Bool := joinsMiddle l || isOperator .loose l

theorem isOperator_symbol (level : BinaryOp.Level) (op : BinaryOp) :
    isOperator level (.symbol op.symbol) = decide (op.level = level) := by
  show ((BinaryOp.ofSymbol? op.symbol).filter (·.level == level)).isSome = _
  rw [BinaryOp.ofSymbol?_symbol]
  by_cases h : op.level = level <;> simp [Option.filter, h]

theorem joinsPrimary_symbol (op : BinaryOp) : joinsPrimary (.symbol op.symbol) = false := by
  cases op with
  | arithmetic op => cases op <;> rfl
  | order r => cases r <;> rfl
  | _ => rfl

theorem operator?_self {op : BinaryOp} {ms : List Lexeme} (tokens : List Token)
    (h : tokens.map Token.lexeme = .symbol op.symbol :: ms) :
    ∃ mid, mid.map Token.lexeme = ms ∧ operator? op.level tokens = some (op, mid) := by
  obtain ⟨position, rest, rfl, hms⟩ := exists_of_map_eq_cons h
  refine ⟨rest, hms, ?_⟩
  simp only [operator?, BinaryOp.ofSymbolAt?_eq_some.2 ⟨rfl, rfl⟩, Option.map_some]

theorem operator?_of_stops {level : BinaryOp.Level} {fs : List Lexeme}
    (h : Stops (isOperator level) fs) (tokens : List Token)
    (htokens : tokens.map Token.lexeme = fs) : operator? level tokens = none := by
  unfold operator?
  split
  · subst htokens
    simp only [List.map_cons, stops_cons, isOperator, Option.isSome_eq_false_iff,
      Option.isNone_iff_eq_none] at h
    rw [h]
    rfl
  · rfl

theorem startsWith_factorOf (E R : Phrase Expr) : StartsWith (FactorOf E R) starts := by
  intro ls e h
  cases h with
  | primary h => cases h <;> exact ⟨_, _, rfl, rfl⟩
  | tight h _ _ => cases h <;> exact ⟨_, _, rfl, rfl⟩

theorem startsWith_chain (level : BinaryOp.Level) {Operand : Phrase Expr}
    (ho : StartsWith Operand starts) : StartsWith (Chain level Operand) starts := by
  intro ls e h
  induction h with
  | operand h => exact ho _ _ h
  | more _ _ _ ih =>
    obtain ⟨l, tail, rfl, hl⟩ := ih
    exact ⟨l, _, rfl, hl⟩

theorem startsWith_commaSeparated {α : Type} {Item : Phrase α} {first : Lexeme → Bool}
    (hi : StartsWith Item first) : StartsWith (CommaSeparated Item) first := by
  intro ls as h
  cases h with
  | single h => exact hi _ _ h
  | more h _ =>
    obtain ⟨l, tail, rfl, hl⟩ := hi _ _ h
    exact ⟨l, _, rfl, hl⟩

theorem startsWith_factor (n : Nat) : StartsWith (Factor n) starts := by
  cases n with
  | zero => exact startsWith_factorOf _ _
  | succ n => exact startsWith_factorOf _ _

theorem startsWith_expression (n : Nat) : StartsWith (Expression n) starts := by
  cases n with
  | zero => exact fun _ _ h => h.elim
  | succ n => exact startsWith_chain _ (startsWith_chain _ (startsWith_factor n))

/-- A phrase that starts like an expression does not start with what closes one. -/
theorem stops_of_startsWith {α : Type} {P : Phrase α} (hP : StartsWith P starts) {s : Symbol}
    (hs : starts (.symbol s) = false) {ls : List Lexeme} {a : α} (h : P ls a) (fs : List Lexeme) :
    Stops (· = .symbol s) (ls ++ fs) := by
  obtain ⟨l, tail, rfl, hl⟩ := hP _ _ h
  simp only [List.cons_append, stops_cons, decide_eq_false_iff_not]
  rintro rfl
  exact absurd hl (by simp [hs])

/-! ## Completeness -/

theorem complete_chain (level : BinaryOp.Level) {operand : Parser Expr} {Operand : Phrase Expr}
    {joins : Lexeme → Bool} (ho : Complete operand Operand joins)
    (hop : ∀ op : BinaryOp, op.level = level → joins (.symbol op.symbol) = false) :
    Complete (chain level operand) (Chain level Operand)
      (fun l => joins l || isOperator level l) := by
  -- The chain is read up to any point of it, and the operators from there on are the repetition's:
  -- going on at the left operand moves that point to the left.
  have hchain : ∀ ls e, Chain level Operand ls e → ∀ fs items gs, Stops joins fs →
      ReadsMany (operator? level) (fun op => do
        let right ← operand
        return (op, right)) fs items gs →
      Reads (chain level operand) (ls ++ fs)
        (items.foldl (fun left item => .binary item.1 left item.2) e) gs := by
    intro ls e h
    induction h with
    | operand h =>
      intro fs items gs hfs hitems
      exact (ho h hfs).bind (hitems.many.bind (.pure _ _))
    | more _ hlevel hright ih =>
      intro fs items gs hfs hitems
      subst hlevel
      rw [List.append_assoc]
      refine ih _ ((_, _) :: items) gs (by simpa using hop _ rfl) ?_
      exact .cons operator?_self ((ho hright hfs).bind (.pure _ _)) (by grind) hitems
  intro ls e fs h hfs
  obtain ⟨hjoins, hnone⟩ := stops_or.1 hfs
  exact hchain ls e h fs [] fs hjoins (.nil (operator?_of_stops hnone))

section Completeness

variable {expression right : Parser Expr} {E R : Phrase Expr}

theorem reads_parenthesized (k : Keyword) (he : Complete expression E joins) {ls fs : List Lexeme}
    {e : Expr} (h : E ls e) :
    Reads (parenthesized k expression)
      (.symbol .parenLeft :: (ls ++ .symbol .parenRight :: fs)) e fs :=
  (Reads.symbol _ _ _).bind <| (he h (by rfl)).bind <| (Reads.symbol _ _ _).bind (.pure _ _)

theorem reads_commaSeparated (he : Complete expression E joins) {s : Symbol}
    (hs : joins (.symbol s) = false) (hcomma : s ≠ .comma) {ls fs : List Lexeme} {es : List Expr}
    (h : CommaSeparated E ls es) :
    Reads (commaSeparated expression) (ls ++ .symbol s :: fs) es (.symbol s :: fs) :=
  he.commaSeparated rfl h (by simp [hs, hcomma])

/-- Neither an opening parenthesis nor an opening bracket follows. -/
theorem stops_of_joinsPrimary {fs : List Lexeme} (hfs : Stops joinsPrimary fs) :
    Stops (· = .symbol .parenLeft) fs ∧ Stops (· = .symbol .bracketLeft) fs := by
  constructor <;> refine hfs.mono fun l hl => ?_ <;> simp only [decide_eq_true_eq] at hl <;>
    rw [hl] <;> rfl

theorem readsMany_indices (he : Complete expression E joins) {fs : List Lexeme}
    (hfs : Stops joinsPrimary fs) {ls : List Lexeme} {es : List Expr} (h : Indices E ls es) :
    ReadsMany (behind .bracketLeft) (fun _ => do
      let e ← expression
      symbol .bracketRight .indexExpression
      return e) (ls ++ fs) es fs := by
  have hnone := (stops_of_joinsPrimary hfs).2
  induction h with
  | single h =>
    rw [List.append_assoc, List.cons_append]
    refine .cons behind_self ?_ (by grind) (.nil (behind_of_stops hnone))
    exact (he h (by rfl)).bind <| (Reads.symbol _ _ _).bind (.pure _ _)
  | more h _ ih =>
    rw [List.append_assoc, List.cons_append]
    refine .cons behind_self ?_ (by grind) ih
    exact (he h (by rfl)).bind <| (Reads.symbol _ _ _).bind (.pure _ _)

theorem reads_callArguments_nil (fs : List Lexeme) :
    Reads (callArguments expression) (.symbol .parenRight :: fs) [] fs :=
  (Reads.atSymbol_self _ _).bind <| (Reads.symbol _ _ _).bind (.pure _ _)

theorem reads_callArguments (he : Complete expression E joins) (hs : StartsWith E starts)
    {ls fs : List Lexeme} {arguments : List Expr} (h : CommaSeparated E ls arguments) :
    Reads (callArguments expression) (ls ++ .symbol .parenRight :: fs) arguments fs := by
  refine (Reads.atSymbol_of_stops ?_).bind <|
    (reads_commaSeparated he rfl (by decide) h).bind <| (Reads.symbol _ _ _).bind (.pure _ _)
  exact stops_of_startsWith (startsWith_commaSeparated hs) rfl h _

theorem reads_elements_nil (fs : List Lexeme) :
    Reads (elements expression) (.symbol .bracketRight :: fs) [] fs :=
  (Reads.trySymbol_self _ _).bind (.pure _ _)

theorem reads_elements (he : Complete expression E joins) (hs : StartsWith E starts)
    {ls fs : List Lexeme} {es : List Expr} (h : CommaSeparated E ls es) :
    Reads (elements expression) (ls ++ .symbol .bracketRight :: fs) es fs := by
  refine (Reads.trySymbol_of_stops ?_).bind <|
    (reads_commaSeparated he rfl (by decide) h).bind <| (Reads.symbol _ _ _).bind (.pure _ _)
  exact stops_of_startsWith (startsWith_commaSeparated hs) rfl h _

theorem complete_primary (he : Complete expression E joins) (hs : StartsWith E starts) :
    Complete (primary expression) (Primary E) joinsPrimary := by
  intro ls e fs h hfs
  obtain ⟨hparen, hbracket⟩ := stops_of_joinsPrimary hfs
  cases h with
  | int digits => exact .of_cons (fun _ _ => rfl) (.pure _ _)
  | text q s => exact .of_cons (fun _ _ => rfl) (.pure _ _)
  | name x =>
    refine .of_cons (fun _ _ => rfl) ?_
    exact (Reads.trySymbol_of_stops hparen).bind <|
      (ReadsMany.nil (behind_of_stops hbracket)).many.bind (.pure _ _)
  | callEmpty f =>
    refine .of_cons (fun _ _ => rfl) ?_
    exact (Reads.trySymbol_self _ _).bind <| (reads_callArguments_nil fs).bind (.pure _ _)
  | call f h =>
    rw [List.append_assoc]
    refine .of_cons (fun _ _ => rfl) ?_
    exact (Reads.trySymbol_self _ _).bind <| (reads_callArguments he hs h).bind (.pure _ _)
  | @index x ls indices h =>
    refine .of_cons (fun _ _ => rfl) ?_
    -- indices start with a bracket, so the name is not taken for that of a function
    have hnone : Stops (· = .symbol .parenLeft) (ls ++ fs) := by cases h <;> simp
    refine (Reads.trySymbol_of_stops hnone).bind <| (readsMany_indices he hfs h).many.bind ?_
    cases h <;> exact .pure _ _
  | parenthesized h =>
    rw [List.append_assoc]
    refine .of_cons (fun _ _ => rfl) ?_
    exact (he h (by rfl)).bind <| (Reads.symbol _ _ _).bind (.pure _ _)
  | arrayEmpty =>
    refine .of_cons (fun _ _ => rfl) ?_
    exact (reads_elements_nil fs).bind (.pure _ _)
  | array h =>
    rw [List.append_assoc]
    refine .of_cons (fun _ _ => rfl) ?_
    exact (reads_elements he hs h).bind (.pure _ _)
  | eval h =>
    rw [List.append_assoc]
    refine .of_cons (fun _ _ => rfl) ?_
    exact (reads_parenthesized .eval he h).bind (.pure _ _)
  | id h =>
    rw [List.append_assoc]
    refine .of_cons (fun _ _ => rfl) ?_
    exact (reads_parenthesized .id he h).bind (.pure _ _)

theorem complete_factorWith (he : Complete expression E joins) (hs : StartsWith E starts)
    (hr : Complete right R joinsFactor) :
    Complete (factorWith expression right) (FactorOf E R) joinsFactor := by
  intro ls e fs h hfs
  have hprimary : Complete (primary expression) (Primary E) joinsPrimary := complete_primary he hs
  cases h with
  | primary h =>
    obtain ⟨hjoins, hnone⟩ := stops_or.1 hfs
    refine (hprimary h hjoins).bind fun tokens htokens => ?_
    exact ⟨tokens, htokens, by simp [operator?_of_stops hnone tokens htokens]⟩
  | @tight ls ms op left r h hlevel hms =>
    rw [List.append_assoc]
    refine (hprimary h (by simpa using joinsPrimary_symbol _)).bind ?_
    intro tokens htokens
    have hright : Reads (do return binary op left (← right)) (ms ++ fs) (binary op left r) fs :=
      (hr hms hfs).bind (.pure _ _)
    obtain ⟨mid, hmid, hop⟩ := operator?_self tokens htokens
    obtain ⟨rest, hrest, heq⟩ := hright hmid
    rw [hlevel] at hop
    exact ⟨rest, hrest, by simp only [hop]; exact heq⟩

end Completeness

theorem complete_middle {operand : Parser Expr} {Operand : Phrase Expr}
    (ho : Complete operand Operand joinsFactor) :
    Complete (chain .middle operand) (Chain .middle Operand) joinsMiddle := by
  refine complete_chain .middle ho fun op hop => ?_
  simp [joinsFactor, joinsPrimary_symbol, isOperator_symbol, hop]

/-- Chains of chains read what stands between brackets. -/
theorem complete_chains {operand : Parser Expr} {Operand : Phrase Expr}
    (ho : Complete operand Operand joinsFactor) :
    Complete (chains operand) (Chain .loose (Chain .middle Operand)) joins := by
  refine complete_chain .loose (complete_middle ho) fun op hop => ?_
  simp [joinsMiddle, joinsFactor, joinsPrimary_symbol, isOperator_symbol, hop]

/-- The factor parser reads every factor. -/
theorem complete_factor (n : Nat) : Complete (factor n) (Factor n) joinsFactor := by
  induction n with
  | zero =>
    exact complete_factorWith (fun _ _ _ h => h.elim) (fun _ _ h => h.elim) (fun _ _ _ h => h.elim)
  | succ n ih =>
    exact complete_factorWith (complete_chains ih) (startsWith_expression (n + 1)) ih

/-- The expression parser reads every expression. -/
theorem complete_expression (n : Nat) : Complete (parser n) (Expression n) joins := by
  cases n with
  | zero => exact fun _ _ _ h => h.elim
  | succ n => exact complete_chains (complete_factor n)

end Expr

end Scriptlet
