import Scriptlet.Proofs.ExprGrammar

set_option autoImplicit false

/-! # The program parser and the grammar

`Block.ofSource` accepts a source text exactly if its lexemes are a block of the grammar, and yields
the tree that the grammar gives to them (`ofSource_eq_ok_iff_derives`). As for expressions, both
directions follow the parser function by function and close by induction on the levels. The clauses
of a `for` header use up no level; soundness holds for any bound on them, and completeness for a
bound of as many headers as there are lexemes. -/

namespace Scriptlet.Stmt

open Scriptlet.Parser Grammar

theorem sound_name (wanted : Wanted) (place : Place) : Sound (name wanted place) Name :=
  (Sound.name wanted place).mono fun _ x h => h ▸ .name x

/-! ## Soundness -/

section Soundness

variable {clause : Parser Stmt} {block : Parser Block} {expression : Parser Expr}
  {B : Phrase Block} {E : Phrase Expr}

theorem sound_printed (he : Sound expression E) :
    Sound (printed expression) fun ls s => Statement B E (.keyword .print :: ls) s := by
  refine (Sound.symbol _ _).bind fun _ _ hl => he.commaSeparated.bind fun ls arguments h =>
    (Sound.symbol _ _).bind fun _ _ hr => .pure ?_
  rw [hl, hr]
  exact .print h

theorem sound_branched (hb : Sound block B) (he : Sound expression E) :
    Sound (branched block expression) fun ls s => Statement B E (.keyword .if_ :: ls) s := by
  refine he.bind fun cs condition hc => (Sound.keyword _ _).bind fun _ _ hthen =>
    hb.bind fun ts thenBlock ht => (Sound.tryKeyword _).bind fun _ other hother => ?_
  rw [hthen, hother]
  cases other with
  | true =>
    refine hb.bind fun es elseBlock hes => (Sound.keyword _ _).bind fun _ _ hend => .pure ?_
    rw [hend]
    simpa using Statement.branchElse hc ht hes
  | false =>
    simp only [Bool.false_eq_true, if_false, pure_bind]
    refine (Sound.keyword _ _).bind fun _ _ hend => .pure ?_
    rw [hend]
    simpa using Statement.branch hc ht

theorem sound_looped (hb : Sound block B) (he : Sound expression E) :
    Sound (looped block expression) fun ls s => Statement B E (.keyword .while_ :: ls) s := by
  refine he.bind fun cs condition hc => (Sound.keyword _ _).bind fun _ _ hdo =>
    hb.bind fun bs body hbs => (Sound.keyword _ _).bind fun _ _ hend => .pure ?_
  rw [hdo, hend]
  simpa using Statement.whileLoop hc hbs

theorem sound_counted (hs : Sound clause (Statement B E)) (hb : Sound block B)
    (he : Sound expression E) :
    Sound (counted clause block expression) fun ls s => Statement B E (.keyword .for_ :: ls) s := by
  refine hs.bind fun is init hi => (Sound.symbol _ _).bind fun _ _ hfirst =>
    he.bind fun cs condition hc => (Sound.symbol _ _).bind fun _ _ hsecond =>
    hs.bind fun ss step hss => (Sound.keyword _ _).bind fun _ _ hdo =>
    hb.bind fun bs body hbs => (Sound.keyword _ _).bind fun _ _ hend => .pure ?_
  rw [hfirst, hsecond, hdo, hend]
  simpa using Statement.forLoop hi hc hss hbs

theorem sound_parameters :
    Sound parameters fun ls ps => ps = [] ∧ ls = [.symbol .parenRight] ∨
      ∃ ms, ls = ms ++ [.symbol .parenRight] ∧ CommaSeparated Name ms ps := by
  refine (Sound.atSymbol _).bind fun _ closed hat => ?_
  rw [hat]
  cases closed with
  | true =>
    simp only [if_true, pure_bind]
    refine (Sound.symbol _ _).bind fun _ _ hr => .pure (.inl ⟨rfl, ?_⟩)
    simp [hr]
  | false =>
    refine (sound_name _ _).bind fun ms first hfirst =>
      (sound_name _ _).many_comma.bind fun ns more hmore =>
      (Sound.symbol _ _).bind fun _ _ hr => .pure (.inr ?_)
    rw [hr]
    rcases hmore with ⟨rfl, rfl⟩ | ⟨os, rfl, hmore⟩
    · exact ⟨ms, by simp, .single hfirst⟩
    · exact ⟨ms ++ .symbol .comma :: os, by simp, .more hfirst hmore⟩

theorem sound_defined (hb : Sound block B) :
    Sound (defined block) fun ls s => Statement B E (.keyword .function :: ls) s := by
  refine (Sound.name _ _).bind fun _ f hf => (Sound.symbol _ _).bind fun _ _ hl =>
    sound_parameters.bind fun ps parameters hps => hb.bind fun bs body hbs =>
    (Sound.keyword _ _).bind fun _ _ hend => .pure ?_
  rw [hf, hl, hend]
  rcases hps with ⟨rfl, rfl⟩ | ⟨ms, rfl, hps⟩
  · simpa using Statement.defineEmpty f hbs
  · simpa using Statement.define f hps hbs

theorem sound_globalized (he : Sound expression E) :
    Sound (globalized expression) fun ls s => Statement B E (.keyword .global :: ls) s := by
  refine (Sound.name _ _).bind fun _ x hx => (Sound.trySymbol _).bind fun _ declared hat => ?_
  rw [hx, hat]
  cases declared with
  | true =>
    refine he.bind fun ls value h => .pure ?_
    rw [List.append_nil]
    exact .declareGlobal x h
  | false => exact .pure (.promote x)

theorem sound_targeted (k : Keyword) (he : Sound expression E) :
    Sound (targeted k expression) fun ls pair => ∃ ts vs,
      ls = .symbol .parenLeft :: ts ++ .symbol .comma :: vs ++ [.symbol .parenRight] ∧
        E ts pair.1 ∧ E vs pair.2 := by
  refine (Sound.symbol _ _).bind fun _ _ hl => he.bind fun ts target ht =>
    (Sound.symbol _ _).bind fun _ _ hcomma => he.bind fun vs value hv =>
    (Sound.symbol _ _).bind fun _ _ hr => .pure ⟨ts, vs, ?_, ht, hv⟩
  simp [hl, hcomma, hr]

theorem sound_assignAll (he : Sound expression E) (x : String) :
    Sound (do
      let more ← many (behind .comma) fun _ => name .name (.symbol .comma)
      symbol .assign .names
      return assignAll (x :: more) (← commaSeparated expression)) fun ls s =>
      ∃ ns more vs values, ls = ns ++ .symbol .assign :: vs ∧
        (more = [] ∧ ns = [] ∨ ∃ ms, ns = .symbol .comma :: ms ∧ CommaSeparated Name ms more) ∧
        CommaSeparated E vs values ∧ s = assignAll (x :: more) values := by
  refine (sound_name _ _).many_comma.bind fun ns more hmore => (Sound.symbol _ _).bind fun _ _ ha =>
    he.commaSeparated.bind fun vs values hvs => .pure ⟨ns, more, vs, values, ?_, hmore, hvs, rfl⟩
  simp [ha]

theorem sound_afterName (he : Sound expression E) {xs : List Lexeme} {x : String}
    (hx : E xs (.name x)) :
    Sound (afterName expression x) fun ls s => Statement B E (xs ++ ls) s := by
  have hbare : Statement B E (xs ++ []) (.expression (.name x)) := by
    rw [List.append_nil]
    exact .expression hx (by simp)
  intro tokens a rest hr
  unfold afterName at hr
  split at hr
  · refine Sound.of_cons (he.bind fun ls value h => .pure ?_) hr
    rw [List.append_nil]
    exact .assign hx h
  · simp only [Except.ok.injEq, Prod.mk.injEq] at hr
    obtain ⟨rfl, rfl⟩ := hr
    exact ⟨[.symbol .plusPlus], rfl, .increment .up hx⟩
  · simp only [Except.ok.injEq, Prod.mk.injEq] at hr
    obtain ⟨rfl, rfl⟩ := hr
    exact ⟨[.symbol .minusMinus], rfl, .increment .down hx⟩
  · obtain ⟨ls, hls, ns, more, vs, values, rfl, hmore, hvs, rfl⟩ := sound_assignAll he x hr
    -- Without a further name, the comma would have to be the equals sign.
    rcases hmore with ⟨rfl, rfl⟩ | ⟨ms, rfl, hmore⟩
    · exact absurd hls (by simp)
    · exact ⟨_, hls, by simpa using Statement.assignAll hx hmore hvs⟩
  · split at hr
    · next op hop =>
      refine Sound.of_cons (he.bind fun ls value h => .pure ?_) hr
      rw [List.append_nil]
      exact .compound hx hop h
    · simp only [Except.ok.injEq, Prod.mk.injEq] at hr
      obtain ⟨rfl, rfl⟩ := hr
      exact ⟨[], rfl, hbare⟩
  · simp only [Except.ok.injEq, Prod.mk.injEq] at hr
    obtain ⟨rfl, rfl⟩ := hr
    exact ⟨[], rfl, hbare⟩

theorem sound_simple (he : Sound expression E) :
    Sound (simple expression) (Statement B E) := by
  refine he.bind fun xs e hxs => ?_
  have hbare (h : ∀ f arguments, e ≠ .call f arguments) :
      Sound (pure (.expression e)) fun ls s => Statement B E (xs ++ ls) s := by
    refine .pure ?_
    rw [List.append_nil]
    exact .expression hxs h
  cases e with
  | name x => exact sound_afterName he hxs
  | index x indices =>
    refine (Sound.trySymbol _).bind fun _ assigned hat => ?_
    rw [hat]
    cases assigned with
    | true =>
      refine he.bind fun ls value h => .pure ?_
      rw [List.append_nil]
      exact .assignIndex hxs h
    | false => exact hbare (by simp)
  | call f arguments =>
    refine .pure ?_
    rw [List.append_nil]
    exact .call hxs
  | _ => exact hbare (by simp)

theorem sound_form (hs : Sound clause (Statement B E)) (hb : Sound block B)
    (he : Sound expression E) : Sound (form clause block expression) (Statement B E) := by
  intro tokens a rest hr
  unfold form at hr
  split at hr
  · simp only [Except.ok.injEq, Prod.mk.injEq] at hr
    obtain ⟨rfl, rfl⟩ := hr
    exact ⟨[.keyword .exit], rfl, .exit⟩
  · exact Sound.of_cons (sound_printed he) hr
  · exact Sound.of_cons (sound_branched hb he) hr
  · exact Sound.of_cons (sound_looped hb he) hr
  · exact Sound.of_cons (sound_counted hs hb he) hr
  · exact Sound.of_cons (sound_defined hb) hr
  · refine Sound.of_cons (he.bind fun ls value h => .pure ?_) hr
    rw [List.append_nil]
    exact .return_ h
  · exact Sound.of_cons (sound_globalized he) hr
  · refine Sound.of_cons ((sound_targeted _ he).bind fun ls pair h => .pure ?_) hr
    obtain ⟨ts, vs, rfl, ht, hv⟩ := h
    rw [List.append_nil]
    exact .append ht hv
  · refine Sound.of_cons ((sound_targeted _ he).bind fun ls pair h => .pure ?_) hr
    obtain ⟨ts, vs, rfl, ht, hv⟩ := h
    rw [List.append_nil]
    exact .remove ht hv
  · exact sound_simple he hr

/-- Whatever the bound on headers, what the statement parser takes is a statement. -/
theorem sound_parserUpTo (hb : Sound block B) (he : Sound expression E) (headers : Nat) :
    Sound (parserUpTo block expression headers) (Statement B E) := by
  induction headers with
  | zero => exact sound_form (.fail _) hb he
  | succ headers ih => exact sound_form ih hb he

theorem sound_statement (hb : Sound block B) (he : Sound expression E) :
    Sound (parser block expression) (Statement B E) :=
  fun tokens _ _ hr => sound_parserUpTo hb he tokens.length hr

theorem further_eq_some {tokens mid : List Token} {u : Unit}
    (h : further tokens = some (u, mid)) : mid = tokens := by
  unfold further at h
  split at h
  · exact absurd h (by simp)
  · split at h
    · exact absurd h (by simp)
    · simpa using h.symm
  · simpa using h.symm

theorem sound_terminated {statement : Parser Stmt} {S : Phrase Stmt} (hs : Sound statement S) :
    Sound (terminated statement) fun ls s => ∃ ms, ls = ms ++ [.symbol .semicolon] ∧ S ms s := by
  refine hs.bind fun ms s h => (Sound.symbol _ _).bind fun _ _ hend => .pure ⟨ms, ?_, h⟩
  rw [hend, List.append_nil]

theorem sound_statements {statement : Parser Stmt} {S : Phrase Stmt} (hs : Sound statement S) :
    Sound (statements statement) (Statements S) := by
  have hmore : Sound (many further fun _ => terminated statement) fun ls rest =>
      rest = [] ∧ ls = [] ∨ Statements S ls rest := by
    refine .many (S := fun ls _ => ls = []) ?_ (fun _ => sound_terminated hs) (.inl ⟨rfl, rfl⟩) ?_
    · intro tokens selected mid h
      exact ⟨[], by rw [further_eq_some h]; rfl, rfl⟩
    · rintro _ _ _ s ns rest rfl ⟨ms, rfl, h⟩ (⟨rfl, rfl⟩ | hrest)
      · rw [List.append_nil]
        exact .inr (.single h)
      · rw [List.nil_append, List.append_assoc]
        exact .inr (.more h hrest)
  refine (sound_terminated hs).bind fun _ s h => hmore.bind fun ls rest hrest => .pure ?_
  obtain ⟨ms, rfl, h⟩ := h
  rw [List.append_nil]
  rcases hrest with ⟨rfl, rfl⟩ | hrest
  · rw [List.append_nil]
    exact .single h
  · rw [List.append_assoc]
    exact .more h hrest

end Soundness

/-- What the block parser takes is a block. -/
theorem sound_block (n : Nat) : Sound (blockParser n) (Grammar.Block n) := by
  induction n with
  | zero => exact .fail _
  | succ n ih => exact sound_statements (sound_statement ih (Expr.sound_expression n))

/-! ## What stands around a statement -/

/-- Lexemes that join a statement in front of them: it becomes an assignment, or its expression goes
    on. -/
def joins : Lexeme → Bool
  | .symbol s =>
    s = .assign || s = .plusPlus || s = .minusMinus || s = .comma ||
      (Arithmetic.ofCompound? s).isSome || Expr.joins (.symbol s)
  | _ => false

/-- Lexemes in front of which a block goes on. -/
def goesOn : Lexeme → Bool
  | .keyword k => !endsBlock k
  | _ => true

theorem exprJoins_of_stops {fs : List Lexeme} (h : Stops joins fs) : Stops Expr.joins fs := by
  refine h.mono fun l hl => ?_
  cases l with
  | symbol s => simp [joins, hl]
  | _ => exact absurd hl (by simp [Expr.joins, Expr.joinsMiddle, Expr.joinsFactor,
      Expr.joinsPrimary, Expr.isOperator])

theorem exprJoins_of_ofCompound? {s : Symbol} {op : Arithmetic}
    (h : Arithmetic.ofCompound? s = some op) : Expr.joins (.symbol s) = false := by
  cases s <;> first | rfl | exact absurd h (by simp [Arithmetic.ofCompound?])

theorem symbol_of_stops {fs : List Lexeme} (h : Stops joins fs) (s : Symbol)
    (hs : joins (.symbol s) = true) : Stops (· = .symbol s) fs := by
  refine h.mono fun l hl => ?_
  simp only [decide_eq_true_eq] at hl
  rw [hl, hs]

theorem goesOn_of_starts {l : Lexeme} (h : Expr.starts l = true) : goesOn l = true := by
  unfold Expr.starts at h
  split at h <;> first | rfl | exact absurd h (by simp)

theorem startsWith_statement {B : Phrase Block} {E : Phrase Expr}
    (hs : StartsWith E Expr.starts) : StartsWith (Statement B E) goesOn := by
  intro ls s h
  have hexpr {xs ms : List Lexeme} {e : Expr} (h : E xs e) :
      ∃ l tail, xs ++ ms = l :: tail ∧ goesOn l = true := by
    obtain ⟨l, tail, rfl, hl⟩ := hs _ _ h
    exact ⟨l, _, rfl, goesOn_of_starts hl⟩
  cases h with
  | assign h _ => exact hexpr h
  | increment _ h => exact hexpr h
  | compound h _ _ => exact hexpr h
  | assignAll h _ _ =>
    rw [List.append_assoc]
    exact hexpr h
  | assignIndex h _ => exact hexpr h
  | call h => exact List.append_nil ls ▸ hexpr h
  | expression h _ => exact List.append_nil ls ▸ hexpr h
  | _ => exact ⟨_, _, rfl, rfl⟩

/-! ## Completeness -/

section Completeness

variable {clause : Parser Stmt} {block : Parser Block} {expression : Parser Expr}
  {B : Phrase Block} {E : Phrase Expr}

theorem complete_name (wanted : Wanted) (place : Place) :
    Complete (name wanted place) Name fun _ => false := by
  intro ls x fs h _
  cases h
  exact .name _ _ _ _

theorem reads_parameters_nil (fs : List Lexeme) :
    Reads parameters (.symbol .parenRight :: fs) [] fs :=
  (Reads.atSymbol_self _ _).bind <| (Reads.symbol _ _ _).bind (.pure _ _)

theorem reads_parameters {ls fs : List Lexeme} {ps : List String}
    (h : CommaSeparated Name ls ps) :
    Reads parameters (ls ++ .symbol .parenRight :: fs) ps fs := by
  have hnone : Stops (· = .symbol .comma) (.symbol .parenRight :: fs) := by simp
  cases h with
  | single h =>
    cases h
    exact (Reads.atSymbol_of_stops (by simp)).bind <| (Reads.name _ _ _ _).bind <|
      (ReadsMany.nil (behind_of_stops hnone)).many.bind <| (Reads.symbol _ _ _).bind (.pure _ _)
  | more h hmore =>
    cases h
    rw [List.append_assoc]
    exact (Reads.atSymbol_of_stops (by simp)).bind <| (Reads.name _ _ _ _).bind <|
      (readsMany_comma (complete_name _ _) rfl (by simp) hnone hmore).many.bind <|
      (Reads.symbol _ _ _).bind (.pure _ _)

theorem reads_targeted (k : Keyword) (he : Complete expression E Expr.joins)
    {ts vs fs : List Lexeme} {target value : Expr} (ht : E ts target) (hv : E vs value) :
    Reads (targeted k expression)
      (.symbol .parenLeft :: (ts ++ .symbol .comma :: (vs ++ .symbol .parenRight :: fs)))
      (target, value) fs :=
  (Reads.symbol _ _ _).bind <| (he ht (by rfl)).bind <| (Reads.symbol _ _ _).bind <|
    (he hv (by rfl)).bind <| (Reads.symbol _ _ _).bind (.pure _ _)

/-- Behind a name, lexemes that join no statement make it a bare expression. -/
theorem reads_afterName_of_stops (x : String) {fs : List Lexeme} (hfs : Stops joins fs) :
    Reads (afterName expression x) fs (.expression (.name x)) fs := by
  intro tokens htokens
  refine ⟨tokens, htokens, ?_⟩
  subst htokens
  unfold afterName
  split
  · exact absurd hfs (by simp [joins])
  · exact absurd hfs (by simp [joins])
  · exact absurd hfs (by simp [joins])
  · exact absurd hfs (by simp [joins])
  · split
    · next hop => exact absurd hfs (by simp [joins, hop])
    · rfl
  · rfl

theorem reads_afterName_increment (x : String) (direction : Direction) (fs : List Lexeme) :
    Reads (afterName expression x) (.symbol direction.symbol :: fs)
      (.increment x direction) fs := by
  cases direction with
  | up => exact .of_cons (fun _ _ => rfl) (.pure _ _)
  | down => exact .of_cons (fun _ _ => rfl) (.pure _ _)

theorem reads_afterName_compound (x : String) {s : Symbol} {op : Arithmetic}
    (hop : Arithmetic.ofCompound? s = some op) {ls fs : List Lexeme} {value : Expr}
    (h : Reads expression ls value fs) :
    Reads (afterName expression x) (.symbol s :: ls) (.compound x op value) fs := by
  have hvalue : Reads (do return compound x op (← expression)) ls (.compound x op value) fs :=
    h.bind (.pure _ _)
  refine .of_cons (fun position rest => ?_) hvalue
  cases s <;> cases hop <;> rfl

theorem reads_afterName_assignAll (x : String) (he : Complete expression E Expr.joins)
    {ns vs fs : List Lexeme} {names : List String} {values : List Expr}
    (hns : CommaSeparated Name ns names) (hvs : CommaSeparated E vs values)
    (hfs : Stops joins fs) :
    Reads (afterName expression x) (.symbol .comma :: (ns ++ .symbol .assign :: (vs ++ fs)))
      (.assignAll (x :: names) values) fs := by
  have hvalues : Reads (commaSeparated expression) (vs ++ fs) values fs :=
    he.commaSeparated rfl hvs
      (stops_or.2 ⟨exprJoins_of_stops hfs, symbol_of_stops hfs .comma rfl⟩)
  have hall : Reads (do
      let more ← many (behind .comma) fun _ => name .name (.symbol .comma)
      symbol .assign .names
      return assignAll (x :: more) (← commaSeparated expression))
      (.symbol .comma :: (ns ++ .symbol .assign :: (vs ++ fs)))
      (.assignAll (x :: names) values) fs :=
    (readsMany_comma (complete_name _ _) rfl (by simp) (by simp) hns).many.bind <|
      (Reads.symbol _ _ _).bind <| hvalues.bind (.pure _ _)
  refine hall.congr fun tokens htokens => ?_
  obtain ⟨position, rest, rfl, -⟩ := exists_of_map_eq_cons htokens
  rfl

/-- A statement that starts like an expression is read as one. -/
theorem form_eq_simple {tokens : List Token} {l : Lexeme} {tail : List Lexeme}
    (h : tokens.map Token.lexeme = l :: tail) (hl : Expr.starts l = true) :
    form clause block expression tokens = simple expression tokens := by
  obtain ⟨position, rest, rfl, -⟩ := exists_of_map_eq_cons h
  unfold form
  split
  case h_11 => rfl
  -- every other form starts with a keyword of its own, and no such keyword starts an expression
  all_goals
    next heq =>
    simp only [List.cons.injEq, Token.mk.injEq] at heq
    rw [heq.1.1] at hl
    exact absurd hl (by decide)

theorem reads_form_of_simple (hs : StartsWith E Expr.starts) {xs ms fs : List Lexeme} {e : Expr}
    {stmt : Stmt} (h : E xs e) (hr : Reads (simple expression) (xs ++ ms) stmt fs) :
    Reads (form clause block expression) (xs ++ ms) stmt fs := by
  obtain ⟨l, tail, rfl, hl⟩ := hs _ _ h
  exact hr.congr fun tokens htokens => form_eq_simple htokens hl

/-- The parser of one statement reads every statement, if `clause` reads the shorter ones that
    stand in the headers of `for`. -/
theorem complete_form (hb : Complete block B goesOn) (he : Complete expression E Expr.joins)
    (hs : StartsWith E Expr.starts) {ls fs : List Lexeme} {stmt : Stmt} (h : Statement B E ls stmt)
    (hclause : ∀ is gs init, Statement B E is init → is.length < ls.length → Stops joins gs →
      Reads clause (is ++ gs) init gs)
    (hfs : Stops joins fs) : Reads (form clause block expression) (ls ++ fs) stmt fs := by
  cases h with
  | exit => exact .of_cons (fun _ _ => rfl) (.pure _ _)
  | print h =>
    rw [List.append_assoc]
    refine .of_cons (fun _ _ => rfl) ?_
    exact (Reads.symbol _ _ _).bind <|
      (Expr.reads_commaSeparated he rfl (by decide) h).bind <| (Reads.symbol _ _ _).bind (.pure _ _)
  | branch hc ht =>
    simp only [List.append_assoc, List.cons_append, List.nil_append]
    refine .of_cons (fun _ _ => rfl) ?_
    exact (he hc (by rfl)).bind <| (Reads.keyword _ _ _).bind <|
      (hb ht (by rfl)).bind <| (Reads.tryKeyword_of_stops (by simp)).bind <|
      (Reads.keyword _ _ _).bind (.pure _ _)
  | branchElse hc ht hes =>
    simp only [List.append_assoc, List.cons_append, List.nil_append]
    refine .of_cons (fun _ _ => rfl) ?_
    exact (he hc (by rfl)).bind <| (Reads.keyword _ _ _).bind <|
      (hb ht (by rfl)).bind <| (Reads.tryKeyword_self _ _).bind <|
      (hb hes (by rfl)).bind <| (Reads.keyword _ _ _).bind (.pure _ _)
  | whileLoop hc hbs =>
    simp only [List.append_assoc, List.cons_append, List.nil_append]
    refine .of_cons (fun _ _ => rfl) ?_
    exact (he hc (by rfl)).bind <| (Reads.keyword _ _ _).bind <|
      (hb hbs (by rfl)).bind <| (Reads.keyword _ _ _).bind (.pure _ _)
  | forLoop hi hc hss hbs =>
    -- both clauses are shorter than the loop, and neither `;` nor `do` joins a statement
    have hinit (gs : List Lexeme) :=
      hclause _ (.symbol .semicolon :: gs) _ hi (by grind) (by rfl)
    have hstep (gs : List Lexeme) :=
      hclause _ (.keyword .do_ :: gs) _ hss (by grind) (by rfl)
    simp only [List.append_assoc, List.cons_append, List.nil_append]
    refine .of_cons (fun _ _ => rfl) ?_
    exact (hinit _).bind <| (Reads.symbol _ _ _).bind <| (he hc (by rfl)).bind <|
      (Reads.symbol _ _ _).bind <| (hstep _).bind <| (Reads.keyword _ _ _).bind <|
      (hb hbs (by rfl)).bind <| (Reads.keyword _ _ _).bind (.pure _ _)
  | defineEmpty f hbs =>
    simp only [List.append_assoc, List.cons_append, List.nil_append]
    refine .of_cons (fun _ _ => rfl) ?_
    exact (Reads.name _ _ _ _).bind <| (Reads.symbol _ _ _).bind <|
      (reads_parameters_nil _).bind <| (hb hbs (by rfl)).bind <|
      (Reads.keyword _ _ _).bind (.pure _ _)
  | define f hps hbs =>
    simp only [List.append_assoc, List.cons_append, List.nil_append]
    refine .of_cons (fun _ _ => rfl) ?_
    exact (Reads.name _ _ _ _).bind <| (Reads.symbol _ _ _).bind <|
      (reads_parameters hps).bind <| (hb hbs (by rfl)).bind <|
      (Reads.keyword _ _ _).bind (.pure _ _)
  | return_ h =>
    refine .of_cons (fun _ _ => rfl) ?_
    exact (he h (exprJoins_of_stops hfs)).bind (.pure _ _)
  | declareGlobal x h =>
    refine .of_cons (fun _ _ => rfl) ?_
    exact (Reads.name _ _ _ _).bind <| (Reads.trySymbol_self _ _).bind <|
      (he h (exprJoins_of_stops hfs)).bind (.pure _ _)
  | promote x =>
    refine .of_cons (fun _ _ => rfl) ?_
    exact (Reads.name _ _ _ _).bind <|
      (Reads.trySymbol_of_stops (symbol_of_stops hfs .assign rfl)).bind (.pure _ _)
  | append ht hv =>
    simp only [List.append_assoc, List.cons_append, List.nil_append]
    refine .of_cons (fun _ _ => rfl) ?_
    exact (reads_targeted _ he ht hv).bind (.pure _ _)
  | remove ht hv =>
    simp only [List.append_assoc, List.cons_append, List.nil_append]
    refine .of_cons (fun _ _ => rfl) ?_
    exact (reads_targeted _ he ht hv).bind (.pure _ _)
  | assign hx h =>
    rw [List.append_assoc]
    refine reads_form_of_simple hs hx ((he hx (by rfl)).bind ?_)
    refine .of_cons (fun _ _ => rfl) ?_
    exact (he h (exprJoins_of_stops hfs)).bind (.pure _ _)
  | increment direction hx =>
    rw [List.append_assoc]
    refine reads_form_of_simple hs hx ((he hx ?_).bind ?_)
    · cases direction <;> rfl
    · exact reads_afterName_increment _ direction fs
  | compound hx hop h =>
    rw [List.append_assoc]
    refine reads_form_of_simple hs hx ((he hx ?_).bind ?_)
    · exact exprJoins_of_ofCompound? hop
    · exact reads_afterName_compound _ hop (he h (exprJoins_of_stops hfs))
  | assignAll hx hns hvs =>
    simp only [List.append_assoc, List.cons_append]
    refine reads_form_of_simple hs hx ((he hx (by rfl)).bind ?_)
    exact reads_afterName_assignAll _ he hns hvs hfs
  | assignIndex hx h =>
    rw [List.append_assoc]
    refine reads_form_of_simple hs hx ((he hx (by rfl)).bind ?_)
    exact (Reads.trySymbol_self _ _).bind <| (he h (exprJoins_of_stops hfs)).bind (.pure _ _)
  | call h =>
    exact reads_form_of_simple hs h ((he h (exprJoins_of_stops hfs)).bind (.pure _ _))
  | @expression _ e h hne =>
    refine reads_form_of_simple hs h ((he h (exprJoins_of_stops hfs)).bind ?_)
    -- a name and an indexed variable could still become the target of an assignment
    cases e with
    | name x => exact reads_afterName_of_stops x hfs
    | index x indices =>
      exact (Reads.trySymbol_of_stops (symbol_of_stops hfs .assign rfl)).bind (.pure _ _)
    | call f arguments => exact absurd rfl (hne f arguments)
    | _ => exact .pure _ _

/-- With as many headers as lexemes, the statement parser reads every statement. -/
theorem reads_parserUpTo (hb : Complete block B goesOn) (he : Complete expression E Expr.joins)
    (hs : StartsWith E Expr.starts) (headers : Nat) {ls fs : List Lexeme} {stmt : Stmt}
    (h : Statement B E ls stmt) (hlen : ls.length ≤ headers) (hfs : Stops joins fs) :
    Reads (parserUpTo block expression headers) (ls ++ fs) stmt fs := by
  induction headers generalizing ls fs stmt with
  | zero => exact complete_form hb he hs h (fun is gs init _ hlt _ => by omega) hfs
  | succ headers ih =>
    refine complete_form hb he hs h (fun is gs init hi hlt hgs => ?_) hfs
    exact ih hi (by omega) hgs

theorem complete_statement (hb : Complete block B goesOn) (he : Complete expression E Expr.joins)
    (hs : StartsWith E Expr.starts) :
    Complete (parser block expression) (Statement B E) joins := by
  intro ls stmt fs h hfs tokens htokens
  refine reads_parserUpTo hb he hs tokens.length h ?_ hfs htokens
  have hlen := congrArg List.length htokens
  simp only [List.length_map, List.length_append] at hlen
  omega

theorem further_of_stops {fs : List Lexeme} (h : Stops goesOn fs) (tokens : List Token)
    (htokens : tokens.map Token.lexeme = fs) : further tokens = none := by
  subst htokens
  cases tokens with
  | nil => rfl
  | cons token rest =>
    obtain ⟨lexeme, position⟩ := token
    cases lexeme with
    | keyword k =>
      simp only [List.map_cons, stops_cons, goesOn, Bool.not_eq_false'] at h
      simp [further, h]
    | _ => exact absurd h (by simp [goesOn])

theorem further_self {l : Lexeme} {ls : List Lexeme} (hl : goesOn l = true) (tokens : List Token)
    (htokens : tokens.map Token.lexeme = l :: ls) :
    ∃ mid, mid.map Token.lexeme = l :: ls ∧ further tokens = some ((), mid) := by
  refine ⟨tokens, htokens, ?_⟩
  obtain ⟨position, rest, rfl, -⟩ := exists_of_map_eq_cons htokens
  cases l with
  | keyword k =>
    simp only [goesOn, Bool.not_eq_true'] at hl
    simp [further, hl]
  | _ => rfl

section Statements

variable {statement : Parser Stmt} {S : Phrase Stmt}

theorem reads_terminated (hs : Complete statement S joins) {ls fs : List Lexeme} {stmt : Stmt}
    (h : S ls stmt) :
    Reads (terminated statement) (ls ++ .symbol .semicolon :: fs) stmt fs :=
  (hs h (by rfl)).bind <| (Reads.symbol _ _ _).bind (.pure _ _)

theorem readsMany_statements (hs : Complete statement S joins) (hg : StartsWith S goesOn)
    {fs : List Lexeme} (hfs : Stops goesOn fs) {ls : List Lexeme} {block : Block}
    (h : Statements S ls block) :
    ReadsMany further (fun _ => terminated statement) (ls ++ fs) block fs := by
  have hfirst {ms gs : List Lexeme} {stmt : Stmt} (h : S ms stmt) (tokens : List Token)
      (htokens : tokens.map Token.lexeme = ms ++ gs) :
      ∃ mid, mid.map Token.lexeme = ms ++ gs ∧ further tokens = some ((), mid) := by
    obtain ⟨l, tail, rfl, hl⟩ := hg _ _ h
    exact further_self hl tokens htokens
  induction h with
  | single h =>
    rw [List.append_assoc, List.cons_append, List.nil_append]
    exact .cons (hfirst h) (reads_terminated hs h) (by grind) (.nil (further_of_stops hfs))
  | more h _ ih =>
    rw [List.append_assoc, List.cons_append]
    exact .cons (hfirst h) (reads_terminated hs h) (by grind) ih

theorem complete_statements (hs : Complete statement S joins) (hg : StartsWith S goesOn) :
    Complete (statements statement) (Statements S) goesOn := by
  intro ls block fs h hfs
  cases h with
  | single h =>
    rw [List.append_assoc]
    exact (reads_terminated hs h).bind <|
      (ReadsMany.nil (further_of_stops hfs)).many.bind (.pure _ _)
  | more h hrest =>
    rw [List.append_assoc]
    exact (reads_terminated hs h).bind <|
      (readsMany_statements hs hg hfs hrest).many.bind (.pure _ _)

end Statements

end Completeness

/-- The block parser reads every block. -/
theorem complete_block (n : Nat) : Complete (blockParser n) (Grammar.Block n) goesOn := by
  induction n with
  | zero => exact fun _ _ _ h => h.elim
  | succ n ih =>
    exact complete_statements
      (complete_statement ih (Expr.complete_expression n) (Expr.startsWith_expression n))
      (startsWith_statement (Expr.startsWith_expression n))

end Scriptlet.Stmt

/-! ## Source texts -/

namespace Scriptlet

open Scriptlet.Parser

/-- Reading a whole text succeeds exactly if the parser takes all of its tokens. -/
theorem readAll_eq_ok_iff {α : Type} (p : Parser α) (surplus : Reason) (source : String) (a : α) :
    (readAll p surplus source).result = .ok a ↔ p (tokensOf (scanText source)) = .ok (a, []) := by
  unfold readAll
  dsimp only
  split
  · next heq => simp [heq]
  · next heq => simp [heq]
  · next hrest heq =>
    simp only [heq, reduceCtorEq, Except.ok.injEq, Prod.mk.injEq, false_iff, not_and]
    exact fun _ => hrest

/-- A parser that is sound and complete for a phrase accepts exactly the texts that the phrase
    derives. -/
theorem readAll_eq_ok_iff_phrase {α : Type} {p : Parser α} {P : Phrase α} {joins : Lexeme → Bool}
    (hs : Sound p P) (hc : Complete p P joins) (surplus : Reason) (source : String) (a : α) :
    (readAll p surplus source).result = .ok a ↔ P (Grammar.lexemes source) a := by
  rw [readAll_eq_ok_iff]
  constructor
  · intro h
    obtain ⟨ls, hls, hP⟩ := hs h
    rw [List.map_nil, List.append_nil] at hls
    rw [Grammar.lexemes, hls]
    exact hP
  · intro h
    obtain ⟨rest, hrest, heq⟩ := hc h (stops_nil joins) (List.append_nil _).symm
    rw [heq, List.map_eq_nil_iff.1 hrest]

/-- **The parser accepts exactly its grammar.** Reading a source text yields a block if and only if
    the lexemes of the text derive that block, with at most `nestingLimit` levels of nesting. -/
theorem ofSource_eq_ok_iff_derives (source : String) (block : Block) :
    (Block.ofSource source).result = .ok block ↔
      Grammar.Block nestingLimit (Grammar.lexemes source) block :=
  readAll_eq_ok_iff_phrase (Stmt.sound_block nestingLimit) (Stmt.complete_block nestingLimit) _
    source block

end Scriptlet
