import Scriptlet.Proofs.Contents
import Scriptlet.Proofs.PrintedForm
import Scriptlet.Proofs.Relexing

set_option autoImplicit false

/-! # How deep statements stand

A block uses up one level of nesting, so what a program nests in blocks is bounded by the limit. The
header of a `for` uses up none: a statement in it has as many levels left as the loop itself. Going
down, the depth of a statement and the levels left to it therefore add up to the limit and the
number of headers that were passed (`Nested.exists_statement`). So a program in which the clauses of
headers contain no further statements stays within the limit (`depth_le_of_ofSource`). With headers
inside headers there is no bound: `Stmt.headers` nests as many as one likes, and the text of each of
them is accepted. -/

namespace Scriptlet

/-! ## Texts with single spaces -/

/-- Lexemes written with single spaces between them. -/
def written (ls : List Lexeme) : String := String.intercalate " " (ls.map Lexeme.text)

theorem lexemes_written {ls : List Lexeme} (h : ∀ l ∈ ls, l.isValid = true) :
    Grammar.lexemes (written ls) = ls := by
  have hwords : ∀ w ∈ spaced ls, w.1.isValid = true ∧ IsGap w.2 := by
    intro w hw
    have hmem : w.1 ∈ (spaced ls).map Prod.fst := List.mem_map_of_mem hw
    rw [map_fst_spaced] at hmem
    exact ⟨h _ hmem, isGap_of_mem_spaced hw⟩
  obtain ⟨tokens, hstream, hlexemes⟩ :=
    exists_stream_laidOut .nil hwords (fun w => gap_ne_nil_of_mem_spaced)
      (.ofText (written ls).toList) (laidOut_spaced ls).symm
  rw [Grammar.lexemes, scanText, hstream, tokensOf_map_ok, hlexemes, map_fst_spaced]

/-- What the grammar derives is accepted when it is written. -/
theorem Block.ofSource_written {ls : List Lexeme} {block : Block}
    (h : Grammar.Block nestingLimit ls block) (hls : ∀ l ∈ ls, l.isValid = true) :
    (Block.ofSource (written ls)).result = .ok block := by
  refine (readAll_eq_ok_iff_phrase (Stmt.sound_block _) (Stmt.complete_block _) _ _ _).2 ?_
  rwa [lexemes_written hls]

/-! ## Levels and depth -/

namespace Grammar

theorem Statements.mem {S : Phrase Stmt} {ls : List Lexeme} {block : Scriptlet.Block}
    (h : Statements S ls block) {stmt : Stmt} (hmem : stmt ∈ block) : ∃ ms, S ms stmt := by
  induction h with
  | single h =>
    obtain rfl := List.mem_singleton.1 hmem
    exact ⟨_, h⟩
  | more h _ ih =>
    rcases List.mem_cons.1 hmem with rfl | hmem
    · exact ⟨_, h⟩
    · exact ih hmem

/-- The statements of a block have one level less than the block. -/
theorem Block.mem {n : Nat} {ls : List Lexeme} {block : Scriptlet.Block} (h : Block n ls block)
    {stmt : Stmt} (hmem : stmt ∈ block) :
    ∃ m ms, n = m + 1 ∧ Statement (Block m) (Expression m) ms stmt := by
  cases n with
  | zero => exact h.elim
  | succ m =>
    obtain ⟨ms, hms⟩ := Statements.mem h hmem
    exact ⟨m, ms, rfl, hms⟩

section Parts

variable {B : Phrase Scriptlet.Block} {E : Phrase Expr} {ls : List Lexeme} {stmt inner : Stmt}

theorem Statement.mem_inBlocks (h : Statement B E ls stmt) (hmem : inner ∈ stmt.inBlocks) :
    ∃ bs body, B bs body ∧ inner ∈ body := by
  cases h with
  | branch _ ht =>
    simp only [Stmt.inBlocks, List.append_nil] at hmem
    exact ⟨_, _, ht, hmem⟩
  | branchElse _ ht he =>
    rcases List.mem_append.1 hmem with hmem | hmem
    · exact ⟨_, _, ht, hmem⟩
    · exact ⟨_, _, he, hmem⟩
  | whileLoop _ hb | forLoop _ _ _ hb | defineEmpty _ hb | define _ _ hb => exact ⟨_, _, hb, hmem⟩
  | _ => exact absurd hmem List.not_mem_nil

/-- A clause of a header is a statement of the same kind, and its loop has a block. -/
theorem Statement.mem_clauses (h : Statement B E ls stmt) (hmem : inner ∈ stmt.clauses) :
    (∃ ms, Statement B E ms inner) ∧ ∃ bs body, B bs body := by
  cases h with
  | forLoop hi _ hs hb =>
    refine ⟨?_, _, _, hb⟩
    rcases List.mem_cons.1 hmem with rfl | hmem
    · exact ⟨_, hi⟩
    · obtain rfl := List.mem_singleton.1 hmem
      exact ⟨_, hs⟩
  | _ => exact absurd hmem List.not_mem_nil

end Parts

end Grammar

/-- The header of the statement, if it has one, contains no statements but its two clauses. -/
def Stmt.hasFlatHeader (stmt : Stmt) : Bool :=
  stmt.clauses.all fun clause => clause.inBlocks.isEmpty && clause.clauses.isEmpty

namespace Nested

variable {block : Block} {n depth headers : Nat} {ls : List Lexeme} {stmt : Stmt}

/-- Depth and levels left add up to all levels and the headers passed. -/
theorem exists_statement (hn : Nested block depth headers stmt) (h : Grammar.Block n ls block) :
    ∃ left ms, depth + left = n + headers ∧
      Grammar.Statement (Grammar.Block left) (Grammar.Expression left) ms stmt := by
  induction hn with
  | top hmem =>
    obtain ⟨left, ms, rfl, hstmt⟩ := h.mem hmem
    exact ⟨left, ms, by omega, hstmt⟩
  | block _ hmem ih =>
    obtain ⟨left, _, hsum, hstmt⟩ := ih
    obtain ⟨_, _, hbody, hmem⟩ := hstmt.mem_inBlocks hmem
    obtain ⟨fewer, ms, rfl, hinner⟩ := hbody.mem hmem
    exact ⟨fewer, ms, by omega, hinner⟩
  | clause _ hmem ih =>
    obtain ⟨left, _, hsum, hstmt⟩ := ih
    obtain ⟨ms, hinner⟩ := (hstmt.mem_clauses hmem).1
    exact ⟨left, ms, by omega, hinner⟩

/-- At least as many levels as headers are used up by the depth. -/
theorem headers_lt (hn : Nested block depth headers stmt) : headers < depth := by
  induction hn with
  | top => exact Nat.zero_lt_one
  | block _ _ ih => exact Nat.lt_succ_of_lt ih
  | clause _ _ ih => exact Nat.succ_lt_succ ih

/-- Where headers are flat, no header is passed on the way to a statement that contains another. -/
theorem headers_eq_zero (hn : Nested block depth headers stmt)
    (hflat : ∀ {d k outer}, Nested block d k outer → outer.hasFlatHeader = true)
    (hne : stmt.inBlocks ≠ [] ∨ stmt.clauses ≠ []) : headers = 0 := by
  induction hn with
  | top _ => rfl
  | block _ hmem ih => exact ih (.inl (List.ne_nil_of_mem hmem))
  | clause houter hmem _ =>
    have hclause := List.all_eq_true.1 (hflat houter) _ hmem
    simp only [Bool.and_eq_true, List.isEmpty_iff] at hclause
    rcases hne with hne | hne
    · exact absurd hclause.1 hne
    · exact absurd hclause.2 hne

theorem depth_le_of_flat (hn : Nested block depth headers stmt) (h : Grammar.Block n ls block)
    (hflat : ∀ {d k outer}, Nested block d k outer → outer.hasFlatHeader = true) : depth ≤ n := by
  cases hn with
  | top hmem =>
    obtain ⟨_, _, rfl, -⟩ := h.mem hmem
    omega
  | block houter hmem =>
    obtain rfl := houter.headers_eq_zero hflat (.inl (List.ne_nil_of_mem hmem))
    obtain ⟨left, _, hsum, -⟩ := (Nested.block houter hmem).exists_statement h
    omega
  | clause houter hmem =>
    obtain rfl := houter.headers_eq_zero hflat (.inr (List.ne_nil_of_mem hmem))
    obtain ⟨left, _, hsum, hstmt⟩ := houter.exists_statement h
    obtain ⟨_, _, hbody⟩ := (hstmt.mem_clauses hmem).2
    -- the loop has a block, and this takes the level that its clause can do without
    cases left with
    | zero => exact hbody.elim
    | succ left => omega

end Nested

/-- **Nesting of statements.** In the tree of an accepted text, no statement stands deeper than the
    limit and the number of `for` headers on the way to it; and if the clauses of headers contain no
    further statements, none stands deeper than the limit. -/
theorem depth_le_of_ofSource {source : String} {block : Block}
    (h : (Block.ofSource source).result = .ok block) {depth headers : Nat} {stmt : Stmt}
    (hn : Nested block depth headers stmt) :
    depth ≤ nestingLimit + headers ∧
      ((∀ {d k outer}, Nested block d k outer → outer.hasFlatHeader = true) →
        depth ≤ nestingLimit) := by
  have hblock := (readAll_eq_ok_iff_phrase (Stmt.sound_block _) (Stmt.complete_block _) _ _ _).1 h
  obtain ⟨left, _, hsum, -⟩ := hn.exists_statement hblock
  exact ⟨by omega, fun hflat => hn.depth_le_of_flat hblock hflat⟩

/-! ## Headers in headers -/

/-- A `for` in the header of a `for`, and so on; an `exit` in the last one. -/
def Stmt.headers : Nat → Stmt
  | 0 => .exit
  | k + 1 => .forLoop (headers k) (.name "x") .exit [.exit]

namespace Grammar

/-- The lexemes of `Stmt.headers`. -/
def headers : Nat → List Lexeme
  | 0 => [.keyword .exit]
  | k + 1 =>
    .keyword .for_ :: headers k ++ .symbol .semicolon :: [.name "x"] ++
      .symbol .semicolon :: [.keyword .exit] ++
      .keyword .do_ :: [.keyword .exit, .symbol .semicolon] ++ [.keyword .endfor]

theorem isValid_of_mem_headers (k : Nat) : ∀ l ∈ headers k, l.isValid = true := by
  induction k with
  | zero => decide
  | succ k ih =>
    have hname : (Lexeme.name "x").isValid = true := by decide
    intro l hl
    simp only [headers, List.mem_append, List.mem_cons, List.not_mem_nil, or_false] at hl
    rcases hl with ((((rfl | hl) | rfl | rfl) | rfl | rfl) | rfl | rfl | rfl) | rfl <;>
      first | rfl | exact hname | exact ih _ hl

theorem statement_headers (n k : Nat) :
    Statement (Block (n + 1)) (Expression (n + 1)) (headers k) (.headers k) := by
  induction k with
  | zero => exact .exit
  | succ k ih =>
    have hname : Expression (n + 1) [.name "x"] (.name "x") :=
      .operand (.operand (Expr.factor_of_primary (.name "x")))
    have hbody : Block (n + 1) ([.keyword .exit] ++ [.symbol .semicolon]) [.exit] :=
      Statements.single .exit
    exact .forLoop ih hname .exit hbody

end Grammar

theorem nested_headers (k : Nat) : Nested [.headers k] (k + 1) k .exit := by
  -- going down, the number of headers passed and the number still to come add up
  have hdown (j : Nat) : ∀ i, Nested [.headers (i + j)] (i + 1) i (.headers j) := by
    intro i
    induction i generalizing j with
    | zero =>
      rw [Nat.zero_add]
      exact .top (List.mem_singleton_self _)
    | succ i ih =>
      have houter := ih (j + 1)
      rw [← Nat.add_assoc, Nat.add_right_comm] at houter
      exact .clause houter (List.mem_cons_self ..)
  exact hdown 0 k

/-- However many headers are nested in each other, the text is accepted. -/
theorem ofSource_headers (k : Nat) :
    (Block.ofSource (written (Grammar.headers k ++ [.symbol .semicolon]))).result =
      .ok [.headers k] := by
  refine Block.ofSource_written (.single (Grammar.statement_headers 126 k)) fun l hl => ?_
  rcases List.mem_append.1 hl with hl | hl
  · exact Grammar.isValid_of_mem_headers k l hl
  · rw [List.mem_singleton.1 hl]
    rfl

/-- The limit does not bound the depth of statements: 128 headers inside each other are accepted. -/
theorem not_forall_depth_le :
    ¬ ∀ source block depth headers stmt, (Block.ofSource source).result = .ok block →
      Nested block depth headers stmt → depth ≤ nestingLimit := by
  intro h
  exact absurd (h _ _ _ _ _ (ofSource_headers 128) (nested_headers 128)) (by decide)

/-- A single header is flat, and both bounds hold for what stands in it. -/
theorem depth_le_of_ofSource_header :
    (Block.ofSource (written (Grammar.headers 1 ++ [.symbol .semicolon]))).result =
        .ok [.headers 1] ∧
      Nested [.headers 1] 2 1 .exit ∧ 2 ≤ nestingLimit + 1 ∧ 2 ≤ nestingLimit := by
  have hflat : ∀ {d k outer}, Nested [.headers 1] d k outer → outer.hasFlatHeader = true := by
    intro d k outer hn
    have hcases : outer = .headers 1 ∨ outer = .exit := by
      induction hn with
      | top hmem => exact .inl (List.mem_singleton.1 hmem)
      | block _ hmem ih | clause _ hmem ih =>
        rcases ih with rfl | rfl <;> simp_all [Stmt.headers, Stmt.inBlocks, Stmt.clauses]
    rcases hcases with rfl | rfl <;> rfl
  obtain ⟨hheaders, hlimit⟩ := depth_le_of_ofSource (ofSource_headers 1) (nested_headers 1)
  exact ⟨ofSource_headers 1, nested_headers 1, hheaders, hlimit hflat⟩

end Scriptlet
