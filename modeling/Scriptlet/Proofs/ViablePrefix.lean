import Mathlib.Order.Basic
import Scriptlet.Proofs.PredictiveGrammar
import Scriptlet.Proofs.Relexing

set_option autoImplicit false

/-! # The first impossible token

A syntax error names the first token with which the text cannot go on as a program, whatever
follows (`syntaxError_first_impossible`). What stands in front of the token is the beginning of a
program, because the parser takes nothing else (`Stmt.predicts_blockParser`). And no program goes on
with the token: a parser with enough levels would read that program to its end, but up to the token
it does what the parser with the limit did, and so it ends there as well
(`Stmt.not_isProgram_of_ends`).

The limit on the nesting plays no role here. The programs are those with any number of levels, and
errors that complain about the nesting are left out. -/

namespace Scriptlet

open Scriptlet.Parser

/-- The lexemes of a program, nested as deep as it may be. -/
def Grammar.IsProgram (ls : List Lexeme) : Prop := ∃ n block, Grammar.Block n ls block

/-- Lexemes that valid lexemes, as those of any text are, complete to a program. -/
def Grammar.StartsProgram (ls : List Lexeme) : Prop :=
  ∃ more, (∀ l ∈ more, l.isValid = true) ∧ IsProgram (ls ++ more)

/-! ## Where the parser ends -/

namespace Stmt

variable {tokens rest : List Token}

/-- More levels read the same programs. -/
theorem blockParser_of_block {n k : Nat} {ls : List Lexeme} {block : Block}
    (h : Grammar.Block n ls block) (hle : n ≤ k) (htokens : tokens.map Token.lexeme = ls) :
    blockParser k tokens = .ok (block, []) := by
  obtain ⟨rest, hrest, hread⟩ :=
    complete_block n h (stops_nil goesOn) (htokens.trans (List.append_nil ls).symm)
  obtain rfl := List.map_eq_nil_iff.1 hrest
  have hpredicts :=
    (predicts_blockParser hle (m := tokens.length)).onTokens tokens (Nat.le_refl _)
  cases hpredicts with
  | reads taken hp htaken _ hrep =>
    obtain ⟨rfl, rfl⟩ : _ ∧ _ := by simpa using hp.symm.trans hread
    rw [List.append_nil] at htaken
    have hmore : blockParser k (taken ++ []) = _ := hrep rfl rfl (by simp [htaken])
    rwa [List.append_nil, ← htaken] at hmore
  | stops _ hp _ _ _ | tooDeep hp => exact absurd (hp.symm.trans hread) (by simp)

/-- The parser has ended in front of `rest`: it stopped there, or it read a block and something is
    left. -/
inductive EndsAt (n : Nat) (tokens rest : List Token) : Prop
  | stop {reason : Reason} :
      blockParser n tokens = .error ⟨reason, rest⟩ → reason ≠ .tooDeep → EndsAt n tokens rest
  | surplus {block : Block} :
      blockParser n tokens = .ok (block, rest) → rest ≠ [] → EndsAt n tokens rest

theorem exists_taken_of_endsAt {n k : Nat} (h : EndsAt n tokens rest) (hle : n ≤ k) (m : Nat) :
    ∃ taken, tokens = taken ++ rest ∧ Grammar.StartsProgram (taken.map Token.lexeme) ∧
      ∀ back, lookahead back = lookahead rest → taken.length + back.length ≤ m →
        ∀ block, blockParser k (taken ++ back) ≠ .ok (block, []) := by
  have hpredicts := (predicts_blockParser hle (m := m)).onTokens tokens (Nat.le_refl _)
  cases h with
  | @stop reason hstop hdeep =>
    cases hpredicts with
    | reads _ hp _ _ _ => exact absurd (hp.symm.trans hstop) (by simp)
    | tooDeep hp =>
      obtain ⟨rfl, -⟩ : _ ∧ _ := by simpa using hp.symm.trans hstop
      exact absurd rfl hdeep
    | stops taken hp htaken hgoes hrep =>
      obtain ⟨rfl, rfl⟩ : _ ∧ _ := by simpa using hp.symm.trans hstop
      obtain ⟨more, block, hmore, hblock⟩ := hgoes
      refine ⟨taken, htaken, ⟨more, hmore, _, block, hblock⟩, fun back hback hlen block => ?_⟩
      rw [hrep rfl hback hlen]
      simp
  | @surplus read hread hne =>
    cases hpredicts with
    | stops _ hp _ _ _ | tooDeep hp => exact absurd (hp.symm.trans hread) (by simp)
    | reads taken hp htaken hblock hrep =>
      obtain ⟨rfl, rfl⟩ : _ ∧ _ := by simpa using hp.symm.trans hread
      have hstarts : Grammar.StartsProgram (taken.map Token.lexeme) :=
        ⟨[], by simp, _, _, by rwa [List.append_nil]⟩
      refine ⟨taken, htaken, hstarts, fun back hback hlen block => ?_⟩
      rw [hrep rfl hback hlen]
      rintro heq
      -- something is left of the other tokens as well
      obtain ⟨-, rfl⟩ : _ ∧ back = [] := by simpa using heq
      exact hne (lookahead_eq_none hback.symm)

/-- Where the parser has ended, no program goes on with a lexeme like the one that is next. -/
theorem not_isProgram_of_endsAt {n : Nat} {taken : List Token}
    (h : EndsAt n (taken ++ rest) rest) (back : List Token)
    (hback : lookahead back = lookahead rest) :
    ¬ Grammar.IsProgram ((taken ++ back).map Token.lexeme) := by
  rintro ⟨j, block, hblock⟩
  -- the greater number of levels reads that program, and ends as `n` does
  have hread := blockParser_of_block hblock (Nat.le_max_right n j) rfl
  obtain ⟨taken', htaken, -, hends⟩ :=
    exists_taken_of_endsAt h (Nat.le_max_left n j) (taken.length + back.length)
  obtain rfl := List.append_cancel_right htaken
  exact hends back hback (Nat.le_refl _) block hread

end Stmt

/-! ## Source texts -/

/-- The tokens and faults in front of a cursor are those of the stretches that scanning passes. -/
theorem Cursor.Passes.stream {place : Position} {cursor : Cursor} {stretches : List Stretch}
    (h : cursor.Passes place stretches) : cursor.stream = stretches.map Stretch.found := by
  induction h with
  | done hdone => exact stream_of_scan_done (Prod.ext hdone rfl)
  | @cons cursor next x stretches hscan _ ih =>
    rw [List.map_cons, ← ih]
    cases hfound : x.found with
    | ok t =>
      rw [hfound] at hscan
      exact stream_of_scan_token hscan
    | error f =>
      rw [hfound] at hscan
      exact stream_of_scan_error hscan

/-- The lexemes that stand in stretches of text. -/
def lexemesIn (stretches : List Stretch) : List Lexeme :=
  (tokensOf (stretches.map Stretch.found)).map Token.lexeme

/-- Stretches come apart in front of any of their tokens, and the faults in front of it with
    them. -/
theorem exists_split {stretches : List Stretch} {taken rest : List Token}
    (h : tokensOf (stretches.map Stretch.found) = taken ++ rest) :
    ∃ front back, stretches = front ++ back ∧ tokensOf (front.map Stretch.found) = taken ∧
      faultsBefore taken.length (stretches.map Stretch.found) = faultsOf (front.map Stretch.found) ∧
      match rest.head? with
      | some t => ∃ x behind, back = x :: behind ∧ x.found = .ok t
      | none => back = [] := by
  induction stretches generalizing taken with
  | nil =>
    obtain ⟨rfl, rfl⟩ := List.append_eq_nil_iff.1 h.symm
    exact ⟨[], [], rfl, rfl, rfl, rfl⟩
  | cons x stretches ih =>
    cases hfound : x.found with
    | error f =>
      rw [List.map_cons, hfound] at h
      obtain ⟨front, back, rfl, htokens, hfaults, hback⟩ := ih h
      refine ⟨x :: front, back, rfl, ?_, ?_, hback⟩
      · rw [List.map_cons, hfound]
        exact htokens
      · rw [List.map_cons, List.map_cons, hfound]
        exact congrArg (f :: ·) hfaults
    | ok t =>
      rw [List.map_cons, hfound] at h
      cases taken with
      | nil =>
        refine ⟨[], x :: stretches, rfl, rfl, ?_, ?_⟩
        · rw [List.map_cons, hfound]
          rfl
        · rw [← List.nil_append rest, ← h]
          exact ⟨x, stretches, rfl, hfound⟩
      | cons token taken =>
        obtain ⟨rfl, hrest⟩ := List.cons.inj h
        obtain ⟨front, back, rfl, htokens, hfaults, hback⟩ := ih hrest
        refine ⟨x :: front, back, rfl, ?_, ?_, hback⟩
        · rw [List.map_cons, hfound]
          exact congrArg (t :: ·) htokens
        · rw [List.map_cons, List.map_cons, hfound]
          exact hfaults

/-- A reading that fails ends in front of the token of its error. -/
theorem endsAt_of_ofSource {source : String} {e : SyntaxError}
    (h : (Block.ofSource source).result = .error e) (hdeep : e.reason ≠ .tooDeep) :
    ∃ rest, Stmt.EndsAt nestingLimit (tokensOf (scanText source)) rest ∧ e.found = rest.head? ∧
      (Block.ofSource source).faults =
        faultsBefore ((tokensOf (scanText source)).length - rest.length) (scanText source) := by
  simp only [Block.ofSource, readAll] at h ⊢
  split at h
  · next stop hstop =>
    obtain rfl : stop.error = e := by simpa using h
    exact ⟨stop.rest, .stop hstop hdeep, rfl, rfl⟩
  · exact absurd h (by simp)
  · next block rest hne hread =>
    obtain rfl : Stop.error ⟨.statement, rest⟩ = e := by simpa using h
    exact ⟨rest, .surplus hread hne, rfl, rfl⟩

/-- **A syntax error names the first impossible token.** If a text is no program for any other
    reason than its nesting, it comes apart into what stands in front of the token of the error and
    what is left. The lexemes in front start some program, however deep it is nested, whose further
    lexemes are valid ones, and the faults reported are those in front. With the token, no program
    goes on, whatever lexemes follow, valid or not; and the message names the line on which the
    token stands and its text. Or nothing is left, and what is there is no program. -/
theorem syntaxError_first_impossible {source : String} {e : SyntaxError}
    (h : (Block.ofSource source).result = .error e)
    (hdeep : e.reason.message ≠ "Nested too deeply") :
    ∃ front back trailing, Tiles [] (front ++ back) trailing source.toList ∧
      scanText source = (front ++ back).map Stretch.found ∧
      Grammar.StartsProgram (lexemesIn front) ∧
      (Block.ofSource source).faults = faultsOf (front.map Stretch.found) ∧
      match e.found with
      | some t => ∃ x behind, back = x :: behind ∧ x.found = .ok t ∧
          (∀ more, ¬ Grammar.IsProgram (lexemesIn front ++ t.lexeme :: more)) ∧
          e.message = "Syntax error at line " ++
            Decimal.ofInt (Position.behind (front.flatMap Stretch.text ++ x.skipped)).line ++
            " : " ++ t.text ++ " (" ++ e.reason.message ++ ")"
      | none => back = [] ∧ ¬ Grammar.IsProgram (lexemesIn front) ∧
          e.message = "Syntax error at end of input (" ++ e.reason.message ++ ")" := by
  have hreason : e.reason ≠ .tooDeep := fun heq => hdeep (by rw [heq]; rfl)
  obtain ⟨rest, hends, hfound, hfaults⟩ := endsAt_of_ofSource h hreason
  obtain ⟨taken, htaken, hstarts, -⟩ := Stmt.exists_taken_of_endsAt hends (Nat.le_refl _) 0
  rw [htaken] at hends
  have hstart : (Cursor.ofText source.toList).position = .behind [] := rfl
  obtain ⟨stretches, trailing, htiles, hpasses⟩ := Cursor.exists_tiles _ hstart
  have hscan : scanText source = stretches.map Stretch.found := hpasses.stream
  rw [hscan] at htaken hfaults
  obtain ⟨front, back, rfl, htokens, hbefore, hback⟩ := exists_split htaken
  have hfront : lexemesIn front = taken.map Token.lexeme := by rw [lexemesIn, htokens]
  rw [htaken, List.length_append, Nat.add_sub_cancel, hbefore] at hfaults
  refine ⟨front, back, trailing, htiles, hscan, hfront ▸ hstarts, hfaults, ?_⟩
  rw [hfound]
  cases rest with
  | nil =>
    have himpossible := Stmt.not_isProgram_of_endsAt hends [] rfl
    rw [List.append_nil, ← hfront] at himpossible
    refine ⟨hback, himpossible, ?_⟩
    simp only [SyntaxError.message, hfound, List.head?_nil]
  | cons t more =>
    obtain ⟨x, behind, rfl, hx⟩ := hback
    refine ⟨x, behind, rfl, hx, ?_, ?_⟩
    · intro ls
      -- the rest of a program with this lexeme as tokens, wherever they stand
      let other : List Token := t :: ls.map (⟨·, .start⟩)
      have himpossible := Stmt.not_isProgram_of_endsAt hends other rfl
      have hlexemes : (taken ++ other).map Token.lexeme = lexemesIn front ++ t.lexeme :: ls := by
        simp [other, hfront, Function.comp_def]
      rwa [hlexemes] at himpossible
    · have hplace := (htiles.fits front x behind rfl).position
      have hposition : x.position = t.position := by rw [Stretch.position, hx]
      rw [List.nil_append, hposition] at hplace
      rw [← hplace]
      simp only [SyntaxError.message, hfound, List.head?_cons]

theorem scanText_semicolon : scanText "x=$;" =
    [.ok ⟨.name "x", ⟨1, 1⟩⟩, .ok ⟨.symbol .assign, ⟨1, 2⟩⟩, .error ⟨.illegal '$', ⟨1, 3⟩⟩,
      .ok ⟨.symbol .semicolon, ⟨1, 4⟩⟩] := by
  decide +kernel

theorem ofSource_semicolon : (Block.ofSource "x=$;").result =
    .error ⟨.expression, some ⟨.symbol .semicolon, ⟨1, 4⟩⟩⟩ := by
  rw [Block.ofSource, readAll, scanText_semicolon]
  rfl

/-- Behind the equals sign, the semicolon is impossible; the character in between is no token. -/
theorem syntaxError_first_impossible_semicolon :
    (Block.ofSource "x=$;").result =
        .error ⟨.expression, some ⟨.symbol .semicolon, ⟨1, 4⟩⟩⟩ ∧
      Grammar.StartsProgram [.name "x", .symbol .assign] ∧
      (∀ more, ¬ Grammar.IsProgram (.name "x" :: .symbol .assign :: .symbol .semicolon :: more)) ∧
      (Block.ofSource "x=$;").faults = [⟨.illegal '$', ⟨1, 3⟩⟩] := by
  obtain ⟨front, _, _, -, hstream, hstarts, hfaults, x, behind, rfl, hx, himpossible, -⟩ :=
    syntaxError_first_impossible ofSource_semicolon (by decide)
  rw [scanText_semicolon, List.map_append, List.map_cons, hx] at hstream
  have hfront : front.map Stretch.found =
      [.ok ⟨.name "x", ⟨1, 1⟩⟩, .ok ⟨.symbol .assign, ⟨1, 2⟩⟩, .error ⟨.illegal '$', ⟨1, 3⟩⟩] := by
    generalize front.map Stretch.found = found at hstream ⊢
    rcases found with _ | ⟨_, _ | ⟨_, _ | ⟨_, _ | ⟨_, found⟩⟩⟩⟩ <;> simp_all
  rw [lexemesIn, hfront] at hstarts himpossible
  rw [hfront] at hfaults
  exact ⟨ofSource_semicolon, hstarts, himpossible, hfaults⟩

end Scriptlet
