import Mathlib.Order.Basic
import Scriptlet.Proofs.Activation
import Scriptlet.Proofs.Levels
import Scriptlet.Proofs.Lexing
import Scriptlet.Proofs.StmtGrammar

set_option autoImplicit false

/-! # Programs behind one another

A session that runs one text and then another does what it does with the two texts as one, with a
newline between them (`session_eq_concatenation`). Three things make it so. No piece of a text
reaches over a newline unless it is a quote that is not closed, so the lexemes are those of both
texts (`lexemesOf_newline`). A program is a list of statements that are each closed by a semicolon,
so both programs together are a program (`Grammar.block_append`). And what a block hands on besides
the session is its frame, which outside of functions is always the same, and the value that it has
yielded, which a run does not look at (`run_append_of_ok`). -/

namespace Scriptlet

/-! ## In front of a newline -/

section Newline

variable {c : Char} {text : List Char}

/-- Layout that takes up a whole text goes on behind a newline; any other ends where it ended. -/
theorem layout_newline (inComment : Bool) (text more : List Char) :
    (layout inComment (text ++ '\n' :: more)).2 =
      if (layout inComment text).2 = [] then (layout false more).2
      else (layout inComment text).2 ++ '\n' :: more := by
  fun_induction layout inComment text with
  | case1 inComment => cases inComment <;> rfl
  | case2 c text skipped rest heq ih =>
    rw [heq] at ih
    exact ih
  | case3 text skipped rest heq ih =>
    rw [heq] at ih
    exact ih
  | case4 c text hcomment hblank skipped rest heq ih =>
    rw [heq] at ih
    rw [List.cons_append, layout_blank hblank]
    exact ih
  | case5 c text hcomment hblank =>
    have hseam : c = '/' → (text ++ '\n' :: more).head? ≠ some '/' := by
      intro hc
      cases text with
      | nil => simp
      | cons d text =>
        rintro h
        exact hcomment text hc (by rw [Option.some.inj h])
    rw [List.cons_append, layout_eq_self (by simpa using hblank) hseam]
    rfl

theorem Symbol.ofPair?_newline (c : Char) : ofPair? c '\n' = none := by
  unfold ofPair?
  split <;> first | rfl | contradiction

/-- A newline is part of no symbol. -/
theorem Symbol.read?_newline (c : Char) (text more : List Char) :
    read? (c :: text ++ '\n' :: more) =
      (read? (c :: text)).map fun x => (x.1, x.2 ++ '\n' :: more) := by
  match text with
  | [] => 
    simp [read?, ofPair?_newline, Function.comp_def]
  | d :: text =>
    simp only [read?, List.cons_append]
    cases ofPair? c d <;> simp [Function.comp_def]

/-- A run of characters ends in front of a newline, or further in front. -/
theorem span_newline (p : Char → Bool) (text more : List Char)
    (h : p '\n' = false ∨ text.dropWhile p ≠ []) :
    (text ++ '\n' :: more).takeWhile p = text.takeWhile p ∧
      (text ++ '\n' :: more).dropWhile p = text.dropWhile p ++ '\n' :: more := by
  induction text with
  | nil =>
    have hnewline : p '\n' = false := h.resolve_right (by simp)
    simp [hnewline]
  | cons c text ih =>
    cases hc : p c with
    | false => simp [hc]
    | true =>
      rw [List.dropWhile_cons_of_pos hc] at h
      obtain ⟨htake, hdrop⟩ := ih h
      simp [hc, htake, hdrop]

/-- Except for a quote that is not closed, a piece ends in front of a newline. -/
theorem piece_newline (c : Char) (text more : List Char)
    (h : ∀ q, (piece c text).1 ≠ .error (.unterminated q)) :
    piece c (text ++ '\n' :: more) = ((piece c text).1, (piece c text).2 ++ '\n' :: more) := by
  unfold piece at h ⊢
  rw [← List.cons_append, Symbol.read?_newline]
  cases hread : Symbol.read? (c :: text) with
  | some found => rfl
  | none =>
    simp only [hread, Option.map_none] at h ⊢
    cases hquote : Quote.ofChar? c with
    | some q =>
      simp only [hquote] at h ⊢
      have hclosed : text.dropWhile (· != c) ≠ [] := by
        intro hnil
        simp only [hnil] at h
        exact h q rfl
      obtain ⟨htake, hdrop⟩ := span_newline (· != c) text more (.inr hclosed)
      obtain ⟨last, rest, htail⟩ := List.exists_cons_of_ne_nil hclosed
      simp only [htake, hdrop, htail, List.cons_append]
    | none =>
      by_cases hdigit : Text.isDigit c = true
      · obtain ⟨htake, hdrop⟩ := span_newline Text.isDigit text more (.inl rfl)
        simp only [hdigit, if_true, htake, hdrop]
      · by_cases hletter : Text.isLetter c = true
        · obtain ⟨htake, hdrop⟩ := span_newline Text.isWord text more (.inl rfl)
          simp only [hdigit, hletter, if_true, if_false, htake, hdrop, Bool.false_eq_true]
        · simp only [hdigit, hletter, if_false, Bool.false_eq_true]

end Newline

/-- No quote is left open. -/
def ClosesQuotes (stream : List (Except Fault Token)) : Prop :=
  ∀ f, .error f ∈ stream → ∀ q, f.problem ≠ .unterminated q

theorem ClosesQuotes.tail {found : Except Fault Token} {stream : List (Except Fault Token)}
    (h : ClosesQuotes (found :: stream)) : ClosesQuotes stream :=
  fun f hf => h f (List.mem_cons_of_mem found hf)

/-- Behind a closed text and a newline, a text has the lexemes that it has alone. -/
theorem lexemesOf_newline (cursor : Cursor) (h : ClosesQuotes cursor.stream) (more : List Char) :
    lexemesOf (cursor.rest ++ '\n' :: more) = lexemesOf cursor.rest ++ lexemesOf more := by
  -- both texts go on with the same pieces until the first one is used up
  induction hn : cursor.rest.length using Nat.strongRecOn generalizing cursor with
  | ind n ih =>
    have hlayout := layout_newline false cursor.rest more
    cases hrest : (layout false cursor.rest).2 with
    | nil =>
      rw [hrest, if_pos rfl] at hlayout
      rw [lexemesOf_of_layout_eq_nil hrest, List.nil_append]
      exact lexemes_eq_of_layout (a := .ofText _) (b := .ofText more) hlayout
    | cons c text =>
      rw [hrest, if_neg (List.cons_ne_nil c text), List.cons_append] at hlayout
      have hlt : (piece c text).2.length < n := hn ▸ length_piece_lt_of_layout hrest
      rcases hp : piece c text with ⟨problem | l, rest⟩
      · obtain ⟨position, next, hstream⟩ := stream_of_piece_error hrest hp
        rw [hstream] at h
        have hclosed : ∀ q, (piece c text).1 ≠ .error (.unterminated q) := by
          intro q heq
          rw [hp] at heq
          exact h _ List.mem_cons_self q (Except.error.inj heq)
        have hp' := piece_newline c text more hclosed
        rw [hp] at hlt hp'
        rw [lexemesOf_of_piece_error hlayout hp', lexemesOf_of_piece_error hrest hp]
        exact ih rest.length hlt ⟨rest, next⟩ h.tail rfl
      · obtain ⟨position, next, hstream⟩ := stream_of_piece_ok hrest hp
        rw [hstream] at h
        have hp' := piece_newline c text more (by simp [hp])
        rw [hp] at hlt hp'
        rw [lexemesOf_of_piece_ok hlayout hp', lexemesOf_of_piece_ok hrest hp, List.cons_append]
        exact congrArg (l :: ·) (ih rest.length hlt ⟨rest, next⟩ h.tail rfl)

/-! ## One program behind another -/

namespace Grammar

theorem Statements.append {S : Phrase Stmt} {ls ms : List Lexeme} {a b : Scriptlet.Block}
    (ha : Statements S ls a) (hb : Statements S ms b) : Statements S (ls ++ ms) (a ++ b) := by
  induction ha with
  | single hstmt =>
    rw [List.append_assoc]
    exact .more hstmt hb
  | more hstmt _ ih =>
    rw [List.append_assoc]
    exact .more hstmt ih

theorem block_append {n : Nat} {ls ms : List Lexeme} {a b : Scriptlet.Block} (ha : Block n ls a)
    (hb : Block n ms b) : Block n (ls ++ ms) (a ++ b) := by
  cases n with
  | zero => exact ha.elim
  | succ n => exact Statements.append ha hb

end Grammar

theorem lexemes_newline {first second : String} (h : ClosesQuotes (scanText first)) :
    Grammar.lexemes (first ++ "\n" ++ second) =
      Grammar.lexemes first ++ Grammar.lexemes second := by
  have htext : (first ++ "\n" ++ second).toList = first.toList ++ '\n' :: second.toList := by
    rw [String.toList_append, String.toList_append, List.append_assoc]
    rfl
  rw [lexemes_eq_lexemesOf, lexemes_eq_lexemesOf, lexemes_eq_lexemesOf, htext]
  exact lexemesOf_newline (.ofText first.toList) h second.toList

theorem Block.ofSource_newline {first second : String} {a b : Block}
    (ha : (Block.ofSource first).result = .ok a) (hb : (Block.ofSource second).result = .ok b)
    (hclosed : ClosesQuotes (scanText first)) :
    (Block.ofSource (first ++ "\n" ++ second)).result = .ok (a ++ b) := by
  have hderives (source : String) (block : Block) : (Block.ofSource source).result = .ok block ↔
      Grammar.Block nestingLimit (Grammar.lexemes source) block :=
    readAll_eq_ok_iff_phrase (Stmt.sound_block _) (Stmt.complete_block _) _ source block
  rw [hderives] at ha hb ⊢
  rw [lexemes_newline hclosed]
  exact Grammar.block_append ha hb

namespace Eval

section Blocks

variable {settings : Settings} {levels : Nat} {a b : Block} {s u : Session}

/-- What was yielded in front of a block matters to the value alone that it yields. -/
theorem executeAll_last (execute : Stmt → Frame → Eval Yield) (block : Block) (frame : Frame)
    (last : Option Value) :
    executeAll execute block frame last = (do
      let y ← executeAll execute block frame none
      return (y.1 <|> last, y.2)) := by
  induction block generalizing frame last with
  | nil => simp [executeAll]
  | cons stmt block ih =>
    simp only [executeAll, bind_assoc]
    congr 1
    funext y
    rw [ih y.2 (y.1 <|> last), ih y.2 (y.1 <|> none)]
    simp [Option.or_assoc]

theorem conclude_executeAll_last (execute : Stmt → Frame → Eval Yield) (block : Block)
    (frame : Frame) (last : Option Value) (s : Session) :
    conclude (executeAll execute block frame last s) =
      conclude (executeAll execute block frame none s) := by
  rw [executeAll_last]
  simp only [bind, Eval.bind]
  rcases executeAll execute block frame none s with _ | ⟨e | y, t⟩ <;> rfl

/-- Behind a block that ends well, a run is a run of what is left. -/
theorem run_append_of_ok {y : Yield}
    (h : executeAll (execute settings levels) a .program none s = some (.ok y, u)) (b : Block) :
    run settings levels (a ++ b) s = run settings levels b u := by
  have hframe : y.2 = .program :=
    (Ensures.executeAll (ensures_leadsTo settings levels) a .program none h).eq_program
  have hblock : executeAll (execute settings levels) (a ++ b) .program none s =
      executeAll (execute settings levels) b .program y.1 u := by
    rw [executeAll_append]
    simp only [bind, Eval.bind, h, hframe]
  rw [run_eq_conclude, run_eq_conclude, hblock, conclude_executeAll_last]

/-- Behind a block that does not end well, nothing is run. -/
theorem run_append_of_not_ok
    (h : ∀ y u, executeAll (execute settings levels) a .program none s ≠ some (.ok y, u))
    (b : Block) : run settings levels (a ++ b) s = run settings levels a s := by
  have hblock : executeAll (execute settings levels) (a ++ b) .program none s =
      executeAll (execute settings levels) a .program none s := by
    rw [executeAll_append]
    simp only [bind, Eval.bind]
    rcases hend : executeAll (execute settings levels) a .program none s with _ | ⟨e | y, t⟩
    · rfl
    · rfl
    · exact absurd hend (h y t)
  rw [run_eq_conclude, run_eq_conclude, hblock]

/-- Where output can be flushed, the runs that complete are those whose block ends well. -/
theorem run_eq_completed_iff (hflush : ∀ text, s.sink.flushFailure? text = none) :
    run settings levels a s = some (.ok .completed, u) ↔
      ∃ y, executeAll (execute settings levels) a .program none s = some (.ok y, u) := by
  rw [run_eq_map hflush]
  rcases executeAll (execute settings levels) a .program none s with _ | ⟨e | y, t⟩
  · simp
  · by_cases he : e = .exit
    · subst he
      simp [outcomeOf]
    · simp [outcomeOf_error he]
  · simp [outcomeOf]

/-- A run of two programs as one is a run of the first and, if that completes, a run of the second
    on the session that it leaves. -/
theorem ends_run_append (settings : Settings) (a b : Block) {s : Session}
    (hflush : ∀ text, s.sink.flushFailure? text = none) (r : Except RuntimeError Outcome)
    (t : Session) :
    Ends (fun levels => run settings levels (a ++ b)) s r t ↔
      (∃ u, Ends (fun levels => run settings levels a) s (.ok .completed) u ∧
        Ends (fun levels => run settings levels b) u r t) ∨
      (r ≠ .ok .completed ∧ Ends (fun levels => run settings levels a) s r t) := by
  constructor
  · rintro ⟨levels, h⟩
    by_cases hok : ∃ y u, executeAll (execute settings levels) a .program none s = some (.ok y, u)
    · obtain ⟨y, u, hblock⟩ := hok
      have hsecond : run settings levels b u = some (r, t) := run_append_of_ok hblock b ▸ h
      exact .inl ⟨u, ⟨levels, (run_eq_completed_iff hflush).2 ⟨y, hblock⟩⟩, levels, hsecond⟩
    · have hfirst : run settings levels a s = some (r, t) := by
        rw [← h]
        exact (run_append_of_not_ok (by simpa using hok) b).symm
      refine .inr ⟨?_, levels, hfirst⟩
      rintro rfl
      obtain ⟨y, hblock⟩ := (run_eq_completed_iff hflush).1 hfirst
      exact hok ⟨y, t, hblock⟩
  · rintro (⟨u, hfirst, hsecond⟩ | ⟨hr, levels, hfirst⟩)
    · obtain ⟨levels, hfirst, hsecond⟩ :=
        hfirst.common (ascending_run settings a) (ascending_run settings b) hsecond
      obtain ⟨y, hblock⟩ := (run_eq_completed_iff hflush).1 hfirst
      exact ⟨levels, (run_append_of_ok hblock b).trans hsecond⟩
    · have hblock : ∀ y u,
          executeAll (execute settings levels) a .program none s ≠ some (.ok y, u) := by
        intro y u hblock
        have hcompleted := (run_eq_completed_iff hflush).2 ⟨y, hblock⟩
        have hsame := Option.some.inj (hcompleted.symm.trans hfirst)
        exact hr (congrArg Prod.fst hsame).symm
      exact ⟨levels, (run_append_of_not_ok hblock b).trans hfirst⟩

end Blocks

end Eval

open Eval

/-- **A session is the program of its texts.** Let two source texts read as programs, the first one
    without a quote left open. With a newline between them they read as the statements of the first
    program and then those of the second. On every session where output can be flushed, this program
    ends as the second one does after a completed run of the first; or, if the first one exits or
    fails, as that does. -/
theorem session_eq_concatenation {first second : String} {a b : Block}
    (ha : (Block.ofSource first).result = .ok a) (hb : (Block.ofSource second).result = .ok b)
    (hclosed : ClosesQuotes (scanText first)) :
    (Block.ofSource (first ++ "\n" ++ second)).result = .ok (a ++ b) ∧
      ∀ (settings : Settings) (s : Session), (∀ text, s.sink.flushFailure? text = none) →
        ∀ r t, Ends (fun levels => run settings levels (a ++ b)) s r t ↔
          (∃ u, Ends (fun levels => run settings levels a) s (.ok .completed) u ∧
            Ends (fun levels => run settings levels b) u r t) ∨
          (r ≠ .ok .completed ∧ Ends (fun levels => run settings levels a) s r t) := by
  refine ⟨Block.ofSource_newline ha hb hclosed, ?_⟩
  intro settings s hflush r t
  exact ends_run_append settings a b hflush r t

theorem scanText_comment : scanText "x = 1; $ // \"" =
    [.ok ⟨.name "x", ⟨1, 1⟩⟩, .ok ⟨.symbol .assign, ⟨1, 3⟩⟩, .ok ⟨.number "1", ⟨1, 5⟩⟩,
      .ok ⟨.symbol .semicolon, ⟨1, 6⟩⟩, .error ⟨.illegal '$', ⟨1, 8⟩⟩] := by
  decide +kernel

theorem closesQuotes_of_comment : ClosesQuotes (scanText "x = 1; $ // \"") := by
  rw [scanText_comment]
  intro f hf q
  simp only [List.mem_cons, reduceCtorEq, Except.error.injEq, List.not_mem_nil, or_false,
    false_or] at hf
  simp [hf]

theorem ofSource_assign_comment :
    (Block.ofSource "x = 1; $ // \"").result = .ok [.assign "x" (.int 1)] := by
  rw [Block.ofSource, readAll, scanText_comment]
  rfl

theorem ofSource_print_x : (Block.ofSource "print(x);").result = .ok [.print [.name "x"]] := by
  have hscan : scanText "print(x);" =
      [.ok ⟨.keyword .print, ⟨1, 1⟩⟩, .ok ⟨.symbol .parenLeft, ⟨1, 6⟩⟩, .ok ⟨.name "x", ⟨1, 7⟩⟩,
        .ok ⟨.symbol .parenRight, ⟨1, 8⟩⟩, .ok ⟨.symbol .semicolon, ⟨1, 9⟩⟩] := by
    decide +kernel
  rw [Block.ofSource, readAll, hscan]
  rfl

theorem run_assign_print : (run {} 5 ([.assign "x" (.int 1)] ++ [.print [.name "x"]]) {}).map
    (fun x => (x.1, x.2.sink.text)) = some (.ok .completed, "1\n") := by
  decide +kernel

/-- A quote in a comment at the end of the first text is not a quote left open, and what the first
    text binds is there for the second. -/
theorem session_eq_concatenation_of_comment :
    (Block.ofSource ("x = 1; $ // \"" ++ "\n" ++ "print(x);")).result =
        .ok [.assign "x" (.int 1), .print [.name "x"]] ∧
      ∃ u t, Ends (fun levels => run {} levels [.assign "x" (.int 1)]) {} (.ok .completed) u ∧
        Ends (fun levels => run {} levels [.print [.name "x"]]) u (.ok .completed) t ∧
          t.sink.text = "1\n" := by
  obtain ⟨hread, hruns⟩ :=
    session_eq_concatenation ofSource_assign_comment ofSource_print_x closesQuotes_of_comment
  obtain ⟨t, hrun, htext⟩ := exists_of_output run_assign_print
  rcases (hruns {} {} (fun _ => rfl) _ t).1 ⟨5, hrun⟩ with ⟨u, hu, ht⟩ | ⟨hcompleted, -⟩
  · exact ⟨hread, u, t, hu, ht, htext⟩
  · exact absurd rfl hcompleted

end Scriptlet
