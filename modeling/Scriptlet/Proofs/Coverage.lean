import Scriptlet.Token.Lexer

set_option autoImplicit false

/-! # Nothing is lost

Scanning takes a text apart without a remainder: what is skipped, the tokens and the faults, in
order, make up the text again, and each token and fault carries the line and column at which it
stands (`scan_covers`). The place is what a reader would count, the newlines in front and the
characters since the last of them (`Position.behind`); a lexer counts on from place to place
instead, and `Position.after_behind` says that both come to the same.

What one scan does is said once (`Cursor.scan_cases`), and `Tiles.cons` puts it in front of what the
scans behind it do. -/

namespace Scriptlet

/-! ## Places -/

namespace Position

/-- The place behind a text: one more than the newlines in it, and one more than the characters
    since the last of them. -/
def behind (text : List Char) : Position :=
  ⟨1 + text.count '\n', 1 + (text.reverse.takeWhile (· != '\n')).length⟩

theorem advance_behind (before : List Char) (c : Char) :
    (behind before).advance c = behind (before ++ [c]) := by
  by_cases hc : c = '\n'
  · simp [behind, advance, hc, Nat.add_assoc]
  · simp [behind, advance, hc, Nat.add_comm]

/-- Counting on from the place behind a text. -/
theorem after_behind (before text : List Char) :
    (behind before).after text = behind (before ++ text) := by
  induction text generalizing before with
  | nil => simp
  | cons c text ih => rw [after_cons, advance_behind, ih, List.append_assoc, List.singleton_append]

end Position

/-! ## Skipped text -/

/-- Texts of blanks and comments. A comment goes from two slashes to the end of its line; at the end
    of everything (`atEnd`) the last line need not be closed by a newline. -/
inductive IsLayout (atEnd : Bool) : List Char → Prop
  | nil : IsLayout atEnd []
  | blank {c : Char} {text : List Char} :
      Text.isBlank c = true → IsLayout atEnd text → IsLayout atEnd (c :: text)
  | comment {body text : List Char} :
      '\n' ∉ body → IsLayout atEnd text → IsLayout atEnd ('/' :: '/' :: body ++ '\n' :: text)
  | lastComment {body : List Char} :
      atEnd = true → '\n' ∉ body → IsLayout atEnd ('/' :: '/' :: body)

/-- What `layout` splits off is layout, also if it starts inside a comment. -/
theorem isLayout_layout (inComment : Bool) (text : List Char) :
    (inComment = false →
      IsLayout (layout inComment text).2.isEmpty (layout inComment text).1) ∧
    (inComment = true → ∀ body, '\n' ∉ body →
      IsLayout (layout inComment text).2.isEmpty
        ('/' :: '/' :: body ++ (layout inComment text).1)) := by
  fun_induction layout inComment text with
  | case1 inComment =>
    refine ⟨fun _ => .nil, fun _ body hbody => ?_⟩
    rw [List.append_nil]
    exact .lastComment rfl hbody
  | case2 c text skipped rest heq ih =>
    refine ⟨fun h => absurd h (by simp), fun _ body hbody => ?_⟩
    rw [heq] at ih
    by_cases hc : c = '\n'
    · subst hc
      exact .comment hbody (ih.1 rfl)
    · have hbody' : '\n' ∉ body ++ [c] := by
        simp [hbody, Ne.symm hc]
      have hmore := ih.2 (by simp [hc]) _ hbody'
      rwa [List.cons_append, List.cons_append, List.append_assoc] at hmore
  | case3 text skipped rest heq ih =>
    rw [heq] at ih
    exact ⟨fun _ => ih.2 rfl [] (by simp), fun h => absurd h (by simp)⟩
  | case4 c text hcomment hblank skipped rest heq ih =>
    rw [heq] at ih
    exact ⟨fun _ => .blank hblank (ih.1 rfl), fun h => absurd h (by simp)⟩
  | case5 c text hcomment hblank =>
    exact ⟨fun _ => .nil, fun h => absurd h (by simp)⟩

/-! ## Stretches -/

/-- What one scan passes: skipped text and then a token or a fault. -/
structure Stretch where
  skipped : List Char
  found : Except Fault Token

namespace Stretch

/-- The text of the token, or the text that is left out because of the fault. -/
def foundText (x : Stretch) : List Char :=
  match x.found with
  | .ok t => t.text.toList
  | .error f => f.problem.text.toList

/-- All the text of a stretch. -/
def text (x : Stretch) : List Char := x.skipped ++ x.foundText

/-- Where the token or the fault stands. -/
def position (x : Stretch) : Position :=
  match x.found with
  | .ok t => t.position
  | .error f => f.position

/-- The stretch is what it should be between the text `before` and the text `rest`. -/
structure Fits (x : Stretch) (before rest : List Char) : Prop where
  skipped : IsLayout false x.skipped
  position : x.position = .behind (before ++ x.skipped)
  /-- A number that is too large is there with all of its digits. -/
  whole : ∀ digits position, x.found = .error ⟨.tooLarge digits, position⟩ →
    (∀ c ∈ digits.toList, Text.isDigit c = true) ∧ ∀ c ∈ rest.head?, Text.isDigit c = false

end Stretch

/-- Stretches and skipped text at the end make up the text behind `before`, all in their places. -/
structure Tiles (before : List Char) (stretches : List Stretch) (trailing text : List Char) :
    Prop where
  text_eq : text = stretches.flatMap Stretch.text ++ trailing
  fits : ∀ front x back, stretches = front ++ x :: back →
    x.Fits (before ++ front.flatMap Stretch.text) (back.flatMap Stretch.text ++ trailing)
  trailing : IsLayout true trailing

namespace Tiles

variable {before trailing text : List Char} {stretches : List Stretch}

theorem nil (h : IsLayout true text) (before : List Char) : Tiles before [] text text where
  text_eq := rfl
  fits front x back heq := absurd heq (by simp)
  trailing := h

/-- One more stretch in front. -/
theorem cons {x : Stretch} (hx : x.Fits before text)
    (h : Tiles (before ++ x.text) stretches trailing text) :
    Tiles before (x :: stretches) trailing (x.text ++ text) where
  text_eq := by rw [List.flatMap_cons, List.append_assoc, ← h.text_eq]
  fits := by
    intro front y back heq
    cases front with
    | nil =>
      simp only [List.nil_append, List.cons.injEq] at heq
      obtain ⟨rfl, rfl⟩ := heq
      rw [← h.text_eq, List.flatMap_nil, List.append_nil]
      exact hx
    | cons z front =>
      simp only [List.cons_append, List.cons.injEq] at heq
      obtain ⟨rfl, heq⟩ := heq
      rw [List.flatMap_cons, ← List.append_assoc]
      exact h.fits front y back heq
  trailing := h.trailing

end Tiles

/-! ## Scans -/

/-- A number that is too large takes up all the digits that follow one another. -/
theorem tooLarge_of_piece {c : Char} {text rest : List Char} {digits : String}
    (h : piece c text = (.error (.tooLarge digits), rest)) :
    (∀ d ∈ digits.toList, Text.isDigit d = true) ∧ ∀ d ∈ rest.head?, Text.isDigit d = false := by
  unfold piece at h
  split at h
  · exact absurd h (by simp)
  · split at h
    · split at h <;> exact absurd h (by simp)
    · by_cases hdigit : Text.isDigit c = true
      · simp only [hdigit, if_true, Prod.mk.injEq] at h
        obtain ⟨hproblem, rfl⟩ := h
        split at hproblem
        · exact absurd hproblem (by simp)
        · simp only [Except.error.injEq, Problem.tooLarge.injEq] at hproblem
          subst hproblem
          constructor
          · intro d hd
            rw [String.toList_ofList, List.mem_cons] at hd
            rcases hd with rfl | hd
            · exact hdigit
            · exact List.all_eq_true.1 List.all_takeWhile d hd
          · intro d hd
            have hhead := List.head?_dropWhile_not Text.isDigit text
            rw [Option.mem_def.1 hd] at hhead
            simpa using hhead
      · rw [if_neg hdigit] at h
        split at h <;> exact absurd h (by simp)

/-- The stretch with a piece behind skipped text. -/
def Stretch.ofPiece (skipped : List Char) (place : Position) (found : Except Problem Lexeme) :
    Stretch where
  skipped
  found := match found with
    | .ok lexeme => .ok ⟨lexeme, place⟩
    | .error problem => .error ⟨problem, place⟩

section Pieces

variable {skipped : List Char} {place : Position} {found : Except Problem Lexeme}

theorem Stretch.text_ofPiece : (ofPiece skipped place found).text = skipped ++ pieceText found := by
  cases found <;> rfl

theorem Stretch.position_ofPiece : (ofPiece skipped place found).position = place := by
  cases found <;> rfl

theorem Stretch.fits_ofPiece {before text : List Char} {c : Char}
    (hskipped : IsLayout false skipped) (hplace : place = .behind (before ++ skipped)) :
    (ofPiece skipped place (piece c text).1).Fits before (piece c text).2 where
  skipped := hskipped
  position := position_ofPiece.trans hplace
  whole := by
    intro digits position hfound
    rcases hp : piece c text with ⟨problem | lexeme, rest⟩
    · simp only [ofPiece, hp, Except.error.injEq, Fault.mk.injEq] at hfound
      rw [hfound.1] at hp
      exact tooLarge_of_piece hp
    · exact absurd hfound (by simp [ofPiece, hp])

end Pieces

/-- What one scan does: it skips the rest of the text and yields the end, or it passes one
    stretch. -/
theorem Cursor.scan_cases {cursor : Cursor} {before : List Char}
    (h : cursor.position = .behind before) :
    (IsLayout true cursor.rest ∧
      cursor.scan.1 = .ok (.done (.behind (before ++ cursor.rest)))) ∨
    ∃ (x : Stretch) (rest : List Char), cursor.rest = x.text ++ rest ∧
      rest.length < cursor.rest.length ∧ x.Fits before rest ∧
      cursor.scan = (x.found.map .token, ⟨rest, .behind (before ++ x.text)⟩) := by
  have happend := layout_append false cursor.rest
  have hlayout := (isLayout_layout false cursor.rest).1 rfl
  have hplace : cursor.position.after (layout false cursor.rest).1 =
      .behind (before ++ (layout false cursor.rest).1) := by
    rw [h, Position.after_behind]
  cases hrest : (layout false cursor.rest).2 with
  | nil =>
    rw [hrest, List.append_nil] at happend
    rw [hrest, happend] at hlayout
    rw [happend] at hplace
    refine .inl ⟨hlayout, ?_⟩
    simp only [Cursor.scan, hrest, happend, hplace]
  | cons c text =>
    have hpiece := piece_append c text
    have hlt := length_piece_lt_of_layout hrest
    rw [hrest] at happend hlayout
    refine .inr ⟨.ofPiece _ _ (piece c text).1, (piece c text).2, ?_, hlt,
      Stretch.fits_ofPiece hlayout hplace, ?_⟩
    · rw [Stretch.text_ofPiece, List.append_assoc, hpiece, happend]
    · rw [Stretch.text_ofPiece, ← List.append_assoc, ← Position.after_behind, ← hplace]
      simp only [Cursor.scan, hrest]
      rcases piece c text with ⟨problem | lexeme, rest⟩ <;> rfl

/-- Scanning passes the stretches, one after another, and then yields the end at the given place. -/
inductive Cursor.Passes (place : Position) : Cursor → List Stretch → Prop
  | done {cursor : Cursor} : cursor.scan.1 = .ok (.done place) → Passes place cursor []
  | cons {cursor next : Cursor} {x : Stretch} {stretches : List Stretch} :
      cursor.scan = (x.found.map .token, next) → Passes place next stretches →
        Passes place cursor (x :: stretches)

/-- From any place on, scanning passes stretches up to the end of the text. -/
theorem Cursor.exists_tiles (cursor : Cursor) {before : List Char}
    (h : cursor.position = .behind before) :
    ∃ stretches trailing, Tiles before stretches trailing cursor.rest ∧
      cursor.Passes (.behind (before ++ cursor.rest)) stretches := by
  -- each stretch takes up some text, and the text in front grows by what it takes up
  induction hn : cursor.rest.length using Nat.strongRecOn generalizing cursor before with
  | ind n ih =>
    rcases Cursor.scan_cases h with ⟨hlayout, hdone⟩ | ⟨x, rest, hrest, hlt, hfits, hscan⟩
    · exact ⟨[], cursor.rest, .nil hlayout before, .done hdone⟩
    · let next : Cursor := ⟨rest, .behind (before ++ x.text)⟩
      obtain ⟨stretches, trailing, htiles, hpasses⟩ := ih rest.length (hn ▸ hlt) next rfl rfl
      refine ⟨x :: stretches, trailing, hrest ▸ htiles.cons hfits, .cons hscan ?_⟩
      rwa [hrest, ← List.append_assoc]

/-- The answers of a lexer that is asked for one piece again and again. -/
def Lexer.scans (lexer : Lexer) (n : Nat) : List Lexer.Answer :=
  (lexer.serveAll (List.replicate n .scan)).1

theorem Lexer.scans_succ (lexer : Lexer) (n : Nat) :
    lexer.scans (n + 1) =
      .scan lexer.cursor.scan.1 :: ({ lexer with cursor := lexer.cursor.scan.2 } : Lexer).scans n :=
  rfl

/-- What scanning passes is answered, and then the end. -/
theorem Cursor.Passes.scans {place : Position} {cursor : Cursor} {stretches : List Stretch}
    (h : cursor.Passes place stretches) (lexer : Lexer) (hcursor : lexer.cursor = cursor) :
    lexer.scans (stretches.length + 1) =
      stretches.map (fun x => .scan (x.found.map .token)) ++ [.scan (.ok (.done place))] := by
  induction h generalizing lexer with
  | done hdone =>
    rw [List.length_nil, Lexer.scans_succ, hcursor, hdone]
    rfl
  | cons hscan _ ih =>
    rw [List.length_cons, Lexer.scans_succ, hcursor, hscan, ih _ rfl]
    rfl

/-- **The lexer loses nothing and places everything right.** Scanning a source text again and again
    passes finitely many stretches and then yields the end, at the place behind the text. The
    stretches and what is skipped at the end make up the text; only blanks and whole comments are
    skipped; and every token and every fault is given the line and the column at which it stands. -/
theorem scan_covers (source : String) :
    ∃ stretches trailing, Tiles [] stretches trailing source.toList ∧
      (Lexer.ofText source.toList).scans (stretches.length + 1) =
        stretches.map (fun x => .scan (x.found.map .token)) ++
          [.scan (.ok (.done (.behind source.toList)))] := by
  have hstart : (Cursor.ofText source.toList).position = .behind [] := rfl
  obtain ⟨stretches, trailing, htiles, hpasses⟩ := Cursor.exists_tiles _ hstart
  exact ⟨stretches, trailing, htiles, hpasses.scans _ rfl⟩

end Scriptlet
