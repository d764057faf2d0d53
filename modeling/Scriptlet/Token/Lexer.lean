import Scriptlet.Token.Basic

set_option autoImplicit false

/-! # From text to tokens

`layout` splits off the blanks and comments that a text starts with, and `piece` reads the one
lexeme or problem that stands at the front of what remains. A `Cursor` is a place in a text;
`Cursor.scan` does both steps there. Since a piece is never empty, scanning comes to an end, and
`Cursor.stream` collects everything up to it.

A `Lexer` is a cursor with a memory. Its `next` passes over faults and remembers them, and yields
the end of the text only once; its `scan` yields faults as they come and remembers nothing. -/

namespace Scriptlet

/-! ## Layout -/

/-- Splits a text behind the blanks and comments that it starts with. A comment runs from two
    slashes to the end of the line; `inComment` says that the text starts inside one. -/
def layout : (inComment : Bool) → List Char → List Char × List Char
  | _, [] => ([], [])
  | true, c :: text =>
    let (skipped, rest) := layout (c != '\n') text
    (c :: skipped, rest)
  | false, '/' :: '/' :: text =>
    let (skipped, rest) := layout true text
    ('/' :: '/' :: skipped, rest)
  | false, c :: text =>
    if Text.isBlank c then
      let (skipped, rest) := layout false text
      (c :: skipped, rest)
    else ([], c :: text)

theorem layout_append (inComment : Bool) (text : List Char) :
    (layout inComment text).1 ++ (layout inComment text).2 = text := by
  fun_induction layout inComment text <;> simp_all

theorem length_layout_le (inComment : Bool) (text : List Char) :
    (layout inComment text).2.length ≤ text.length := by
  have h := congrArg List.length (layout_append inComment text)
  simp only [List.length_append] at h
  omega

/-! ## One piece -/

/-- The greatest digit run value that is a number of the language. -/
def greatestNumber : Nat := 1 <<< 63 - 1

/-- What the text `c :: text` starts with, which is no layout: a lexeme, as long as can be, or a
    problem; and the text behind it. -/
def piece (c : Char) (text : List Char) : Except Problem Lexeme × List Char :=
  match Symbol.read? (c :: text) with
  | some (s, rest) => (.ok (.symbol s), rest)
  | none =>
    match Quote.ofChar? c with
    | some q =>
      match text.dropWhile (· != c) with
      | [] => (.error (.unterminated q), text)
      | _ :: rest => (.ok (.quoted q (String.ofList (text.takeWhile (· != c)))), rest)
    | none =>
      if Text.isDigit c then
        let digits := c :: text.takeWhile Text.isDigit
        let numeral := String.ofList digits
        (if Decimal.value digits ≤ greatestNumber then .ok (.number numeral)
          else .error (.tooLarge numeral),
          text.dropWhile Text.isDigit)
      else if Text.isLetter c then
        (.ok (.ofWord (String.ofList (c :: text.takeWhile Text.isWord))),
          text.dropWhile Text.isWord)
      else (.error (.illegal c), text)

/-- The stretch of text that a piece takes up. -/
def pieceText : Except Problem Lexeme → List Char
  | .ok lexeme => lexeme.text.toList
  | .error problem => problem.text.toList

/-- A piece and the text behind it make up the text. -/
theorem piece_append (c : Char) (text : List Char) :
    pieceText (piece c text).1 ++ (piece c text).2 = c :: text := by
  unfold piece
  split
  · next h => exact Symbol.read?_append h
  · split
    · next q h =>
      have quote := Quote.ofChar?_eq_some.1 h
      have parts := List.takeWhile_append_dropWhile (p := (· != c)) (l := text)
      split
      · simp [pieceText, Problem.text, ← quote]
      · next last rest tail =>
        have closing : last = c := by
          have := List.head?_dropWhile_not (p := (· != c)) text
          simpa [tail] using this
        rw [tail] at parts
        simp only [pieceText, Lexeme.text, ← quote]
        simpa [closing] using parts
    · split
      · have parts := List.takeWhile_append_dropWhile (p := Text.isDigit) (l := text)
        dsimp only
        split <;> simp [pieceText, Lexeme.text, Problem.text, parts]
      · split
        · have parts := List.takeWhile_append_dropWhile (p := Text.isWord) (l := text)
          simp [pieceText, parts]
        · simp [pieceText, Problem.text]

/-- A piece is never empty. -/
theorem pieceText_ne_nil (c : Char) (text : List Char) : pieceText (piece c text).1 ≠ [] := by
  unfold piece
  split
  · exact Symbol.text_ne_nil _
  · split
    · split <;> simp [pieceText, Lexeme.text, Problem.text]
    · split
      · dsimp only
        split <;> simp [pieceText, Lexeme.text, Problem.text]
      · split <;> simp [pieceText, Problem.text]

theorem length_piece_lt (c : Char) (text : List Char) :
    (piece c text).2.length < (c :: text).length := by
  have parts := congrArg List.length (piece_append c text)
  have taken := List.length_pos_iff.2 (pieceText_ne_nil c text)
  rw [List.length_append] at parts
  omega

/-- Layout and a piece behind it take up some text. -/
theorem length_piece_lt_of_layout {source text : List Char} {c : Char}
    (h : (layout false source).2 = c :: text) : (piece c text).2.length < source.length := by
  have shorter := length_piece_lt c text
  have rest := length_layout_le false source
  rw [h] at rest
  exact Nat.lt_of_lt_of_le shorter rest

/-! ## Scanning -/

/-- A place in a text. -/
structure Cursor where
  /-- The text from here on. -/
  rest : List Char
  position : Position
deriving DecidableEq, Repr

/-- What scanning can find besides faults. -/
inductive Item where
  | token (t : Token)
  /-- The end of the text. -/
  | done (position : Position)
deriving DecidableEq, Repr

namespace Cursor

/-- The start of a text. -/
def ofText (text : List Char) : Cursor := ⟨text, .start⟩

/-- What stands at the cursor behind any layout, and the cursor behind that. At the end of the text
    it yields the end again and again. -/
def scan (cursor : Cursor) : Except Fault Item × Cursor :=
  let (skipped, rest) := layout false cursor.rest
  let position := cursor.position.after skipped
  match rest with
  | [] => (.ok (.done position), ⟨[], position⟩)
  | c :: text =>
    match piece c text with
    | (.ok lexeme, rest) =>
      (.ok (.token ⟨lexeme, position⟩), ⟨rest, position.after lexeme.text.toList⟩)
    | (.error problem, rest) =>
      (.error ⟨problem, position⟩, ⟨rest, position.after problem.text.toList⟩)

/-- Anything but the end takes up some text. -/
theorem length_scan_lt {cursor : Cursor} (h : ∀ p, cursor.scan.1 ≠ .ok (.done p)) :
    cursor.scan.2.rest.length < cursor.rest.length := by
  have shorter := length_layout_le false cursor.rest
  revert h
  unfold scan
  split
  next skipped rest hl =>
  rw [hl] at shorter
  simp only
  split
  · intro h; exact absurd rfl (h _)
  · next c text =>
    intro _
    have := length_piece_lt c text
    split <;> next hp => rw [hp] at this; exact Nat.lt_of_lt_of_le this shorter

/-- Everything up to the end of the text, in order. -/
def stream (cursor : Cursor) : List (Except Fault Token) :=
  match _h : cursor.scan with
  | (.ok (.done _), _) => []
  | (.ok (.token t), next) => .ok t :: next.stream
  | (.error f, next) => .error f :: next.stream
termination_by cursor.rest.length
decreasing_by
  · have := @length_scan_lt cursor (by simp [_h])
    rwa [_h] at this
  · have := @length_scan_lt cursor (by simp [_h])
    rwa [_h] at this

/-- The faults in front of the next token or the end, what comes behind them, and the cursor behind
    that. -/
def passFaults (cursor : Cursor) : List Fault × Item × Cursor :=
  match _h : cursor.scan with
  | (.ok item, next) => ([], item, next)
  | (.error f, next) =>
    let (faults, item, last) := next.passFaults
    (f :: faults, item, last)
termination_by cursor.rest.length
decreasing_by
  have := @length_scan_lt cursor (by simp [_h])
  rwa [_h] at this

end Cursor

/-! ## Streams -/

/-- Tokens and faults of a text, in order. -/
def scanText (text : String) : List (Except Fault Token) :=
  (Cursor.ofText text.toList).stream

/-- The tokens of a stream. -/
def tokensOf (stream : List (Except Fault Token)) : List Token :=
  stream.filterMap fun
    | .ok t => some t
    | .error _ => none

/-- The faults in front of the token with index `n`; all of them if there is no such token. -/
def faultsBefore : (n : Nat) → List (Except Fault Token) → List Fault
  | _, [] => []
  | n, .error f :: stream => f :: faultsBefore n stream
  | 0, .ok _ :: _ => []
  | n + 1, .ok _ :: stream => faultsBefore n stream

/-! ## Lexers -/

/-- A cursor that remembers where its text began, the faults that it has passed over, and whether it
    has yielded the end. -/
structure Lexer where
  source : List Char
  cursor : Cursor
  faults : List Fault
  finished : Bool
deriving DecidableEq, Repr

namespace Lexer

/-- A lexer at the start of a text. -/
def ofText (text : List Char) : Lexer := ⟨text, .ofText text, [], false⟩

/-- The next token, or once the end, or nothing; with the faults passed over. -/
def next (lexer : Lexer) : Option Item × List Fault × Lexer :=
  if lexer.finished then (none, [], lexer)
  else
    let (passed, item, cursor) := lexer.cursor.passFaults
    let finished := match item with
      | .token _ => false
      | .done _ => true
    (some item, passed, { lexer with cursor, faults := lexer.faults ++ passed, finished })

/-- One piece, fault or not; nothing but the place changes. -/
def scan (lexer : Lexer) : Except Fault Item × Lexer :=
  let (found, cursor) := lexer.cursor.scan
  (found, { lexer with cursor })

/-- Back to the start with an empty memory. -/
def reset (lexer : Lexer) : Lexer := ofText lexer.source

/-- What can be asked of a lexer. -/
inductive Request where
  | next | scan | reset | faults
deriving DecidableEq, Repr

/-- What a lexer answers. -/
inductive Answer where
  | next (item : Option Item)
  | scan (found : Except Fault Item)
  | reset
  | faults (recorded : List Fault)

/-- Serves one request: the answer, the faults reported on the way, and the lexer afterwards. -/
def serve (lexer : Lexer) : Request → Answer × List Fault × Lexer
  | .next =>
    let (item, passed, lexer) := lexer.next
    (.next item, passed, lexer)
  | .scan =>
    let (found, lexer) := lexer.scan
    (.scan found, [], lexer)
  | .reset => (.reset, [], lexer.reset)
  | .faults => (.faults lexer.faults, [], lexer)

/-- Serves requests in order: all answers, and all faults reported. -/
def serveAll (lexer : Lexer) : List Request → List Answer × List Fault
  | [] => ([], [])
  | request :: requests =>
    let (answer, passed, lexer) := lexer.serve request
    let (answers, reported) := lexer.serveAll requests
    (answer :: answers, passed ++ reported)

end Lexer

end Scriptlet
