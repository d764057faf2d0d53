import Scriptlet.Proofs.Grammar

set_option autoImplicit false

/-! # The lexemes of a text

`lexemesOf text` are the lexemes of a text that starts anywhere: the place where it starts plays no
role (`lexemes_cursor`). Each step of scanning is one rewriting rule for it. A blank is passed over,
and a text that starts with a piece has that piece as its first lexeme.

The second half says which pieces a text starts with, given what stands behind them. A symbol
between blanks and a closed quoted text need nothing; a name and a number end only in front of a
character that does not continue them (`EndsWord`). -/

namespace Scriptlet

/-- The lexemes of a text; faults are left out. -/
def lexemesOf (text : List Char) : List Lexeme :=
  (tokensOf (Cursor.ofText text).stream).map Token.lexeme

theorem lexemes_eq_lexemesOf (source : String) :
    Grammar.lexemes source = lexemesOf source.toList := rfl

/-! ## Scanning -/

section Scanning

variable {cursor : Cursor} {c : Char} {text rest : List Char}

theorem stream_of_scan_done {position : Position} {next : Cursor}
    (h : cursor.scan = (.ok (.done position), next)) : cursor.stream = [] := by
  rw [Cursor.stream]
  split
  · rfl
  · next heq => exact absurd (h.symm.trans heq) (by simp)
  · next heq => exact absurd (h.symm.trans heq) (by simp)

theorem stream_of_scan_token {t : Token} {next : Cursor}
    (h : cursor.scan = (.ok (.token t), next)) : cursor.stream = .ok t :: next.stream := by
  rw [Cursor.stream]
  split
  · next heq => exact absurd (h.symm.trans heq) (by simp)
  · next heq =>
    have hsame := h.symm.trans heq
    simp only [Prod.mk.injEq, Except.ok.injEq, Item.token.injEq] at hsame
    rw [hsame.1, hsame.2]
  · next heq => exact absurd (h.symm.trans heq) (by simp)

theorem stream_of_scan_error {f : Fault} {next : Cursor} (h : cursor.scan = (.error f, next)) :
    cursor.stream = .error f :: next.stream := by
  rw [Cursor.stream]
  split
  · next heq => exact absurd (h.symm.trans heq) (by simp)
  · next heq => exact absurd (h.symm.trans heq) (by simp)
  · next heq =>
    have hsame := h.symm.trans heq
    simp only [Prod.mk.injEq, Except.error.injEq] at hsame
    rw [hsame.1, hsame.2]

theorem stream_of_layout_eq_nil (h : (layout false cursor.rest).2 = []) : cursor.stream = [] := by
  have hscan : cursor.scan = (.ok (.done (cursor.position.after (layout false cursor.rest).1)),
      ⟨[], cursor.position.after (layout false cursor.rest).1⟩) := by
    simp only [Cursor.scan, h]
  exact stream_of_scan_done hscan

theorem stream_of_piece_ok {l : Lexeme} (h : (layout false cursor.rest).2 = c :: text)
    (hp : piece c text = (.ok l, rest)) :
    ∃ position next, cursor.stream = .ok ⟨l, position⟩ :: (⟨rest, next⟩ : Cursor).stream := by
  have hscan : cursor.scan = (.ok (.token ⟨l, cursor.position.after (layout false cursor.rest).1⟩),
      ⟨rest, (cursor.position.after (layout false cursor.rest).1).after l.text.toList⟩) := by
    simp only [Cursor.scan, h, hp]
  exact ⟨_, _, stream_of_scan_token hscan⟩

theorem stream_of_piece_error {problem : Problem} (h : (layout false cursor.rest).2 = c :: text)
    (hp : piece c text = (.error problem, rest)) :
    ∃ position next,
      cursor.stream = .error ⟨problem, position⟩ :: (⟨rest, next⟩ : Cursor).stream := by
  have hscan : cursor.scan =
      (.error ⟨problem, cursor.position.after (layout false cursor.rest).1⟩,
      ⟨rest, (cursor.position.after (layout false cursor.rest).1).after problem.text.toList⟩) := by
    simp only [Cursor.scan, h, hp]
  exact ⟨_, _, stream_of_scan_error hscan⟩

/-- Texts that are the same behind their layout have the same lexemes, wherever they start. -/
theorem lexemes_eq_of_layout {a b : Cursor}
    (h : (layout false a.rest).2 = (layout false b.rest).2) :
    (tokensOf a.stream).map Token.lexeme = (tokensOf b.stream).map Token.lexeme := by
  -- both texts go on with the same piece, and then with the same text at two places
  induction hn : a.rest.length using Nat.strongRecOn generalizing a b with
  | ind n ih =>
    cases hrest : (layout false a.rest).2 with
    | nil => rw [stream_of_layout_eq_nil hrest, stream_of_layout_eq_nil (h ▸ hrest)]
    | cons c text =>
      have hlt : (piece c text).2.length < n := hn ▸ length_piece_lt_of_layout hrest
      rcases hp : piece c text with ⟨problem | l, rest⟩
      · obtain ⟨_, p, ha⟩ := stream_of_piece_error hrest hp
        obtain ⟨_, q, hb⟩ := stream_of_piece_error (h ▸ hrest) hp
        rw [hp] at hlt
        rw [ha, hb]
        exact ih rest.length hlt (a := ⟨rest, p⟩) (b := ⟨rest, q⟩) rfl rfl
      · obtain ⟨_, p, ha⟩ := stream_of_piece_ok hrest hp
        obtain ⟨_, q, hb⟩ := stream_of_piece_ok (h ▸ hrest) hp
        rw [hp] at hlt
        rw [ha, hb]
        exact congrArg (l :: ·) (ih rest.length hlt (a := ⟨rest, p⟩) (b := ⟨rest, q⟩) rfl rfl)

theorem lexemes_cursor (cursor : Cursor) :
    (tokensOf cursor.stream).map Token.lexeme = lexemesOf cursor.rest :=
  lexemes_eq_of_layout rfl

theorem lexemesOf_of_layout_eq_nil (h : (layout false text).2 = []) : lexemesOf text = [] := by
  have hlayout : (layout false (Cursor.ofText text).rest).2 = [] := h
  unfold lexemesOf
  rw [stream_of_layout_eq_nil hlayout]
  rfl

@[simp]
theorem lexemesOf_nil : lexemesOf [] = [] :=
  lexemesOf_of_layout_eq_nil rfl

theorem lexemesOf_of_piece_ok {source : List Char} {l : Lexeme}
    (h : (layout false source).2 = c :: text) (hp : piece c text = (.ok l, rest)) :
    lexemesOf source = l :: lexemesOf rest := by
  have hlayout : (layout false (Cursor.ofText source).rest).2 = c :: text := h
  obtain ⟨position, next, hstream⟩ := stream_of_piece_ok hlayout hp
  unfold lexemesOf
  rw [hstream]
  exact congrArg (l :: ·) (lexemes_cursor ⟨rest, next⟩)

theorem lexemesOf_of_piece_error {source : List Char} {problem : Problem}
    (h : (layout false source).2 = c :: text) (hp : piece c text = (.error problem, rest)) :
    lexemesOf source = lexemesOf rest := by
  have hlayout : (layout false (Cursor.ofText source).rest).2 = c :: text := h
  obtain ⟨position, next, hstream⟩ := stream_of_piece_error hlayout hp
  unfold lexemesOf
  rw [hstream]
  exact lexemes_cursor ⟨rest, next⟩

theorem layout_blank (hc : Text.isBlank c = true) (text : List Char) :
    (layout false (c :: text)).2 = (layout false text).2 := by
  rcases Text.isBlank_iff.1 hc with rfl | rfl | rfl | rfl <;> rfl

theorem lexemesOf_blank (hc : Text.isBlank c = true) : lexemesOf (c :: text) = lexemesOf text :=
  lexemes_eq_of_layout (a := .ofText (c :: text)) (b := .ofText text) (layout_blank hc text)

/-- A text that starts with neither a blank nor a comment has no layout in front. -/
theorem layout_eq_self (hc : Text.isBlank c = false)
    (hcomment : c = '/' → text.head? ≠ some '/') : layout false (c :: text) = ([], c :: text) := by
  rw [layout]
  · rw [if_neg (by simp [hc])]
  · rintro tail rfl rfl
    exact hcomment rfl rfl

theorem lexemesOf_piece {l : Lexeme} (hc : Text.isBlank c = false)
    (hcomment : c = '/' → text.head? ≠ some '/') (hp : piece c text = (.ok l, rest)) :
    lexemesOf (c :: text) = l :: lexemesOf rest := by
  have hlayout : (layout false (c :: text)).2 = c :: text := by
    rw [layout_eq_self hc hcomment]
  exact lexemesOf_of_piece_ok hlayout hp

end Scanning

/-! ## Symbols -/

section Symbols

variable {c : Char} {s : Symbol} {text rest : List Char}

theorem Symbol.not_blank_of_read? (h : read? (c :: text) = some (s, rest)) :
    Text.isBlank c = false := by
  have hblank : s.text.toList.head?.any Text.isBlank = false := by
    cases s <;> rfl
  obtain ⟨first, more, hs⟩ := List.exists_cons_of_ne_nil (text_ne_nil s)
  have htext := read?_append h
  rw [hs] at hblank htext
  rw [← (List.cons.inj htext).1]
  exact hblank

theorem lexemesOf_symbol (h : Symbol.read? (c :: text) = some (s, rest))
    (hcomment : c = '/' → text.head? ≠ some '/') :
    lexemesOf (c :: text) = .symbol s :: lexemesOf rest := by
  refine lexemesOf_piece (Symbol.not_blank_of_read? h) hcomment ?_
  simp only [piece, h]

/-- In front of a blank, every symbol is read as what it is. -/
theorem lexemesOf_symbol_blank (s : Symbol) (rest : List Char) :
    lexemesOf (s.text.toList ++ ' ' :: rest) = .symbol s :: lexemesOf rest := by
  have hblank : lexemesOf (' ' :: rest) = lexemesOf rest := lexemesOf_blank rfl
  rw [← hblank]
  cases s <;> refine lexemesOf_symbol rfl fun _ => ?_ <;> show some _ ≠ some _ <;> decide

/-- Symbols that are no part of a longer one. -/
def Symbol.standsAlone : Symbol → Bool
  | parenLeft | parenRight | bracketLeft | bracketRight | comma | semicolon => true
  | _ => false

/-- A symbol that is no part of a longer one is read in front of any text. -/
theorem lexemesOf_standsAlone (hs : s.standsAlone = true) (rest : List Char) :
    lexemesOf (s.text.toList ++ rest) = .symbol s :: lexemesOf rest := by
  cases s <;> first
    | exact absurd hs (by decide)
    | exact lexemesOf_symbol (by cases rest <;> rfl) fun hc => absurd hc (by decide)

end Symbols

/-! ## Words, numbers and quoted texts -/

theorem Text.isDigit_of_isLetter {c : Char} (hc : isLetter c = true) : isDigit c = false := by
  rw [Bool.eq_false_iff]
  intro hdigit
  have hle : c.toNat ≤ 57 := (Char.isDigit_iff_toNat.1 hdigit).2
  rcases Bool.or_eq_true_iff.1 hc with halpha | hunderscore
  · rcases Bool.or_eq_true_iff.1 halpha with hupper | hlower
    · have hge : 65 ≤ c.toNat := UInt32.le_iff_toNat_le.1 (of_decide_eq_true hupper).1
      omega
    · have hge : 97 ≤ c.toNat :=
        UInt32.le_iff_toNat_le.1 (of_decide_eq_true (Bool.and_eq_true_iff.1 hlower).1)
      omega
  · rw [eq_of_beq hunderscore] at hdigit
    exact absurd hdigit (by decide)

/-- The text does not go on with the name or number in front of it. -/
def EndsWord (text : List Char) : Prop :=
  ∀ c ∈ text.head?, Text.isWord c = false

section Words

variable {c : Char} {text rest : List Char}

theorem endsWord_nil : EndsWord [] := by
  intro c hc
  exact absurd hc (by simp)

theorem endsWord_cons (hc : Text.isWord c = false) (rest : List Char) : EndsWord (c :: rest) := by
  intro d hd
  simp only [List.head?_cons, Option.mem_def, Option.some.injEq] at hd
  rw [← hd]
  exact hc

/-- What a class of word characters takes off a text that ends the word. -/
theorem span_of_endsWord {p : Char → Bool} (hp : ∀ c, p c = true → Text.isWord c = true)
    (htext : ∀ c ∈ text, p c = true) (hrest : EndsWord rest) :
    (text ++ rest).takeWhile p = text ∧ (text ++ rest).dropWhile p = rest := by
  rw [List.takeWhile_append_of_pos htext, List.dropWhile_append_of_pos htext]
  cases rest with
  | nil => simp
  | cons c rest =>
    have hc : p c = false := by
      cases h : p c with
      | false => rfl
      | true => exact absurd (hp c h) (by simp [hrest c (by simp)])
    simp [hc]

/-- A word character starts no symbol and is neither a quote nor layout. -/
theorem piece_of_isWord (hc : Text.isWord c = true) (text : List Char) :
    Symbol.read? (c :: text) = none ∧ Quote.ofChar? c = none ∧ Text.isBlank c = false ∧
      c ≠ '/' := by
  -- all of these are tables of characters that are no word characters
  have hne : ∀ d, Text.isWord d = false → c ≠ d := by
    rintro d hd rfl
    exact absurd hc (by simp [hd])
  have hone : Symbol.ofChar? c = none := by
    unfold Symbol.ofChar?
    split <;> first | rfl | exact absurd rfl (hne _ rfl)
  have hpair (d : Char) : Symbol.ofPair? c d = none := by
    unfold Symbol.ofPair?
    split <;> first | rfl | exact absurd rfl (hne _ rfl)
  refine ⟨?_, ?_, ?_, hne _ rfl⟩
  · cases text <;> simp [Symbol.read?, hone, hpair]
  · unfold Quote.ofChar?
    split <;> first | rfl | exact absurd rfl (hne _ rfl)
  · simp [Text.isBlank, hne ' ' rfl, hne '\t' rfl, hne '\r' rfl, hne '\n' rfl]

/-- In front of a text that ends it, a digit run is read as a number. -/
theorem piece_number (hc : Text.isDigit c = true) (htext : ∀ d ∈ text, Text.isDigit d = true)
    (hrest : EndsWord rest) (hvalue : Decimal.value (c :: text) ≤ greatestNumber) :
    piece c (text ++ rest) = (.ok (.number (String.ofList (c :: text))), rest) := by
  have hword : ∀ d, Text.isDigit d = true → Text.isWord d = true := by
    intro d hd
    simp [Text.isWord, hd]
  obtain ⟨hsymbol, hquote, -, -⟩ := piece_of_isWord (hword c hc) (text ++ rest)
  obtain ⟨htake, hdrop⟩ := span_of_endsWord hword htext hrest
  simp only [piece, hsymbol, hquote, hc, if_true, htake, hdrop, if_pos hvalue]

theorem lexemesOf_number (hc : Text.isDigit c = true) (htext : ∀ d ∈ text, Text.isDigit d = true)
    (hrest : EndsWord rest) (hvalue : Decimal.value (c :: text) ≤ greatestNumber) :
    lexemesOf (c :: text ++ rest) = .number (String.ofList (c :: text)) :: lexemesOf rest := by
  have hword : Text.isWord c = true := by simp [Text.isWord, hc]
  obtain ⟨-, -, hblank, hslash⟩ := piece_of_isWord hword (text ++ rest)
  rw [List.cons_append]
  exact lexemesOf_piece hblank (fun h => absurd h hslash) (piece_number hc htext hrest hvalue)

/-- In front of a text that ends it, a run of word characters is read as a word. -/
theorem piece_word (hc : Text.isLetter c = true) (htext : ∀ d ∈ text, Text.isWord d = true)
    (hrest : EndsWord rest) :
    piece c (text ++ rest) = (.ok (.ofWord (String.ofList (c :: text))), rest) := by
  have hword : Text.isWord c = true := by simp [Text.isWord, hc]
  obtain ⟨hsymbol, hquote, -, -⟩ := piece_of_isWord hword (text ++ rest)
  obtain ⟨htake, hdrop⟩ := span_of_endsWord (fun _ h => h) htext hrest
  have hdigit : Text.isDigit c = false := Text.isDigit_of_isLetter hc
  simp only [piece, hsymbol, hquote, hdigit, hc, if_true, Bool.false_eq_true, if_false, htake,
    hdrop]

theorem lexemesOf_word (hc : Text.isLetter c = true) (htext : ∀ d ∈ text, Text.isWord d = true)
    (hrest : EndsWord rest) :
    lexemesOf (c :: text ++ rest) = .ofWord (String.ofList (c :: text)) :: lexemesOf rest := by
  have hword : Text.isWord c = true := by simp [Text.isWord, hc]
  obtain ⟨-, -, hblank, hslash⟩ := piece_of_isWord hword (text ++ rest)
  rw [List.cons_append]
  exact lexemesOf_piece hblank (fun h => absurd h hslash) (piece_word hc htext hrest)

/-- A quoted text ends at the next quote of its kind, whatever is behind it. -/
theorem piece_quoted (q : Quote) (htext : q.char ∉ text) (rest : List Char) :
    piece q.char (text ++ q.char :: rest) = (.ok (.quoted q (String.ofList text)), rest) := by
  have hmem : ∀ d ∈ text, (d != q.char) = true := by
    intro d hd
    rw [bne_iff_ne]
    rintro rfl
    exact htext hd
  have htake : (text ++ q.char :: rest).takeWhile (· != q.char) = text := by
    rw [List.takeWhile_append_of_pos hmem]
    simp
  have hdrop : (text ++ q.char :: rest).dropWhile (· != q.char) = q.char :: rest := by
    rw [List.dropWhile_append_of_pos hmem]
    simp
  have hsymbol : Symbol.read? (q.char :: (text ++ q.char :: rest)) = none := by
    cases q <;> cases text <;> rfl
  have hquote : Quote.ofChar? q.char = some q := Quote.ofChar?_eq_some.2 rfl
  simp only [piece, hsymbol, hquote, htake, hdrop]

/-- A quote is neither a blank nor a slash. -/
theorem Quote.char_starts (q : Quote) : Text.isBlank q.char = false ∧ q.char ≠ '/' := by
  cases q <;> decide

theorem lexemesOf_quoted (q : Quote) (htext : q.char ∉ text) (rest : List Char) :
    lexemesOf (q.char :: text ++ q.char :: rest) =
      .quoted q (String.ofList text) :: lexemesOf rest := by
  rw [List.cons_append]
  exact lexemesOf_piece q.char_starts.1 (fun h => absurd h q.char_starts.2)
    (piece_quoted q htext rest)

end Words

/-! ## Spelling -/

/-- Texts of word characters, the first one a letter. -/
def isIdentifier (x : String) : Bool :=
  match x.toList with
  | [] => false
  | c :: cs => Text.isLetter c && cs.all Text.isWord

/-- Identifiers that are not reserved. -/
def isName (x : String) : Bool :=
  isIdentifier x && (Keyword.ofText? x).isNone

/-- In front of a text that ends a word, `text` has the lexemes `ls`. -/
def Spells (text : String) (ls : List Lexeme) : Prop :=
  ∀ rest, EndsWord rest → lexemesOf (text.toList ++ rest) = ls ++ lexemesOf rest

theorem Spells.lexemes {text : String} {ls : List Lexeme} (h : Spells text ls) :
    Grammar.lexemes text = ls := by
  have hall := h [] endsWord_nil
  rw [List.append_nil, lexemesOf_nil, List.append_nil] at hall
  rw [lexemes_eq_lexemesOf, hall]

theorem endsWord_blank (text : String) : EndsWord (" " ++ text).toList := by
  rw [String.toList_append]
  exact endsWord_cons (c := ' ') rfl _

theorem endsWord_standsAlone {s : Symbol} (hs : s.standsAlone = true) (text : String) :
    EndsWord (s.text ++ text).toList := by
  rw [String.toList_append]
  cases s <;> first
    | exact absurd hs (by decide)
    | exact endsWord_cons (by decide) _

namespace Spells

variable {a b : String} {ls ms : List Lexeme}

theorem empty : Spells "" [] := fun _ _ => rfl

theorem append (ha : Spells a ls) (hb : Spells b ms) (hends : EndsWord b.toList) :
    Spells (a ++ b) (ls ++ ms) := by
  intro rest hrest
  -- what ends a word of `a` is the start of `b`, or what follows if `b` is empty
  have hboth : EndsWord (b.toList ++ rest) := by
    cases hlist : b.toList with
    | nil => exact hrest
    | cons c cs =>
      rw [hlist] at hends
      exact endsWord_cons (hends c (by simp)) _
  rw [String.toList_append, List.append_assoc, ha _ hboth, hb _ hrest, List.append_assoc]

theorem symbol {s : Symbol} (hs : s.standsAlone = true) (hb : Spells b ms) :
    Spells (s.text ++ b) (.symbol s :: ms) := by
  intro rest hrest
  rw [String.toList_append, List.append_assoc, lexemesOf_standsAlone hs, hb _ hrest]
  rfl

/-- A symbol that is no part of a longer one also closes a text. -/
theorem close {s : Symbol} (ha : Spells a ls) (hs : s.standsAlone = true) :
    Spells (a ++ s.text) (ls ++ [.symbol s]) := by
  have hsymbol := symbol hs empty
  have hends := endsWord_standsAlone hs ""
  rw [String.append_empty] at hsymbol hends
  exact ha.append hsymbol hends

theorem blank (hb : Spells b ms) : Spells (" " ++ b) ms := by
  intro rest hrest
  rw [String.toList_append, List.append_assoc]
  exact (lexemesOf_blank (c := ' ') rfl).trans (hb _ hrest)

/-- A symbol between blanks. -/
theorem operator (s : Symbol) (hb : Spells b ms) :
    Spells (" " ++ (s.text ++ (" " ++ b))) (.symbol s :: ms) := by
  refine blank fun rest hrest => ?_
  rw [String.toList_append, String.toList_append, List.append_assoc, List.append_assoc]
  exact (lexemesOf_symbol_blank s _).trans (congrArg (.symbol s :: ·) (hb _ hrest))

/-- Texts with commas between them. -/
theorem commaSeparated {α : Type} {text : α → String} {lexemes : α → List Lexeme} {items : List α}
    (h : ∀ a ∈ items, Spells (text a) (lexemes a)) :
    Spells (String.intercalate ", " (items.map text))
      (List.intercalate [.symbol .comma] (items.map lexemes)) := by
  induction items with
  | nil => exact .empty
  | cons first items ih =>
    have hfirst := h first (by simp)
    cases items with
    | nil =>
      rw [List.map_singleton, List.map_singleton, String.intercalate_singleton,
        List.intercalate_singleton]
      exact hfirst
    | cons second items =>
      have hmore := ih fun a ha => h a (by simp [ha])
      rw [List.map_cons] at hmore
      rw [List.map_cons, List.map_cons, List.map_cons, List.map_cons,
        String.intercalate_cons_cons, List.intercalate_cons_cons,
        show ", " = Symbol.comma.text ++ " " from rfl, String.append_assoc, String.append_assoc,
        List.append_assoc]
      exact hfirst.append (.symbol rfl (.blank hmore)) (endsWord_standsAlone rfl _)

theorem number {n : Nat} (hn : n ≤ greatestNumber) :
    Spells (String.ofList (Decimal.digits n)) [.number (String.ofList (Decimal.digits n))] := by
  intro rest hrest
  have hdigits : ∀ c ∈ Decimal.digits n, Text.isDigit c = true :=
    fun c hc => Nat.isDigit_of_mem_toDigits (by decide) (by decide) hc
  rw [String.toList_ofList]
  cases hlist : Decimal.digits n with
  | nil => exact absurd hlist Nat.toDigits_ne_nil
  | cons c cs =>
    rw [hlist] at hdigits
    refine lexemesOf_number (hdigits c (by simp)) (fun d hd => hdigits d (by simp [hd])) hrest ?_
    rw [← hlist, Decimal.value_digits]
    exact hn

theorem quoted (q : Quote) {s : String} (hs : q.char ∉ s.toList) :
    Spells (q.char.toString ++ (s ++ q.char.toString)) [.quoted q s] := by
  intro rest _
  have hquote : q.char.toString.toList = [q.char] := String.toList_singleton _
  have hquoted := lexemesOf_quoted q hs rest
  rw [String.ofList_toList] at hquoted
  rw [String.toList_append, String.toList_append, List.append_assoc, List.append_assoc, hquote]
  exact hquoted

theorem word {x : String} (hx : isIdentifier x = true) : Spells x [.ofWord x] := by
  intro rest hrest
  unfold isIdentifier at hx
  split at hx
  · exact absurd hx (by simp)
  · next c cs hlist =>
    simp only [Bool.and_eq_true, List.all_eq_true] at hx
    obtain ⟨hc, hcs⟩ := hx
    rw [hlist, lexemesOf_word hc hcs hrest, ← hlist, String.ofList_toList]
    rfl

theorem name {x : String} (hx : isName x = true) : Spells x [.name x] := by
  simp only [isName, Bool.and_eq_true, Option.isNone_iff_eq_none] at hx
  have hword : Lexeme.ofWord x = .name x := by rw [Lexeme.ofWord, hx.2]
  rw [← hword]
  exact word hx.1

theorem keyword (k : Keyword) : Spells k.text [.keyword k] := by
  have hword : Lexeme.ofWord k.text = .keyword k := by cases k <;> rfl
  rw [← hword]
  exact word (by cases k <;> rfl)

end Spells

end Scriptlet
