import Scriptlet.Proofs.Coverage
import Scriptlet.Proofs.Lexing

set_option autoImplicit false

/-! # Lexemes under any layout

A text that is made of lexemes and of layout between them is read back as these lexemes, whatever
the layout is (`lexing_laidOut`). Two things are asked of it. Layout that stands behind a lexeme
starts with a blank, so that it does not continue the lexeme and a slash in front of a comment stays
a slash; and there is some layout between any two lexemes.

`readBefore_of_isValid` says that a lexeme in front of such layout is what `piece` reads, and
`exists_stream_laidOut` goes through the text lexeme by lexeme. What a lexer yields is tied to the
stream of a text once for all texts (`Lexer.yields_stream`). Since `piece` reads nothing but valid
lexemes, the lexemes of any text can be written with single spaces between them and read again. -/

namespace Scriptlet

/-! ## Valid lexemes -/

/-- Whether the text of a lexeme is one of its kind: a name is not reserved, a number is a digit run
    that is not too large, and a quoted text does not contain its quote. -/
def Lexeme.isValid : Lexeme → Bool
  | symbol _ | keyword _ => true
  | name x => isName x
  | number ds =>
    !ds.toList.isEmpty && ds.toList.all Text.isDigit &&
      decide (Decimal.value ds.toList ≤ greatestNumber)
  | quoted q s => !s.toList.contains q.char

/-- The text is empty or starts with a blank. -/
def StartsBlank (text : List Char) : Prop :=
  ∀ c ∈ text.head?, Text.isBlank c = true

theorem startsBlank_nil : StartsBlank [] := by
  intro c hc
  exact absurd hc (by simp)

theorem StartsBlank.append {gap : List Char} (hgap : StartsBlank gap) (hne : gap ≠ [])
    (text : List Char) : StartsBlank (gap ++ text) := by
  obtain ⟨c, more, rfl⟩ := List.exists_cons_of_ne_nil hne
  exact hgap

theorem StartsBlank.endsWord {text : List Char} (h : StartsBlank text) : EndsWord text := by
  intro c hc
  rcases Text.isBlank_iff.1 (h c hc) with rfl | rfl | rfl | rfl <;> rfl

/-- A blank is no part of a symbol. -/
theorem Symbol.read?_text (s : Symbol) {rest : List Char} (h : StartsBlank rest) :
    read? (s.text.toList ++ rest) = some (s, rest) := by
  cases rest with
  | nil => cases s <;> rfl
  | cons c rest =>
    rcases Text.isBlank_iff.1 (h c rfl) with rfl | rfl | rfl | rfl <;> cases s <;> rfl

/-- The lexeme in front of `rest` is what is read there, and nothing of it is taken for layout. -/
def Lexeme.ReadBefore (l : Lexeme) (rest : List Char) : Prop :=
  ∃ c text, l.text.toList ++ rest = c :: text ∧ (layout false (c :: text)).2 = c :: text ∧
    piece c text = (.ok l, rest)

section Kinds

variable {rest : List Char}

theorem readBefore_symbol (s : Symbol) (hrest : StartsBlank rest) :
    (Lexeme.symbol s).ReadBefore rest := by
  obtain ⟨c, text, hs⟩ : ∃ c text, s.text.toList ++ rest = c :: text :=
    List.exists_cons_of_ne_nil (by simp [s.text_ne_nil])
  have hread := s.read?_text hrest
  rw [hs] at hread
  refine ⟨c, text, hs, ?_, by simp only [piece, hread]⟩
  rw [layout_eq_self (Symbol.not_blank_of_read? hread)]
  -- two slashes are no symbol, so the next character is no slash
  rintro rfl hslash
  obtain ⟨more, rfl⟩ : ∃ more, text = '/' :: more := by
    cases text with
    | nil => exact absurd hslash (by simp)
    | cons d more =>
      obtain rfl : d = '/' := by simpa using hslash
      exact ⟨more, rfl⟩
  have hone : some (Symbol.slash, '/' :: more) = some (s, rest) := hread
  simp only [Option.some.injEq, Prod.mk.injEq] at hone
  obtain ⟨-, rfl⟩ := hone
  exact absurd (hrest '/' rfl) (by decide)

theorem layout_of_isWord {c : Char} (hc : Text.isWord c = true) (text : List Char) :
    (layout false (c :: text)).2 = c :: text := by
  obtain ⟨-, -, hblank, hslash⟩ := piece_of_isWord hc text
  rw [layout_eq_self hblank fun h => absurd h hslash]

theorem readBefore_word {x : String} (hx : isIdentifier x = true) (hrest : StartsBlank rest) :
    (Lexeme.ofWord x).ReadBefore rest := by
  unfold isIdentifier at hx
  split at hx
  · exact absurd hx (by simp)
  · next c cs hlist =>
    simp only [Bool.and_eq_true, List.all_eq_true] at hx
    obtain ⟨hc, hcs⟩ := hx
    have hpiece := piece_word hc hcs hrest.endsWord
    rw [← hlist, String.ofList_toList] at hpiece
    refine ⟨c, cs ++ rest, ?_, layout_of_isWord (by simp [Text.isWord, hc]) _, hpiece⟩
    rw [Lexeme.text_ofWord, hlist]
    rfl

theorem readBefore_number {ds : String} (hds : (Lexeme.number ds).isValid = true)
    (hrest : StartsBlank rest) : (Lexeme.number ds).ReadBefore rest := by
  simp only [Lexeme.isValid, Bool.and_eq_true, Bool.not_eq_true', List.isEmpty_eq_false_iff,
    List.all_eq_true, decide_eq_true_eq] at hds
  obtain ⟨⟨hne, hdigits⟩, hvalue⟩ := hds
  obtain ⟨c, cs, hlist⟩ := List.exists_cons_of_ne_nil hne
  rw [hlist] at hdigits hvalue
  have hc := hdigits c (by simp)
  have hpiece := piece_number hc (fun d hd => hdigits d (by simp [hd])) hrest.endsWord hvalue
  rw [← hlist, String.ofList_toList] at hpiece
  refine ⟨c, cs ++ rest, ?_, layout_of_isWord (by simp [Text.isWord, hc]) _, hpiece⟩
  show ds.toList ++ rest = _
  rw [hlist]
  rfl

theorem readBefore_quoted {q : Quote} {s : String} (hs : (Lexeme.quoted q s).isValid = true)
    (rest : List Char) : (Lexeme.quoted q s).ReadBefore rest := by
  have hmem : q.char ∉ s.toList := by simpa [Lexeme.isValid] using hs
  have hpiece := piece_quoted q hmem rest
  rw [String.ofList_toList] at hpiece
  refine ⟨q.char, s.toList ++ q.char :: rest, ?_, ?_, hpiece⟩
  · simp [Lexeme.text]
  · rw [layout_eq_self q.char_starts.1 fun h => absurd h q.char_starts.2]

end Kinds

/-- A valid lexeme in front of a blank or of the end is read there. -/
theorem readBefore_of_isValid {l : Lexeme} (hl : l.isValid = true) {rest : List Char}
    (hrest : StartsBlank rest) : l.ReadBefore rest := by
  cases l with
  | symbol s => exact readBefore_symbol s hrest
  | keyword k =>
    have hword : Lexeme.ofWord k.text = .keyword k := by cases k <;> rfl
    rw [← hword]
    exact readBefore_word (by cases k <;> rfl) hrest
  | name x =>
    simp only [Lexeme.isValid, isName, Bool.and_eq_true, Option.isNone_iff_eq_none] at hl
    have hword : Lexeme.ofWord x = .name x := by rw [Lexeme.ofWord, hl.2]
    rw [← hword]
    exact readBefore_word hl.1 hrest
  | number ds => exact readBefore_number hl hrest
  | quoted q s => exact readBefore_quoted hl rest

theorem isValid_ofWord {x : String} (hx : isIdentifier x = true) :
    (Lexeme.ofWord x).isValid = true := by
  unfold Lexeme.ofWord
  split
  · rfl
  · next hnone => simp [Lexeme.isValid, isName, hx, hnone]

/-- Every lexeme that is read is valid. -/
theorem isValid_of_piece {c : Char} {text rest : List Char} {l : Lexeme}
    (h : piece c text = (.ok l, rest)) : l.isValid = true := by
  unfold piece at h
  split at h
  · next s _ _ =>
    simp only [Prod.mk.injEq, Except.ok.injEq] at h
    rw [← h.1]
    rfl
  · split at h
    · next q hquote =>
      obtain rfl := Quote.ofChar?_eq_some.1 hquote
      split at h
      · exact absurd h (by simp)
      · simp only [Prod.mk.injEq, Except.ok.injEq] at h
        rw [← h.1]
        have hmem : q.char ∉ text.takeWhile (· != q.char) := by
          intro hmem
          have hquoted := List.all_eq_true.1 List.all_takeWhile _ hmem
          exact absurd hquoted (by simp)
        simpa [Lexeme.isValid] using hmem
    · by_cases hdigit : Text.isDigit c = true
      · simp only [hdigit, if_true, Prod.mk.injEq] at h
        obtain ⟨hnumber, -⟩ := h
        split at hnumber
        · next hvalue =>
          simp only [Except.ok.injEq] at hnumber
          subst hnumber
          simp [Lexeme.isValid, hdigit, hvalue, List.all_takeWhile]
        · exact absurd hnumber (by simp)
      · rw [if_neg hdigit] at h
        split at h
        · next hletter =>
          simp only [Prod.mk.injEq, Except.ok.injEq] at h
          obtain ⟨rfl, -⟩ := h
          refine isValid_ofWord ?_
          simp [isIdentifier, hletter, List.all_takeWhile]
        · exact absurd h (by simp)

/-! ## Streams -/

/-- The faults of a stream. -/
def faultsOf (stream : List (Except Fault Token)) : List Fault :=
  stream.filterMap fun
    | .ok _ => none
    | .error f => some f

theorem tokensOf_map_ok (tokens : List Token) : tokensOf (tokens.map .ok) = tokens := by
  rw [tokensOf, List.filterMap_map]
  exact List.filterMap_some

theorem mem_tokensOf {stream : List (Except Fault Token)} {t : Token} :
    t ∈ tokensOf stream ↔ .ok t ∈ stream := by
  rw [tokensOf, List.mem_filterMap]
  constructor
  · rintro ⟨found, hmem, hfound⟩
    cases found with
    | error f => exact absurd hfound (by simp)
    | ok u =>
      obtain rfl : u = t := by simpa using hfound
      exact hmem
  · intro hmem
    exact ⟨.ok t, hmem, rfl⟩

theorem isValid_of_mem_stream {cursor : Cursor} {t : Token} (h : .ok t ∈ cursor.stream) :
    t.lexeme.isValid = true := by
  induction hn : cursor.rest.length using Nat.strongRecOn generalizing cursor with
  | ind n ih =>
    cases hrest : (layout false cursor.rest).2 with
    | nil =>
      rw [stream_of_layout_eq_nil hrest] at h
      exact absurd h (by simp)
    | cons c text =>
      have hlt : (piece c text).2.length < n := hn ▸ length_piece_lt_of_layout hrest
      rcases hp : piece c text with ⟨problem | l, rest⟩
      · obtain ⟨_, next, hstream⟩ := stream_of_piece_error hrest hp
        rw [hp] at hlt
        rw [hstream, List.mem_cons] at h
        rcases h with h | h
        · exact absurd h (by simp)
        · exact ih rest.length hlt h rfl
      · obtain ⟨position, next, hstream⟩ := stream_of_piece_ok hrest hp
        rw [hp] at hlt
        rw [hstream, List.mem_cons] at h
        rcases h with h | h
        · obtain rfl : t = ⟨l, position⟩ := by simpa using h
          exact isValid_of_piece hp
        · exact ih rest.length hlt h rfl

/-- What passing over faults does to the stream: they are in front, and behind them is the item. -/
theorem Cursor.passFaults_cases (cursor : Cursor) :
    (∃ position next, cursor.passFaults = (faultsOf cursor.stream, .done position, next) ∧
      tokensOf cursor.stream = []) ∨
    ∃ passed t next, cursor.passFaults = (passed, .token t, next) ∧
      tokensOf cursor.stream = t :: tokensOf next.stream ∧
      faultsOf cursor.stream = passed ++ faultsOf next.stream ∧
      next.rest.length < cursor.rest.length := by
  fun_induction Cursor.passFaults cursor with
  | case1 cursor item next hscan =>
    cases item with
    | done position =>
      rw [stream_of_scan_done hscan]
      exact .inl ⟨position, next, rfl, rfl⟩
    | token t =>
      have hlt := cursor.length_scan_lt (by simp [hscan])
      rw [hscan] at hlt
      rw [stream_of_scan_token hscan]
      exact .inr ⟨[], t, next, rfl, rfl, rfl, hlt⟩
  | case2 cursor f next hscan faults item last heq ih =>
    have hlt := cursor.length_scan_lt (by simp [hscan])
    rw [hscan] at hlt
    rw [stream_of_scan_error hscan]
    rw [heq] at ih
    rcases ih with ⟨position, next', hpass, htokens⟩ |
      ⟨passed, t, next', hpass, htokens, hfaults, hrest⟩
    · simp only [Prod.mk.injEq] at hpass
      obtain ⟨rfl, rfl, rfl⟩ := hpass
      exact .inl ⟨position, _, rfl, htokens⟩
    · simp only [Prod.mk.injEq] at hpass
      obtain ⟨rfl, rfl, rfl⟩ := hpass
      exact .inr ⟨f :: faults, t, _, rfl, htokens, congrArg (f :: ·) hfaults,
        Nat.lt_trans hrest hlt⟩

/-! ## What a lexer yields -/

/-- Asked for the next token again and again, the lexer yields these lexemes, then the end once, and
    nothing after that; and it has recorded these faults. -/
def Lexer.Yields (lexer : Lexer) (ls : List Lexeme) (recorded : List Fault) : Prop :=
  ∃ (tokens : List Token) (position : Position), tokens.map Token.lexeme = ls ∧ ∀ more : Nat,
    (lexer.serveAll (List.replicate (tokens.length + 1 + more) .next ++ [.faults])).1 =
      tokens.map (fun t => .next (some (.token t))) ++
        .next (some (.done position)) :: (List.replicate more (.next none) ++ [.faults recorded])

theorem Lexer.serveAll_finished {lexer : Lexer} (h : lexer.finished = true) (n : Nat) :
    (lexer.serveAll (List.replicate n .next ++ [.faults])).1 =
      List.replicate n (.next none) ++ [.faults lexer.faults] := by
  have hnext : lexer.next = (none, [], lexer) := by simp [Lexer.next, h]
  induction n with
  | zero => rfl
  | succ n ih => simp only [List.replicate_succ, List.cons_append, serveAll, serve, hnext, ih]

/-- A lexer yields the tokens of the stream at its cursor and records its faults. -/
theorem Lexer.yields_stream (lexer : Lexer) (h : lexer.finished = false) :
    lexer.Yields ((tokensOf lexer.cursor.stream).map Token.lexeme)
      (lexer.faults ++ faultsOf lexer.cursor.stream) := by
  induction hn : lexer.cursor.rest.length using Nat.strongRecOn generalizing lexer with
  | ind n ih =>
    rcases lexer.cursor.passFaults_cases with
      ⟨position, next, hpass, htokens⟩ | ⟨passed, t, next, hpass, htokens, hfaults, hlt⟩
    · rw [htokens]
      refine ⟨[], position, rfl, fun more => ?_⟩
      have hnext : lexer.next = (some (.done position), faultsOf lexer.cursor.stream,
          { lexer with cursor := next, faults := lexer.faults ++ faultsOf lexer.cursor.stream,
                       finished := true }) := by
        simp [Lexer.next, h, hpass]
      rw [List.length_nil, Nat.zero_add, Nat.add_comm, List.replicate_succ, List.cons_append]
      simp only [serveAll, serve, hnext]
      rw [serveAll_finished rfl]
      rfl
    · rw [htokens, hfaults]
      let behind : Lexer := { lexer with cursor := next, faults := lexer.faults ++ passed }
      have hnext : lexer.next = (some (.token t), passed, behind) := by
        simp [Lexer.next, h, hpass, behind]
      obtain ⟨tokens, position, hlexemes, hserve⟩ := ih next.rest.length (hn ▸ hlt) behind h rfl
      refine ⟨t :: tokens, position, congrArg (t.lexeme :: ·) hlexemes, fun more => ?_⟩
      have hlength : (t :: tokens).length + 1 + more = tokens.length + 1 + more + 1 := by
        rw [List.length_cons]
        omega
      rw [hlength, List.replicate_succ, List.cons_append]
      simp only [serveAll, serve, hnext, hserve more, behind, List.append_assoc]
      rfl

/-! ## Layout -/

/-- Layout behind a lexeme: blanks and comments that are closed by a newline, with a blank in front
    of the first comment. The other comments stand behind a blank in any case, the newline of the
    comment before. -/
structure IsGap (gap : List Char) : Prop where
  layout : IsLayout false gap
  startsBlank : StartsBlank gap

/-- A comment is passed over up to its newline. -/
theorem layout_comment {body : List Char} (hbody : '\n' ∉ body) (text : List Char) :
    (layout true (body ++ '\n' :: text)).2 = (layout false text).2 := by
  induction body with
  | nil => rfl
  | cons c body ih =>
    rw [List.mem_cons, not_or] at hbody
    have hc : (c != '\n') = true := by
      rw [bne_iff_ne]
      exact Ne.symm hbody.1
    rw [List.cons_append, layout, hc]
    exact ih hbody.2

/-- Layout is passed over, whatever is behind it. -/
theorem layout_of_isLayout {gap : List Char} (h : IsLayout false gap) (text : List Char) :
    (layout false (gap ++ text)).2 = (layout false text).2 := by
  induction h with
  | nil => rfl
  | blank hc _ ih => rw [List.cons_append, layout_blank hc, ih]
  | @comment body more hbody _ ih =>
    rw [List.append_assoc, List.cons_append, List.cons_append, List.cons_append, layout]
    show (layout true (body ++ '\n' :: (more ++ text))).2 = _
    rw [layout_comment hbody, ih]
  | lastComment hend _ => exact absurd hend (by simp)

/-- Lexemes, each with the layout behind it, and layout in front of the first. -/
def laidOut (lead : List Char) (words : List (Lexeme × List Char)) : List Char :=
  lead ++ words.flatMap fun w => w.1.text.toList ++ w.2

theorem laidOut_cons (lead gap : List Char) (l : Lexeme) (words : List (Lexeme × List Char)) :
    laidOut lead ((l, gap) :: words) = lead ++ (l.text.toList ++ laidOut gap words) := by
  simp [laidOut]

/-- What is laid out is scanned lexeme by lexeme and without faults. -/
theorem exists_stream_laidOut {lead : List Char} {words : List (Lexeme × List Char)}
    (hlead : IsLayout false lead) (hwords : ∀ w ∈ words, w.1.isValid = true ∧ IsGap w.2)
    (hgaps : ∀ w ∈ words.dropLast, w.2 ≠ []) (cursor : Cursor)
    (hcursor : cursor.rest = laidOut lead words) :
    ∃ tokens : List Token, cursor.stream = tokens.map .ok ∧
      tokens.map Token.lexeme = words.map Prod.fst := by
  induction words generalizing lead cursor with
  | nil =>
    refine ⟨[], stream_of_layout_eq_nil ?_, rfl⟩
    rw [hcursor]
    exact layout_of_isLayout hlead []
  | cons w words ih =>
    obtain ⟨l, gap⟩ := w
    obtain ⟨⟨hl, hgap⟩, hmore⟩ := List.forall_mem_cons.1 hwords
    -- what is behind the lexeme starts with a blank, or there is nothing
    have hblank : StartsBlank (laidOut gap words) := by
      cases words with
      | nil =>
        rw [laidOut, List.flatMap_nil, List.append_nil]
        exact hgap.startsBlank
      | cons _ _ => exact hgap.startsBlank.append (hgaps (l, gap) (by simp)) _
    obtain ⟨c, text, htext, hlayout, hpiece⟩ := readBefore_of_isValid hl hblank
    have hrest : (layout false cursor.rest).2 = c :: text := by
      rw [hcursor, laidOut_cons, layout_of_isLayout hlead, htext, hlayout]
    obtain ⟨position, next, hstream⟩ := stream_of_piece_ok hrest hpiece
    have hgaps' : ∀ w ∈ words.dropLast, w.2 ≠ [] := by
      intro w hw
      cases words with
      | nil => exact absurd hw (by simp)
      | cons _ _ => exact hgaps w (List.mem_cons_of_mem _ hw)
    obtain ⟨tokens, htokens, hlexemes⟩ :=
      ih hgap.layout hmore hgaps' ⟨laidOut gap words, next⟩ rfl
    refine ⟨⟨l, position⟩ :: tokens, ?_, ?_⟩
    · rw [hstream, htokens, List.map_cons]
    · rw [List.map_cons, List.map_cons, hlexemes]

theorem yields_laidOut {lead : List Char} {words : List (Lexeme × List Char)}
    (hlead : IsLayout false lead) (hwords : ∀ w ∈ words, w.1.isValid = true ∧ IsGap w.2)
    (hgaps : ∀ w ∈ words.dropLast, w.2 ≠ []) :
    (Lexer.ofText (laidOut lead words)).Yields (words.map Prod.fst) [] := by
  obtain ⟨tokens, hstream, hlexemes⟩ :=
    exists_stream_laidOut hlead hwords hgaps (Lexer.ofText (laidOut lead words)).cursor rfl
  have hyields := (Lexer.ofText (laidOut lead words)).yields_stream rfl
  have hfaults : faultsOf (tokens.map .ok) = [] := by simp [faultsOf]
  rw [hstream, tokensOf_map_ok, hfaults, hlexemes] at hyields
  exact hyields

/-! ## Single spaces -/

/-- Lexemes with one space between any two of them. -/
def spaced : List Lexeme → List (Lexeme × List Char)
  | [] => []
  | [l] => [(l, [])]
  | l :: m :: ls => (l, [' ']) :: spaced (m :: ls)

theorem laidOut_spaced (ls : List Lexeme) :
    laidOut [] (spaced ls) = (String.intercalate " " (ls.map Lexeme.text)).toList := by
  fun_induction spaced ls with
  | case1 => rfl
  | case2 l => simp [laidOut]
  | case3 l m ls ih =>
    rw [laidOut_cons, List.nil_append, List.map_cons, List.map_cons, String.intercalate_cons_cons,
      String.toList_append, String.toList_append, ← List.map_cons, ← ih, List.append_assoc]
    rfl

theorem map_fst_spaced (ls : List Lexeme) : (spaced ls).map Prod.fst = ls := by
  fun_induction spaced ls with
  | case1 => rfl
  | case2 l => rfl
  | case3 l m ls ih => rw [List.map_cons, ih]

theorem isGap_nil : IsGap [] := ⟨.nil, startsBlank_nil⟩

theorem isGap_space : IsGap [' '] where
  layout := .blank rfl .nil
  startsBlank c hc := by
    obtain rfl : ' ' = c := by simpa using hc
    rfl

theorem isGap_of_mem_spaced {ls : List Lexeme} {w : Lexeme × List Char} (hw : w ∈ spaced ls) :
    IsGap w.2 := by
  fun_induction spaced ls with
  | case1 => exact absurd hw (by simp)
  | case2 l =>
    obtain rfl := List.mem_singleton.1 hw
    exact isGap_nil
  | case3 l m ls ih =>
    rcases List.mem_cons.1 hw with rfl | hw
    · exact isGap_space
    · exact ih hw

theorem gap_ne_nil_of_mem_spaced {ls : List Lexeme} {w : Lexeme × List Char}
    (hw : w ∈ (spaced ls).dropLast) : w.2 ≠ [] := by
  fun_induction spaced ls with
  | case1 => exact absurd hw (by simp)
  | case2 l => exact absurd hw (by simp)
  | case3 l m ls ih =>
    have hne : spaced (m :: ls) ≠ [] := by cases ls <;> simp [spaced]
    rw [List.dropLast_cons_of_ne_nil hne] at hw
    rcases List.mem_cons.1 hw with rfl | hw
    · simp
    · exact ih hw

/-- **Lexing undoes rendering under any layout.** A lexer yields exactly the lexemes that a text was
    laid out from, then the end once, and records no fault. And whatever text a lexer reads, the
    lexemes that it yields, written with single spaces between them, are what it yields again, now
    without faults. -/
theorem lexing_laidOut :
    (∀ (lead : List Char) (words : List (Lexeme × List Char)), IsLayout false lead →
      (∀ w ∈ words, w.1.isValid = true ∧ IsGap w.2) → (∀ w ∈ words.dropLast, w.2 ≠ []) →
      (Lexer.ofText (laidOut lead words)).Yields (words.map Prod.fst) []) ∧
    ∀ source : String, ∃ ls faults, (Lexer.ofText source.toList).Yields ls faults ∧
      (Lexer.ofText (String.intercalate " " (ls.map Lexeme.text)).toList).Yields ls [] := by
  refine ⟨fun lead words => yields_laidOut, fun source => ?_⟩
  refine ⟨_, _, (Lexer.ofText source.toList).yields_stream rfl, ?_⟩
  have hvalid : ∀ l ∈ (tokensOf (Lexer.ofText source.toList).cursor.stream).map Token.lexeme,
      l.isValid = true := by
    intro l hl
    obtain ⟨t, ht, rfl⟩ := List.mem_map.1 hl
    exact isValid_of_mem_stream (mem_tokensOf.1 ht)
  generalize (tokensOf (Lexer.ofText source.toList).cursor.stream).map Token.lexeme = ls at hvalid ⊢
  have hwords : ∀ w ∈ spaced ls, w.1.isValid = true ∧ IsGap w.2 := by
    intro w hw
    have hmem : w.1 ∈ ls := by
      rw [← map_fst_spaced ls]
      exact List.mem_map_of_mem hw
    exact ⟨hvalid _ hmem, isGap_of_mem_spaced hw⟩
  have hyields := yields_laidOut .nil hwords fun w => gap_ne_nil_of_mem_spaced
  rw [map_fst_spaced, laidOut_spaced] at hyields
  exact hyields

/-- A comment, blanks and another comment between two slashes, and a quoted text with a comment
    sign in it. -/
theorem lexing_laidOut_slashes :
    (Lexer.ofText "// a\n/ \t//b\n/=\r'//'".toList).Yields
      [.symbol .slash, .symbol .slashAssign, .quoted .single "//"] [] := by
  have hlead : IsLayout false ('/' :: '/' :: [' ', 'a'] ++ '\n' :: []) := .comment (by decide) .nil
  have hcomment : IsLayout false ('/' :: '/' :: ['b'] ++ '\n' :: []) := .comment (by decide) .nil
  have hblank {gap : List Char} {c : Char} (hc : Text.isBlank c = true) (h : IsLayout false gap) :
      IsGap (c :: gap) := by
    refine ⟨.blank hc h, fun d hd => ?_⟩
    obtain rfl : c = d := by simpa using hd
    exact hc
  have hwords : ∀ w ∈ [(Lexeme.symbol .slash, [' ', '\t', '/', '/', 'b', '\n']),
      (.symbol .slashAssign, ['\r']), (.quoted .single "//", [])],
      w.1.isValid = true ∧ IsGap w.2 := by
    simp only [List.forall_mem_cons, List.not_mem_nil, false_implies, implies_true, and_true]
    exact ⟨⟨rfl, hblank rfl (.blank rfl hcomment)⟩, ⟨rfl, hblank rfl .nil⟩, ⟨by decide, isGap_nil⟩⟩
  exact lexing_laidOut.1 _ _ hlead hwords (by decide)

end Scriptlet
