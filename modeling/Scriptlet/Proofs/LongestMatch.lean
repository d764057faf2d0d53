import Mathlib.Algebra.Group.Nat.Defs
import Scriptlet.Proofs.Relexing

set_option autoImplicit false

/-! # The longest match

Scanning decides by one character, sometimes two. The rule behind it does not speak of characters:
skip the longest run of blanks and comments, and of what is there take the longest front that is a
lexeme (`Front`). The text alone decides which lexeme it is. Digits are the one exception, since the
longest number is not always a part of the digits: a run of digits is taken as a whole, and is a
fault if its value does not fit.

Scanning follows this rule in every text (`scan_takes_longest`). Two things have to be seen: the
layout split off cannot be continued (`isLongest_layout`), and any lexeme in front of a text is no
longer than the one that is read there (`exists_piece_of_isValid`). -/

namespace Scriptlet

/-! ## Longest fronts -/

/-- Of the fronts of the text that satisfy `P`, this is the longest. -/
structure IsLongest (P : List Char → Prop) (text front : List Char) : Prop where
  starts : front <+: text
  holds : P front
  longest : ∀ other, other <+: text → P other → other.length ≤ front.length

theorem IsLongest.unique {P : List Char → Prop} {text front front' : List Char}
    (h : IsLongest P text front) (h' : IsLongest P text front') : front' = front := by
  have hle : front'.length ≤ front.length := h.longest front' h'.starts h'.holds
  have hge : front.length ≤ front'.length := h'.longest front h.starts h.holds
  exact (List.prefix_of_prefix_length_le h'.starts h.starts hle).eq_of_length (Nat.le_antisymm hle hge)

/-- The longest front of characters of a class. -/
theorem isLongest_takeWhile (p : Char → Bool) (text : List Char) :
    IsLongest (∀ c ∈ ·, p c = true) text (text.takeWhile p) where
  starts := List.takeWhile_prefix p
  holds c hc := List.all_eq_true.1 List.all_takeWhile c hc
  longest other hstarts hother := by
    obtain ⟨behind, rfl⟩ := hstarts
    rw [List.takeWhile_append_of_pos hother, List.length_append]
    exact Nat.le_add_right _ _

/-! ## Layout -/

/-- A comment goes to the end of a text that has no newline. -/
theorem layout_lastComment {body : List Char} (hbody : '\n' ∉ body) :
    (layout true body).2 = [] := by
  induction body with
  | nil => rfl
  | cons c body ih =>
    rw [List.mem_cons, not_or] at hbody
    have hc : (c != '\n') = true := by
      rw [bne_iff_ne]
      exact Ne.symm hbody.1
    rw [layout, hc]
    exact ih hbody.2

/-- A text that is layout up to its end is passed over as a whole. -/
theorem layout_of_isLayout_end {text : List Char} (h : IsLayout true text) :
    (layout false text).2 = [] := by
  induction h with
  | nil => rfl
  | blank hc _ ih => rw [layout_blank hc, ih]
  | @comment body more hbody _ ih =>
    rw [List.cons_append, List.cons_append, layout]
    show (layout true (body ++ '\n' :: more)).2 = _
    rw [layout_comment hbody, ih]
  | lastComment _ hbody =>
    rw [layout]
    exact layout_lastComment hbody

/-- A front of the text that is layout. Its last comment may be open only at the end of the text. -/
def IsLayoutOf (text front : List Char) : Prop :=
  IsLayout (decide (front = text)) front

/-- What `layout` splits off is the longest run of blanks and comments. -/
theorem isLongest_layout (text : List Char) :
    IsLongest (IsLayoutOf text) text (layout false text).1 where
  starts := ⟨_, layout_append false text⟩
  holds := by
    have hlayout := (isLayout_layout false text).1 rfl
    have happend := layout_append false text
    have hend : decide ((layout false text).1 = text) = (layout false text).2.isEmpty := by
      cases hrest : (layout false text).2 with
      | nil =>
        rw [hrest, List.append_nil] at happend
        exact decide_eq_true happend
      | cons c rest =>
        refine decide_eq_false fun h => ?_
        rw [h, hrest] at happend
        exact absurd (List.append_right_eq_self.1 happend) (by simp)
    unfold IsLayoutOf
    rwa [hend]
  longest other hstarts hother := by
    obtain ⟨behind, rfl⟩ := hstarts
    have happend := congrArg List.length (layout_append false (other ++ behind))
    rw [List.length_append, List.length_append] at happend
    unfold IsLayoutOf at hother
    by_cases hend : other = other ++ behind
    · rw [decide_eq_true hend] at hother
      rw [← hend, layout_of_isLayout_end hother, List.length_nil] at happend
      rw [← hend]
      omega
    · rw [decide_eq_false hend] at hother
      have hle := length_layout_le false behind
      rw [layout_of_isLayout hother] at happend
      omega

/-! ## Lexemes -/

/-- The text of a lexeme. -/
def IsLexeme (text : List Char) : Prop :=
  ∃ l : Lexeme, l.isValid = true ∧ l.text.toList = text

/-- The text decides which lexeme it is. -/
theorem Lexeme.eq_of_text {l l' : Lexeme} (hl : l.isValid = true) (hl' : l'.isValid = true)
    (h : l.text.toList = l'.text.toList) : l = l' := by
  obtain ⟨c, text, htext, -, hpiece⟩ := readBefore_of_isValid hl startsBlank_nil
  obtain ⟨c', text', htext', -, hpiece'⟩ := readBefore_of_isValid hl' startsBlank_nil
  rw [← h, htext, List.cons.injEq] at htext'
  rw [← htext'.1, ← htext'.2, hpiece, Prod.mk.injEq, Except.ok.injEq] at hpiece'
  exact hpiece'.1

/-- Every symbol is one of the tables. -/
theorem Symbol.ofChar?_or_ofPair? (s : Symbol) :
    (∃ c, s.text.toList = [c] ∧ ofChar? c = some s) ∨
      ∃ c d, s.text.toList = [c, d] ∧ ofPair? c d = some s := by
  cases s <;> first
    | exact .inl ⟨_, rfl, rfl⟩
    | exact .inr ⟨_, _, rfl, rfl⟩

/-- Where a text starts with a symbol, a symbol is read that is at least as long. -/
theorem Symbol.exists_read? (s : Symbol) (behind : List Char) :
    ∃ s' rest, read? (s.text.toList ++ behind) = some (s', rest) ∧
      s.text.toList.length ≤ s'.text.toList.length := by
  rcases s.ofChar?_or_ofPair? with ⟨c, htext, hone⟩ | ⟨c, d, htext, hpair⟩
  · rw [htext, List.singleton_append]
    have hpos (s' : Symbol) : [c].length ≤ s'.text.toList.length :=
      List.length_pos_iff.2 s'.text_ne_nil
    cases behind with
    | nil => exact ⟨s, [], by simp [read?, hone], hpos s⟩
    | cons d behind =>
      cases hpair : ofPair? c d with
      | none => exact ⟨s, d :: behind, by simp [read?, hone, hpair], hpos s⟩
      | some s' => exact ⟨s', behind, by simp [read?, hpair], hpos s'⟩
  · exact ⟨s, behind, by simp [htext, read?, hpair], Nat.le_refl _⟩

section Pieces

variable {c : Char} {text behind : List Char}

/-- Where a text starts with a word, a word is read that is at least as long. -/
theorem exists_piece_of_isIdentifier {x : String} (hx : isIdentifier x = true)
    (h : x.toList ++ behind = c :: text) :
    ∃ l rest, piece c text = (.ok l, rest) ∧ x.toList.length ≤ l.text.toList.length := by
  unfold isIdentifier at hx
  split at hx
  · exact absurd hx (by simp)
  · next first more hlist =>
    simp only [Bool.and_eq_true, List.all_eq_true] at hx
    obtain ⟨hfirst, hmore⟩ := hx
    rw [hlist, List.cons_append, List.cons.injEq] at h
    obtain ⟨rfl, rfl⟩ := h
    have hends : EndsWord ((more ++ behind).dropWhile Text.isWord) := by
      intro d hd
      have hhead := List.head?_dropWhile_not Text.isWord (more ++ behind)
      rw [Option.mem_def.1 hd] at hhead
      simpa using hhead
    have hword := piece_word hfirst
      (fun d hd => List.all_eq_true.1 (List.all_takeWhile (l := more ++ behind)) d hd) hends
    rw [List.takeWhile_append_dropWhile] at hword
    refine ⟨_, _, hword, ?_⟩
    rw [Lexeme.text_ofWord, String.toList_ofList, hlist, List.takeWhile_append_of_pos hmore]
    simp

/-- Where a text starts with a lexeme and not with a digit, a lexeme is read that is at least as
    long. -/
theorem exists_piece_of_isValid {l : Lexeme} (hl : l.isValid = true)
    (hc : Text.isDigit c = false) (h : l.text.toList ++ behind = c :: text) :
    ∃ l' rest, piece c text = (.ok l', rest) ∧ l.text.toList.length ≤ l'.text.toList.length := by
  cases l with
  | symbol s =>
    obtain ⟨s', rest, hread, hle⟩ := s.exists_read? behind
    have hread' : Symbol.read? (c :: text) = some (s', rest) := h ▸ hread
    exact ⟨.symbol s', rest, by simp only [piece, hread'], hle⟩
  | keyword k => exact exists_piece_of_isIdentifier (by cases k <;> rfl) h
  | name x =>
    simp only [Lexeme.isValid, isName, Bool.and_eq_true] at hl
    exact exists_piece_of_isIdentifier hl.1 h
  | number ds =>
    simp only [Lexeme.isValid, Bool.and_eq_true, List.all_eq_true] at hl
    obtain ⟨⟨hne, hdigits⟩, -⟩ := hl
    cases hlist : ds.toList with
    | nil => exact absurd hne (by simp [hlist])
    | cons d more =>
      rw [show (Lexeme.number ds).text.toList = d :: more from hlist, List.cons_append,
        List.cons.injEq] at h
      have hd : Text.isDigit c = true := h.1 ▸ hdigits d (by simp [hlist])
      exact absurd hd (by simp [hc])
  | quoted q s =>
    have hs : q.char ∉ s.toList := by simpa [Lexeme.isValid] using hl
    have htext : (Lexeme.quoted q s).text.toList ++ behind =
        q.char :: (s.toList ++ q.char :: behind) := by
      simp [Lexeme.text]
    rw [htext, List.cons.injEq] at h
    obtain ⟨rfl, rfl⟩ := h
    have hpiece := piece_quoted q hs behind
    rw [String.ofList_toList] at hpiece
    exact ⟨_, _, hpiece, Nat.le_refl _⟩

/-- What is read where no lexeme stands is a problem with one character. -/
theorem problem_of_piece {problem : Problem} {rest : List Char} (hc : Text.isDigit c = false)
    (h : piece c text = (.error problem, rest)) :
    rest = text ∧ problem = match Quote.ofChar? c with
      | some q => .unterminated q
      | none => .illegal c := by
  unfold piece at h
  split at h
  · exact absurd h (by simp)
  · cases hquote : Quote.ofChar? c with
    | some q =>
      simp only [hquote] at h
      split at h
      · simp only [Prod.mk.injEq, Except.error.injEq] at h
        exact ⟨h.2.symm, h.1.symm⟩
      · exact absurd h (by simp)
    | none =>
      simp only [hquote, hc, Bool.false_eq_true, if_false] at h
      split at h
      · exact absurd h (by simp)
      · simp only [Prod.mk.injEq, Except.error.injEq] at h
        exact ⟨h.2.symm, h.1.symm⟩

/-- A digit is read together with all digits behind it. -/
theorem piece_of_isDigit (hc : Text.isDigit c = true) (text : List Char) :
    piece c text =
      (if Decimal.value ((c :: text).takeWhile Text.isDigit) ≤ greatestNumber then
          .ok (.number (String.ofList ((c :: text).takeWhile Text.isDigit)))
        else .error (.tooLarge (String.ofList ((c :: text).takeWhile Text.isDigit))),
        (c :: text).dropWhile Text.isDigit) := by
  have hword : Text.isWord c = true := by simp [Text.isWord, hc]
  obtain ⟨hsymbol, hquote, -, -⟩ := piece_of_isWord hword text
  simp only [piece, hsymbol, hquote, hc, if_true, List.takeWhile_cons, List.dropWhile_cons]

end Pieces

/-! ## The rule -/

/-- The rule of the longest match: `found` is what stands at the front of the text, and `taken` is
    the part of the text that it takes up. -/
inductive Front (text : List Char) : (taken : List Char) → (found : Except Problem Lexeme) → Prop
  /-- Digits are a number together if their value fits. -/
  | number {c : Char} {digits : List Char} : text.head? = some c → Text.isDigit c = true →
      IsLongest (∀ d ∈ ·, Text.isDigit d = true) text digits →
      Decimal.value digits ≤ 2 ^ 63 - 1 → Front text digits (.ok (.number (String.ofList digits)))
  | tooLarge {c : Char} {digits : List Char} : text.head? = some c → Text.isDigit c = true →
      IsLongest (∀ d ∈ ·, Text.isDigit d = true) text digits →
      2 ^ 63 - 1 < Decimal.value digits →
      Front text digits (.error (.tooLarge (String.ofList digits)))
  /-- Anything else is the longest lexeme there is. -/
  | lexeme {c : Char} {l : Lexeme} : text.head? = some c → Text.isDigit c = false →
      l.isValid = true → IsLongest IsLexeme text l.text.toList → Front text l.text.toList (.ok l)
  /-- Where there is none, one character is left out. -/
  | unterminated {q : Quote} : text.head? = some q.char →
      (∀ front, front <+: text → ¬IsLexeme front) → Front text [q.char] (.error (.unterminated q))
  | illegal {c : Char} : text.head? = some c → Text.isDigit c = false → (∀ q : Quote, c ≠ q.char) →
      (∀ front, front <+: text → ¬IsLexeme front) → Front text [c] (.error (.illegal c))

section Front

variable {c : Char} {text : List Char}

theorem greatestNumber_eq : greatestNumber = 2 ^ 63 - 1 := rfl

/-- Whatever is read stands at the front of the text. -/
theorem front_piece (c : Char) (text : List Char) :
    Front (c :: text) (pieceText (piece c text).1) (piece c text).1 := by
  cases hc : Text.isDigit c with
  | true =>
    rw [piece_of_isDigit hc]
    have hlongest := isLongest_takeWhile Text.isDigit (c :: text)
    by_cases hvalue : Decimal.value ((c :: text).takeWhile Text.isDigit) ≤ greatestNumber
    · have hfront : Front (c :: text) _ _ := .number rfl hc hlongest hvalue
      simpa [hvalue, pieceText, Lexeme.text] using hfront
    · have hfront : Front (c :: text) _ _ := .tooLarge rfl hc hlongest (Nat.lt_of_not_le hvalue)
      simpa [hvalue, pieceText, Problem.text] using hfront
  | false =>
    have happend := piece_append c text
    rcases hpiece : piece c text with ⟨problem | l, rest⟩
    · obtain ⟨-, hproblem⟩ := problem_of_piece hc hpiece
      have hnone : ∀ front, front <+: c :: text → ¬IsLexeme front := by
        rintro front ⟨behind, h⟩ ⟨l, hl, rfl⟩
        obtain ⟨l', rest', hread, -⟩ := exists_piece_of_isValid hl hc h
        exact absurd (hpiece.symm.trans hread) (by simp)
      subst hproblem
      cases hquote : Quote.ofChar? c with
      | some q =>
        obtain rfl := Quote.ofChar?_eq_some.1 hquote
        simpa [pieceText, Problem.text] using Front.unterminated rfl hnone
      | none =>
        have hquotes : ∀ q : Quote, c ≠ q.char := by
          intro q hq
          exact absurd (hquote.symm.trans (Quote.ofChar?_eq_some.2 hq)) (by simp)
        simpa [pieceText, Problem.text] using Front.illegal rfl hc hquotes hnone
    · rw [hpiece] at happend
      refine Front.lexeme rfl hc (isValid_of_piece hpiece) ?_
      refine ⟨⟨rest, happend⟩, ⟨l, isValid_of_piece hpiece, rfl⟩, ?_⟩
      rintro other ⟨behind, h⟩ ⟨l', hl', rfl⟩
      obtain ⟨l'', rest', hread, hle⟩ := exists_piece_of_isValid hl' hc h
      rw [hpiece, Prod.mk.injEq, Except.ok.injEq] at hread
      rwa [← hread.1] at hle

/-- Nothing but what is read stands at the front of the text. -/
theorem Front.eq_piece {taken : List Char} {found : Except Problem Lexeme}
    (h : Front (c :: text) taken found) :
    found = (piece c text).1 ∧ taken = pieceText (piece c text).1 := by
  suffices hfound : found = (piece c text).1 by
    refine ⟨hfound, hfound ▸ ?_⟩
    cases h <;> simp [pieceText, Lexeme.text, Problem.text]
  have happend := piece_append c text
  cases h with
  | number hhead hc hlongest hvalue =>
    obtain rfl := Option.some.inj hhead
    obtain rfl := (isLongest_takeWhile _ _).unique hlongest
    rw [← greatestNumber_eq] at hvalue
    rw [piece_of_isDigit hc, if_pos hvalue]
  | tooLarge hhead hc hlongest hvalue =>
    obtain rfl := Option.some.inj hhead
    obtain rfl := (isLongest_takeWhile _ _).unique hlongest
    rw [← greatestNumber_eq] at hvalue
    rw [piece_of_isDigit hc, if_neg (Nat.not_le_of_lt hvalue)]
  | @lexeme c' l hhead hc hl hlongest =>
    obtain rfl := Option.some.inj hhead
    obtain ⟨behind, hstarts⟩ := hlongest.starts
    obtain ⟨l', rest, hpiece, hle⟩ := exists_piece_of_isValid hl hc hstarts
    have hl' : l'.isValid = true := isValid_of_piece hpiece
    rw [hpiece] at happend ⊢
    have hge := hlongest.longest l'.text.toList ⟨rest, happend⟩ ⟨l', hl', rfl⟩
    have htext : l.text.toList = l'.text.toList :=
      (List.append_inj (hstarts.trans happend.symm) (Nat.le_antisymm hle hge)).1
    rw [Lexeme.eq_of_text hl hl' htext]
  | @unterminated q hhead hnone =>
    obtain rfl := Option.some.inj hhead
    have hc : Text.isDigit q.char = false := by cases q <;> rfl
    rcases hpiece : piece q.char text with ⟨problem | l, rest⟩
    · have hquote : Quote.ofChar? q.char = some q := Quote.ofChar?_eq_some.2 rfl
      rw [(problem_of_piece hc hpiece).2, hquote]
    · rw [hpiece] at happend
      exact absurd ⟨l, isValid_of_piece hpiece, rfl⟩ (hnone l.text.toList ⟨rest, happend⟩)
  | @illegal c' hhead hc hquotes hnone =>
    obtain rfl := Option.some.inj hhead
    rcases hpiece : piece c text with ⟨problem | l, rest⟩
    · have hquote : Quote.ofChar? c = none := by
        rw [Option.eq_none_iff_forall_ne_some]
        intro q hq
        exact hquotes q (Quote.ofChar?_eq_some.1 hq)
      rw [(problem_of_piece hc hpiece).2, hquote]
    · rw [hpiece] at happend
      exact absurd ⟨l, isValid_of_piece hpiece, rfl⟩ (hnone l.text.toList ⟨rest, happend⟩)

end Front

/-- **Scanning takes the longest match.** At every place of every text, a scan skips the longest run
    of blanks and comments. If this is the whole text, it yields the end. Otherwise there is exactly
    one thing at the front of what remains by the rule of the longest match, and the scan yields
    this, with the place where it stands, and goes on behind the characters that it takes up. No
    other lexeme has the text of the one that is taken, and the word of a number is the value of its
    digits. -/
theorem scan_takes_longest (cursor : Cursor) :
    ∃ skipped rest, cursor.rest = skipped ++ rest ∧
      IsLongest (IsLayoutOf cursor.rest) cursor.rest skipped ∧
      (rest = [] → cursor.scan =
        (.ok (.done (cursor.position.after skipped)), ⟨[], cursor.position.after skipped⟩)) ∧
      (rest ≠ [] → ∃ taken found behind, rest = taken ++ behind ∧
        (∀ t f, Front rest t f ↔ t = taken ∧ f = found) ∧
        cursor.scan =
          (match found with
            | .ok lexeme => .ok (.token ⟨lexeme, cursor.position.after skipped⟩)
            | .error problem => .error ⟨problem, cursor.position.after skipped⟩,
          ⟨behind, cursor.position.after (skipped ++ taken)⟩) ∧
        (∀ lexeme, found = .ok lexeme → lexeme.text.toList = taken ∧
          ∀ l : Lexeme, l.isValid = true → l.text.toList = taken → l = lexeme) ∧
        ∀ digits, found = .ok (.number digits) →
          (Int64.ofNat (Decimal.value digits.toList)).toInt = Decimal.value digits.toList) := by
  refine ⟨(layout false cursor.rest).1, (layout false cursor.rest).2,
    (layout_append false cursor.rest).symm, isLongest_layout cursor.rest, ?_, ?_⟩
  · intro hrest
    simp only [Cursor.scan, hrest]
  · intro hrest
    obtain ⟨c, text, hrest⟩ := List.exists_cons_of_ne_nil hrest
    refine ⟨pieceText (piece c text).1, (piece c text).1, (piece c text).2, ?_, ?_, ?_, ?_, ?_⟩
    · rw [piece_append, hrest]
    · intro t f
      rw [hrest]
      constructor
      · intro hfront
        exact ⟨hfront.eq_piece.2, hfront.eq_piece.1⟩
      · rintro ⟨rfl, rfl⟩
        exact front_piece c text
    · simp only [Cursor.scan, hrest, Position.after_append]
      rcases piece c text with ⟨problem | lexeme, rest⟩ <;> rfl
    · intro lexeme hfound
      have hpiece : piece c text = (.ok lexeme, (piece c text).2) := Prod.ext hfound rfl
      rw [hfound]
      refine ⟨rfl, fun l hl htext => ?_⟩
      exact Lexeme.eq_of_text hl (isValid_of_piece hpiece) htext
    · intro digits hfound
      have hpiece : piece c text = (.ok (.number digits), (piece c text).2) := Prod.ext hfound rfl
      have hvalid := isValid_of_piece hpiece
      simp only [Lexeme.isValid, Bool.and_eq_true, decide_eq_true_eq] at hvalid
      exact Int64.toInt_ofNat_of_lt (Nat.lt_succ_of_le hvalid.2)

/-- A name goes on behind a reserved word that it starts with. -/
example : (Cursor.ofText "  endif2/=3".toList).scan =
    (.ok (.token ⟨.name "endif2", ⟨1, 3⟩⟩), ⟨"/=3".toList, ⟨1, 9⟩⟩) := by
  rfl

end Scriptlet
