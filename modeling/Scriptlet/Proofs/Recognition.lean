import Scriptlet.Program

set_option autoImplicit false

/-! # What parsers recognize

Two judgements relate a parser to a phrase, a relation between lexeme lists and trees. Places in the
text play no role for them: both look at tokens through their lexemes only.

* `Parser.Sound p P`: whenever `p` succeeds, the lexemes that it took are a phrase of `P` for the
  tree that it yields.
* `Parser.Reads p ls a fs`: on lexemes `ls`, `p` succeeds with the tree `a` and leaves `fs`.

A third one, `Parser.Refuses p ls reason`, is about failure: on lexemes `ls`, `p` stops for the
given reason. `Parser.Complete` puts the second in the form that grammars need: `p` reads every
phrase of `P`, whatever follows it, as long as the next lexeme does not extend the phrase.

All of them go through a sequence from left to right, so the proof about a parser follows its text.
Repetition needs no measure: soundness holds for any number of rounds, and `Parser.ReadsMany` asks
for as many rounds as there are lexemes. -/

namespace Scriptlet

/-- A kind of phrase: which lexeme lists stand for which trees. -/
abbrev Phrase (α : Type) := List Lexeme → α → Prop

namespace Parser

variable {α β σ : Type}

/-! ## Soundness -/

/-- What `p` takes is a phrase for what it yields. -/
def Sound (p : Parser α) (P : Phrase α) : Prop :=
  ∀ ⦃tokens a rest⦄, p tokens = .ok (a, rest) →
    ∃ ls, tokens.map Token.lexeme = ls ++ rest.map Token.lexeme ∧ P ls a

theorem bind_of_error {p : Parser α} {tokens : List Token} {stop : Stop}
    (h : p tokens = .error stop) (f : α → Parser β) : (p >>= f) tokens = .error stop := by
  simp only [bind, h]

theorem bind_of_ok {p : Parser α} {tokens mid : List Token} {a : α} (h : p tokens = .ok (a, mid))
    (f : α → Parser β) : (p >>= f) tokens = f a mid := by
  simp only [bind, h]

theorem bind_eq_ok_iff {p : Parser α} {f : α → Parser β} {tokens rest : List Token} {b : β} :
    (p >>= f) tokens = .ok (b, rest) ↔
      ∃ a mid, p tokens = .ok (a, mid) ∧ f a mid = .ok (b, rest) := by
  cases hp : p tokens with
  | error stop => simp [bind_of_error hp]
  | ok result =>
    obtain ⟨a, mid⟩ := result
    rw [bind_of_ok hp]
    constructor
    · intro h
      exact ⟨a, mid, rfl, h⟩
    · rintro ⟨a', mid', heq, h⟩
      simp only [Except.ok.injEq, Prod.mk.injEq] at heq
      rw [heq.1, heq.2]
      exact h

namespace Sound

variable {P : Phrase α} {Q : Phrase β}

theorem mono {R : Phrase α} {p : Parser α} (hp : Sound p P) (h : ∀ ls a, P ls a → R ls a) :
    Sound p R := by
  intro tokens a rest hr
  obtain ⟨ls, hls, hP⟩ := hp hr
  exact ⟨ls, hls, h ls a hP⟩

theorem pure {a : α} (h : P [] a) : Sound (Pure.pure a : Parser α) P := by
  intro tokens b rest hr
  simp only [Pure.pure, Except.ok.injEq, Prod.mk.injEq] at hr
  obtain ⟨rfl, rfl⟩ := hr
  exact ⟨[], rfl, h⟩

/-- Behind a phrase of `P`, the rest of the sequence has to complete it to one of `Q`. -/
theorem bind {p : Parser α} {f : α → Parser β} (hp : Sound p P)
    (hf : ∀ ms a, P ms a → Sound (f a) fun ns b => Q (ms ++ ns) b) : Sound (p >>= f) Q := by
  intro tokens b rest hr
  obtain ⟨a, mid, ha, hb⟩ := bind_eq_ok_iff.1 hr
  obtain ⟨ms, hms, hP⟩ := hp ha
  obtain ⟨ns, hns, hQ⟩ := hf ms a hP hb
  exact ⟨ms ++ ns, by rw [hms, hns, List.append_assoc], hQ⟩

theorem fail (reason : Reason) : Sound (Parser.fail reason : Parser α) P := by
  intro tokens a rest hr
  exact absurd hr (by simp [Parser.fail])

/-- A parser that decides by the first token takes it, and then what the chosen one takes. -/
theorem of_cons {p : Parser α} {l : Lexeme} {tokens rest : List Token} {a : α} {position : Position}
    (hp : Sound p fun ls b => P (l :: ls) b) (hr : p tokens = .ok (a, rest)) :
    ∃ ls, ((⟨l, position⟩ : Token) :: tokens).map Token.lexeme = ls ++ rest.map Token.lexeme ∧
      P ls a := by
  obtain ⟨ls, hls, hP⟩ := hp hr
  exact ⟨l :: ls, by rw [List.map_cons, hls]; rfl, hP⟩

theorem symbol (s : Symbol) (place : Place) :
    Sound (Parser.symbol s place) fun ls _ => ls = [.symbol s] := by
  intro tokens a rest hr
  unfold Parser.symbol at hr
  split at hr
  · split at hr
    · next found _ _ heq =>
      subst heq
      simp only [Except.ok.injEq, Prod.mk.injEq, true_and] at hr
      subst hr
      exact ⟨[.symbol found], rfl, rfl⟩
    · exact absurd hr (by simp)
  · exact absurd hr (by simp)

theorem keyword (k : Keyword) (place : Place) :
    Sound (Parser.keyword k place) fun ls _ => ls = [.keyword k] := by
  intro tokens a rest hr
  unfold Parser.keyword at hr
  split at hr
  · split at hr
    · next found _ _ heq =>
      subst heq
      simp only [Except.ok.injEq, Prod.mk.injEq, true_and] at hr
      subst hr
      exact ⟨[.keyword found], rfl, rfl⟩
    · exact absurd hr (by simp)
  · exact absurd hr (by simp)

theorem name (wanted : Wanted) (place : Place) :
    Sound (Parser.name wanted place) fun ls x => ls = [.name x] := by
  intro tokens x rest hr
  unfold Parser.name at hr
  split at hr
  · simp only [Except.ok.injEq, Prod.mk.injEq] at hr
    obtain ⟨rfl, rfl⟩ := hr
    exact ⟨[.name _], rfl, rfl⟩
  · exact absurd hr (by simp)

theorem atSymbol (s : Symbol) : Sound (Parser.atSymbol s) fun ls _ => ls = [] := by
  intro tokens a rest hr
  unfold Parser.atSymbol at hr
  split at hr <;> simp only [Except.ok.injEq, Prod.mk.injEq] at hr <;> obtain ⟨-, rfl⟩ := hr <;>
    exact ⟨[], rfl, rfl⟩

theorem trySymbol (s : Symbol) :
    Sound (Parser.trySymbol s) fun ls found => ls = if found then [.symbol s] else [] := by
  intro tokens a rest hr
  unfold Parser.trySymbol at hr
  split at hr
  · split at hr
    · next found _ _ heq =>
      subst heq
      simp only [Except.ok.injEq, Prod.mk.injEq] at hr
      obtain ⟨rfl, rfl⟩ := hr
      exact ⟨[.symbol found], rfl, rfl⟩
    · simp only [Except.ok.injEq, Prod.mk.injEq] at hr
      obtain ⟨rfl, rfl⟩ := hr
      exact ⟨[], rfl, rfl⟩
  · simp only [Except.ok.injEq, Prod.mk.injEq] at hr
    obtain ⟨rfl, rfl⟩ := hr
    exact ⟨[], rfl, rfl⟩

theorem tryKeyword (k : Keyword) :
    Sound (Parser.tryKeyword k) fun ls found => ls = if found then [.keyword k] else [] := by
  intro tokens a rest hr
  unfold Parser.tryKeyword at hr
  split at hr
  · split at hr
    · next found _ _ heq =>
      subst heq
      simp only [Except.ok.injEq, Prod.mk.injEq] at hr
      obtain ⟨rfl, rfl⟩ := hr
      exact ⟨[.keyword found], rfl, rfl⟩
    · simp only [Except.ok.injEq, Prod.mk.injEq] at hr
      obtain ⟨rfl, rfl⟩ := hr
      exact ⟨[], rfl, rfl⟩
  · simp only [Except.ok.injEq, Prod.mk.injEq] at hr
    obtain ⟨rfl, rfl⟩ := hr
    exact ⟨[], rfl, rfl⟩

/-- Any number of rounds takes a phrase of `R`, if `R` has the empty list of items and is closed
    under one more item in front. -/
theorem many {start? : List Token → Option (σ × List Token)} {item : σ → Parser α}
    {S : Phrase σ} {I : σ → Phrase α} {R : Phrase (List α)}
    (hs : ∀ tokens selected mid, start? tokens = some (selected, mid) →
      ∃ ls, tokens.map Token.lexeme = ls ++ mid.map Token.lexeme ∧ S ls selected)
    (hi : ∀ selected, Sound (item selected) (I selected)) (hnil : R [] [])
    (hcons : ∀ ls selected ms a ns as, S ls selected → I selected ms a → R ns as →
      R (ls ++ (ms ++ ns)) (a :: as)) :
    Sound (Parser.many start? item) R := by
  -- the bound on the rounds makes the repetition end; what it takes does not depend on it
  have hrounds : ∀ rounds, Sound (manyUpTo start? item rounds) R := by
    intro rounds
    induction rounds with
    | zero =>
      intro tokens as rest hr
      simp only [manyUpTo, Except.ok.injEq, Prod.mk.injEq] at hr
      obtain ⟨rfl, rfl⟩ := hr
      exact ⟨[], rfl, hnil⟩
    | succ rounds ih =>
      intro tokens as rest hr
      simp only [manyUpTo] at hr
      split at hr
      · simp only [Except.ok.injEq, Prod.mk.injEq] at hr
        obtain ⟨rfl, rfl⟩ := hr
        exact ⟨[], rfl, hnil⟩
      · next selected mid hstart =>
        split at hr
        · exact absurd hr (by simp)
        · next a next hitem =>
          split at hr
          · exact absurd hr (by simp)
          · next more last hmore =>
            simp only [Except.ok.injEq, Prod.mk.injEq] at hr
            obtain ⟨rfl, rfl⟩ := hr
            obtain ⟨ls, hls, hS⟩ := hs _ _ _ hstart
            obtain ⟨ms, hms, hI⟩ := hi selected hitem
            obtain ⟨ns, hns, hR⟩ := ih hmore
            refine ⟨ls ++ (ms ++ ns), ?_, hcons _ _ _ _ _ _ hS hI hR⟩
            rw [hls, hms, hns, List.append_assoc, List.append_assoc]
  intro tokens as rest hr
  exact hrounds tokens.length hr

end Sound

theorem behind_eq_some {s : Symbol} {tokens mid : List Token} {u : Unit}
    (h : behind s tokens = some (u, mid)) :
    ∃ ls, tokens.map Token.lexeme = ls ++ mid.map Token.lexeme ∧ ls = [.symbol s] := by
  unfold behind at h
  split at h
  · split at h
    · next found _ _ heq =>
      subst heq
      simp only [Option.some.injEq, Prod.mk.injEq, true_and] at h
      subst h
      exact ⟨[.symbol found], rfl, rfl⟩
    · exact absurd h (by simp)
  · exact absurd h (by simp)

/-! ## Completeness -/

/-- On the lexemes `ls`, the parser yields `a` and leaves `fs`. -/
def Reads (p : Parser α) (ls : List Lexeme) (a : α) (fs : List Lexeme) : Prop :=
  ∀ ⦃tokens⦄, tokens.map Token.lexeme = ls →
    ∃ rest, rest.map Token.lexeme = fs ∧ p tokens = .ok (a, rest)

/-- No further lexeme, or one that does not join what stands in front of it. -/
def Stops (joins : Lexeme → Bool) : List Lexeme → Prop
  | [] => True
  | l :: _ => joins l = false

/-- The parser reads every phrase of `P` in front of lexemes that do not join it. -/
def Complete (p : Parser α) (P : Phrase α) (joins : Lexeme → Bool) : Prop :=
  ∀ ⦃ls a fs⦄, P ls a → Stops joins fs → Reads p (ls ++ fs) a fs

@[simp]
theorem stops_nil (joins : Lexeme → Bool) : Stops joins [] := trivial

@[simp]
theorem stops_cons (joins : Lexeme → Bool) (l : Lexeme) (ls : List Lexeme) :
    Stops joins (l :: ls) ↔ joins l = false := Iff.rfl

theorem stops_or {p q : Lexeme → Bool} {fs : List Lexeme} :
    Stops (fun l => p l || q l) fs ↔ Stops p fs ∧ Stops q fs := by
  cases fs with
  | nil => simp
  | cons l fs => simp

theorem Stops.mono {joins fewer : Lexeme → Bool} {fs : List Lexeme} (h : Stops joins fs)
    (hle : ∀ l, fewer l = true → joins l = true) : Stops fewer fs := by
  cases fs with
  | nil => trivial
  | cons l fs =>
    rw [stops_cons] at h ⊢
    cases hl : fewer l with
    | false => rfl
    | true => exact absurd (hle l hl) (by simp [h])

/-- Tokens whose first lexeme is known. -/
theorem exists_of_map_eq_cons {tokens : List Token} {l : Lexeme} {ls : List Lexeme}
    (h : tokens.map Token.lexeme = l :: ls) :
    ∃ position rest, tokens = ⟨l, position⟩ :: rest ∧ rest.map Token.lexeme = ls := by
  obtain ⟨⟨lexeme, position⟩, rest, rfl, rfl, hls⟩ := List.map_eq_cons_iff.1 h
  exact ⟨position, rest, rfl, hls⟩

namespace Reads

variable {p : Parser α} {ls ms fs : List Lexeme} {a : α}

theorem pure (a : α) (fs : List Lexeme) : Reads (Pure.pure a : Parser α) fs a fs :=
  fun tokens h => ⟨tokens, h, rfl⟩

theorem bind {f : α → Parser β} {b : β} (hp : Reads p ls a ms) (hf : Reads (f a) ms b fs) :
    Reads (p >>= f) ls b fs := by
  intro tokens h
  obtain ⟨mid, hmid, ha⟩ := hp h
  obtain ⟨rest, hrest, hb⟩ := hf hmid
  exact ⟨rest, hrest, bind_eq_ok_iff.2 ⟨a, mid, ha, hb⟩⟩

/-- A parser that decides by the first token reads what the chosen one reads behind it. -/
theorem of_cons {q : Parser α} {l : Lexeme}
    (h : ∀ position rest, q (⟨l, position⟩ :: rest) = p rest) (hp : Reads p ls a fs) :
    Reads q (l :: ls) a fs := by
  intro tokens htokens
  obtain ⟨position, rest, rfl, hls⟩ := exists_of_map_eq_cons htokens
  obtain ⟨last, hlast, ha⟩ := hp hls
  exact ⟨last, hlast, by rw [h, ha]⟩

/-- Parsers that agree on the tokens with the given lexemes read the same. -/
theorem congr {q : Parser α} (h : ∀ tokens, tokens.map Token.lexeme = ls → q tokens = p tokens)
    (hp : Reads p ls a fs) : Reads q ls a fs := by
  intro tokens htokens
  rw [h tokens htokens]
  exact hp htokens

theorem symbol (s : Symbol) (place : Place) (fs : List Lexeme) :
    Reads (Parser.symbol s place) (.symbol s :: fs) () fs :=
  of_cons (fun _ _ => by simp only [Parser.symbol, if_true]; rfl) (pure () fs)

theorem keyword (k : Keyword) (place : Place) (fs : List Lexeme) :
    Reads (Parser.keyword k place) (.keyword k :: fs) () fs :=
  of_cons (fun _ _ => by simp only [Parser.keyword, if_true]; rfl) (pure () fs)

theorem name (wanted : Wanted) (place : Place) (x : String) (fs : List Lexeme) :
    Reads (Parser.name wanted place) (.name x :: fs) x fs :=
  of_cons (fun _ _ => rfl) (pure x fs)

theorem trySymbol_self (s : Symbol) (fs : List Lexeme) :
    Reads (Parser.trySymbol s) (.symbol s :: fs) true fs :=
  of_cons (fun _ _ => by simp only [Parser.trySymbol, if_true]; rfl) (pure true fs)

theorem trySymbol_of_stops {s : Symbol} {fs : List Lexeme} (h : Stops (· = .symbol s) fs) :
    Reads (Parser.trySymbol s) fs false fs := by
  intro tokens htokens
  refine ⟨tokens, htokens, ?_⟩
  unfold Parser.trySymbol
  split
  · subst htokens
    simp only [List.map_cons, stops_cons, Lexeme.symbol.injEq, decide_eq_false_iff_not] at h
    rw [if_neg h]
  · rfl

theorem tryKeyword_self (k : Keyword) (fs : List Lexeme) :
    Reads (Parser.tryKeyword k) (.keyword k :: fs) true fs :=
  of_cons (fun _ _ => by simp only [Parser.tryKeyword, if_true]; rfl) (pure true fs)

theorem tryKeyword_of_stops {k : Keyword} {fs : List Lexeme} (h : Stops (· = .keyword k) fs) :
    Reads (Parser.tryKeyword k) fs false fs := by
  intro tokens htokens
  refine ⟨tokens, htokens, ?_⟩
  unfold Parser.tryKeyword
  split
  · subst htokens
    simp only [List.map_cons, stops_cons, Lexeme.keyword.injEq, decide_eq_false_iff_not] at h
    rw [if_neg h]
  · rfl

theorem atSymbol_self (s : Symbol) (fs : List Lexeme) :
    Reads (Parser.atSymbol s) (.symbol s :: fs) true (.symbol s :: fs) := by
  intro tokens htokens
  obtain ⟨position, rest, rfl, hls⟩ := exists_of_map_eq_cons htokens
  exact ⟨_, htokens, by simp [Parser.atSymbol]⟩

theorem atSymbol_of_stops {s : Symbol} {fs : List Lexeme} (h : Stops (· = .symbol s) fs) :
    Reads (Parser.atSymbol s) fs false fs := by
  intro tokens htokens
  refine ⟨tokens, htokens, ?_⟩
  unfold Parser.atSymbol
  split
  · subst htokens
    simp only [List.map_cons, stops_cons, Lexeme.symbol.injEq, decide_eq_false_iff_not] at h
    simp [h]
  · rfl

end Reads

/-! ## Repetition -/

/-- With enough rounds, a repetition on the lexemes `ls` yields `as` and leaves `fs`. -/
def ReadsMany (start? : List Token → Option (σ × List Token)) (item : σ → Parser α)
    (ls : List Lexeme) (as : List α) (fs : List Lexeme) : Prop :=
  ∀ rounds, ls.length ≤ rounds → Reads (manyUpTo start? item rounds) ls as fs

namespace ReadsMany

variable {start? : List Token → Option (σ × List Token)} {item : σ → Parser α}
  {ls ms ns fs : List Lexeme} {as : List α}

theorem many (h : ReadsMany start? item ls as fs) : Reads (Parser.many start? item) ls as fs := by
  intro tokens htokens
  exact h tokens.length (by simp [← htokens]) htokens

theorem nil (h : ∀ tokens, tokens.map Token.lexeme = fs → start? tokens = none) :
    ReadsMany start? item fs [] fs := by
  intro rounds _ tokens htokens
  refine ⟨tokens, htokens, ?_⟩
  cases rounds with
  | zero => rfl
  | succ rounds => simp [manyUpTo, h tokens htokens]

/-- One more item in front; it has to take at least one lexeme. -/
theorem cons {selected : σ} {a : α}
    (hs : ∀ tokens, tokens.map Token.lexeme = ls →
      ∃ mid, mid.map Token.lexeme = ms ∧ start? tokens = some (selected, mid))
    (hi : Reads (item selected) ms a ns) (hlt : ns.length < ls.length)
    (hm : ReadsMany start? item ns as fs) : ReadsMany start? item ls (a :: as) fs := by
  intro rounds hrounds tokens htokens
  obtain ⟨mid, hmid, hstart⟩ := hs tokens htokens
  obtain ⟨next, hnext, hitem⟩ := hi hmid
  cases rounds with
  | zero => omega
  | succ rounds =>
    obtain ⟨rest, hrest, hmore⟩ := hm rounds (by omega) hnext
    exact ⟨rest, hrest, by simp [manyUpTo, hstart, hitem, hmore]⟩

end ReadsMany

theorem behind_self {s : Symbol} {ms : List Lexeme} (tokens : List Token)
    (h : tokens.map Token.lexeme = .symbol s :: ms) :
    ∃ mid, mid.map Token.lexeme = ms ∧ behind s tokens = some ((), mid) := by
  obtain ⟨position, rest, rfl, hms⟩ := exists_of_map_eq_cons h
  exact ⟨rest, hms, by simp [behind]⟩

theorem behind_of_stops {s : Symbol} {fs : List Lexeme} (h : Stops (· = .symbol s) fs)
    (tokens : List Token) (htokens : tokens.map Token.lexeme = fs) : behind s tokens = none := by
  unfold behind
  split
  · subst htokens
    simp only [List.map_cons, stops_cons, Lexeme.symbol.injEq, decide_eq_false_iff_not] at h
    rw [if_neg h]
  · rfl

/-! ## Refusal -/

/-- On the lexemes `ls`, the parser stops for the given reason. -/
def Refuses (p : Parser α) (ls : List Lexeme) (reason : Reason) : Prop :=
  ∀ ⦃tokens⦄, tokens.map Token.lexeme = ls → ∃ rest, p tokens = .error ⟨reason, rest⟩

namespace Refuses

variable {p : Parser α} {ls ms : List Lexeme} {a : α} {reason : Reason}

theorem fail (reason : Reason) (ls : List Lexeme) :
    Refuses (Parser.fail reason : Parser α) ls reason :=
  fun tokens _ => ⟨tokens, rfl⟩

/-- A sequence stops where its first part stops. -/
theorem bind (hp : Refuses p ls reason) (f : α → Parser β) : Refuses (p >>= f) ls reason := by
  intro tokens htokens
  obtain ⟨rest, hrest⟩ := hp htokens
  exact ⟨rest, bind_of_error hrest f⟩

/-- A sequence stops where its second part stops, behind what the first one reads. -/
theorem after {f : α → Parser β} (hp : Reads p ls a ms) (hf : Refuses (f a) ms reason) :
    Refuses (p >>= f) ls reason := by
  intro tokens htokens
  obtain ⟨mid, hmid, ha⟩ := hp htokens
  obtain ⟨rest, hrest⟩ := hf hmid
  refine ⟨rest, ?_⟩
  rw [bind_of_ok ha]
  exact hrest

theorem of_cons {q : Parser α} {l : Lexeme}
    (h : ∀ position rest, q (⟨l, position⟩ :: rest) = p rest) (hp : Refuses p ls reason) :
    Refuses q (l :: ls) reason := by
  intro tokens htokens
  obtain ⟨position, rest, rfl, hls⟩ := exists_of_map_eq_cons htokens
  obtain ⟨last, hlast⟩ := hp hls
  exact ⟨last, by rw [h, hlast]⟩

end Refuses

/-- With enough rounds, a repetition on the lexemes `ls` stops for the given reason. -/
def RefusesMany (start? : List Token → Option (σ × List Token)) (item : σ → Parser α)
    (ls : List Lexeme) (reason : Reason) : Prop :=
  ∀ rounds, ls.length ≤ rounds → Refuses (manyUpTo start? item rounds) ls reason

namespace RefusesMany

variable {start? : List Token → Option (σ × List Token)} {item : σ → Parser α}
  {ls ms ns : List Lexeme} {selected : σ} {reason : Reason}

theorem many (h : RefusesMany start? item ls reason) :
    Refuses (Parser.many start? item) ls reason := by
  intro tokens htokens
  exact h tokens.length (by simp [← htokens]) htokens

theorem first (hlt : 0 < ls.length)
    (hs : ∀ tokens, tokens.map Token.lexeme = ls →
      ∃ mid, mid.map Token.lexeme = ms ∧ start? tokens = some (selected, mid))
    (hi : Refuses (item selected) ms reason) : RefusesMany start? item ls reason := by
  intro rounds hrounds tokens htokens
  obtain ⟨mid, hmid, hstart⟩ := hs tokens htokens
  obtain ⟨rest, hrest⟩ := hi hmid
  cases rounds with
  | zero => omega
  | succ rounds => exact ⟨rest, by simp [manyUpTo, hstart, hrest]⟩

theorem cons {a : α}
    (hs : ∀ tokens, tokens.map Token.lexeme = ls →
      ∃ mid, mid.map Token.lexeme = ms ∧ start? tokens = some (selected, mid))
    (hi : Reads (item selected) ms a ns) (hlt : ns.length < ls.length)
    (hm : RefusesMany start? item ns reason) : RefusesMany start? item ls reason := by
  intro rounds hrounds tokens htokens
  obtain ⟨mid, hmid, hstart⟩ := hs tokens htokens
  obtain ⟨next, hnext, hitem⟩ := hi hmid
  cases rounds with
  | zero => omega
  | succ rounds =>
    obtain ⟨rest, hrest⟩ := hm rounds (by omega) hnext
    exact ⟨rest, by simp [manyUpTo, hstart, hitem, hrest]⟩

end RefusesMany

end Parser

end Scriptlet
