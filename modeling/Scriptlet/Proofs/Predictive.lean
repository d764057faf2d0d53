import Scriptlet.Proofs.Relexing

set_option autoImplicit false

/-! # Predictive parsers

A parser that looks one token ahead stops no later than it must and no earlier.
`Predicts n m p p' P` says this of `p`, and says how little it depends on: on at most `n` tokens,
unless its nesting is too deep,

* what `p` takes before it succeeds is a phrase of `P`;
* what `p` takes before it stops is the beginning of a phrase of `P`, and the lexemes that complete
  it are valid ones (`Begins`);
* either way `p'` ends in the same way on other tokens, at most `m` of them, as long as the lexemes
  that were taken and the one behind them are the same.

Here `p'` is `p` itself or `p` with more levels of nesting. The judgement goes through a sequence
from left to right, as soundness does, and needs no completion of a partial phrase to be written
down: every part of a sequence has some phrase of valid lexemes, and together they complete it
(`Begins.bind`). The numbers `n` and `m` only count rounds: a repetition has as many as there are
tokens (`Predicts.byLength`). -/

namespace Scriptlet.Parser

variable {α β σ : Type}

/-! ## One token ahead -/

/-- The lexeme of the first token. -/
def lookahead (tokens : List Token) : Option Lexeme := tokens.head?.map Token.lexeme

theorem lookahead_eq_none {tokens : List Token} (h : lookahead tokens = none) : tokens = [] := by
  simpa [lookahead] using h

theorem lookahead_eq_some {tokens : List Token} {l : Lexeme} (h : lookahead tokens = some l) :
    ∃ position rest, tokens = ⟨l, position⟩ :: rest := by
  cases tokens with
  | nil => exact absurd h (by simp [lookahead])
  | cons token rest =>
    obtain rfl : token.lexeme = l := by simpa [lookahead] using h
    exact ⟨token.position, rest, rfl⟩

theorem lookahead_append {front back taken rest : List Token}
    (hfront : front.map Token.lexeme = taken.map Token.lexeme)
    (hback : lookahead back = lookahead rest) :
    lookahead (front ++ back) = lookahead (taken ++ rest) := by
  cases taken with
  | nil =>
    obtain rfl := List.map_eq_nil_iff.1 hfront
    exact hback
  | cons token taken =>
    obtain ⟨position, front, rfl, -⟩ := exists_of_map_eq_cons hfront
    rfl

/-- The parser ends in the given way on all tokens, at most `m` of them, that agree with
    `taken ++ rest` in the lexemes of `taken` and the one behind. -/
def Repeats (m : Nat) (p : Parser α) (taken rest : List Token)
    (ending : List Token → Except Stop (α × List Token)) : Prop :=
  ∀ ⦃front back⦄, front.map Token.lexeme = taken.map Token.lexeme →
    lookahead back = lookahead rest → front.length + back.length ≤ m →
    p (front ++ back) = ending back

namespace Repeats

variable {m : Nat} {p : Parser α} {taken more rest : List Token}
  {ending : List Token → Except Stop (α × List Token)}

theorem mono {k : Nat} (h : Repeats m p taken rest ending) (hle : k ≤ m) :
    Repeats k p taken rest ending :=
  fun _ _ hfront hback hlen => h hfront hback (Nat.le_trans hlen hle)

theorem nil (h : ∀ back, lookahead back = lookahead rest → p back = ending back) :
    Repeats m p [] rest ending := by
  intro front back hfront hback _
  obtain rfl := List.map_eq_nil_iff.1 hfront
  exact h back hback

theorem cons {q : Parser α} {l : Lexeme} {position : Position}
    (hp : ∀ position rest, p (⟨l, position⟩ :: rest) = q rest)
    (h : Repeats (m - 1) q taken rest ending) :
    Repeats m p (⟨l, position⟩ :: taken) rest ending := by
  intro front back hfront hback hlen
  obtain ⟨position, tail, rfl, htail⟩ := exists_of_map_eq_cons hfront
  rw [List.length_cons] at hlen
  rw [List.cons_append, hp]
  exact h htail hback (by omega)

theorem bind {f : α → Parser β} {a : α} {result : List Token → Except Stop (β × List Token)}
    (hp : Repeats m p taken (more ++ rest) fun back => .ok (a, back))
    (hf : Repeats (m - taken.length) (f a) more rest result) :
    Repeats m (p >>= f) (taken ++ more) rest result := by
  intro front back hfront hback hlen
  rw [List.map_append] at hfront
  obtain ⟨front, tail, rfl, hfront, htail⟩ := List.map_eq_append_iff.1 hfront
  have hsame : front.length = taken.length := by
    simpa using congrArg List.length hfront
  rw [List.length_append] at hlen
  rw [List.append_assoc, bind_of_ok (hp hfront (lookahead_append htail hback) _)]
  · exact hf htail hback (by omega)
  · rw [List.length_append]
    omega

theorem bind_error {f : α → Parser β} {reason : Reason}
    (hp : Repeats m p taken rest fun back => .error ⟨reason, back⟩) :
    Repeats m (p >>= f) taken rest fun back => .error ⟨reason, back⟩ :=
  fun _ _ hfront hback hlen => bind_of_error (hp hfront hback hlen) f

end Repeats

/-! ## Beginnings of phrases -/

/-- Valid lexemes complete the given ones to a phrase. -/
def Begins (P : Phrase α) (ls : List Lexeme) : Prop :=
  ∃ more a, (∀ l ∈ more, l.isValid = true) ∧ P (ls ++ more) a

section Begins

variable {P Q : Phrase α} {ls : List Lexeme}

theorem begins_nil {a : α} (h : P ls a) (hls : ∀ l ∈ ls, l.isValid = true) : Begins P [] :=
  ⟨ls, a, hls, h⟩

theorem Begins.mono (h : Begins P ls) (hPQ : ∀ ls a, P ls a → Q ls a) : Begins Q ls := by
  obtain ⟨more, a, hmore, hP⟩ := h
  exact ⟨more, a, hmore, hPQ _ _ hP⟩

/-- What starts behind other lexemes starts with them. -/
theorem Begins.prepend {front : List Lexeme} (h : Begins (fun ms a => P (front ++ ms) a) ls) :
    Begins P (front ++ ls) := by
  obtain ⟨more, a, hmore, hP⟩ := h
  rw [← List.append_assoc] at hP
  exact ⟨more, a, hmore, hP⟩

/-- The lexemes start a sequence, if something can stand behind each phrase of its first part. -/
theorem Begins.bind {R : Phrase β} (h : Begins P ls)
    (hR : ∀ ms a, P ms a → Begins (fun ns b => R (ms ++ ns) b) []) : Begins R ls := by
  obtain ⟨more, a, hmore, hP⟩ := h
  obtain ⟨rest, b, hrest, hR⟩ := hR _ a hP
  rw [List.nil_append, List.append_assoc] at hR
  exact ⟨more ++ rest, b, List.forall_mem_append.2 ⟨hmore, hrest⟩, hR⟩

end Begins

/-! ## The judgement -/

/-- What `p` does on the given tokens: it takes a phrase, or it takes the beginning of one and
    stops, and `p'` does the same; or its nesting is too deep. -/
inductive PredictsAt (m : Nat) (p p' : Parser α) (P : Phrase α) (tokens : List Token) : Prop
  | reads (taken : List Token) {a : α} {rest : List Token} :
      p tokens = .ok (a, rest) → tokens = taken ++ rest → P (taken.map Token.lexeme) a →
        Repeats m p' taken rest (fun back => .ok (a, back)) → PredictsAt m p p' P tokens
  | stops (taken : List Token) {reason : Reason} {rest : List Token} :
      p tokens = .error ⟨reason, rest⟩ → tokens = taken ++ rest →
        Begins P (taken.map Token.lexeme) →
        Repeats m p' taken rest (fun back => .error ⟨reason, back⟩) → PredictsAt m p p' P tokens
  | tooDeep {rest : List Token} :
      p tokens = .error ⟨.tooDeep, rest⟩ → PredictsAt m p p' P tokens

/-- What `p` does on at most `n` tokens, and `p'` on at most `m`. -/
structure Predicts (n m : Nat) (p p' : Parser α) (P : Phrase α) : Prop where
  inhabited : Begins P []
  onTokens : ∀ tokens, tokens.length ≤ n → PredictsAt m p p' P tokens

namespace PredictsAt

variable {m : Nat} {p p' q q' : Parser α} {P : Phrase α} {tokens : List Token}

theorem mono {Q : Phrase α} {k : Nat} (h : PredictsAt m p p' P tokens) (hle : k ≤ m)
    (hPQ : ∀ ls a, P ls a → Q ls a) : PredictsAt k p p' Q tokens := by
  cases h with
  | reads taken hp htokens hP hrep =>
    exact .reads taken hp htokens (hPQ _ _ hP) (hrep.mono hle)
  | stops taken hp htokens hgoes hrep =>
    exact .stops taken hp htokens (hgoes.mono hPQ) (hrep.mono hle)
  | tooDeep hp => exact .tooDeep hp

/-- The parser takes nothing and succeeds. -/
theorem pass {a : α} (hP : P [] a) (hp : p tokens = .ok (a, tokens))
    (hp' : ∀ back, lookahead back = lookahead tokens → p' back = .ok (a, back)) :
    PredictsAt m p p' P tokens :=
  .reads [] hp rfl hP (.nil hp')

/-- The parser takes nothing and stops. -/
theorem refuse {reason : Reason} (hP : Begins P []) (hp : p tokens = .error ⟨reason, tokens⟩)
    (hp' : ∀ back, lookahead back = lookahead tokens → p' back = .error ⟨reason, back⟩) :
    PredictsAt m p p' P tokens :=
  .stops [] hp rfl hP (.nil hp')

/-- A parser that decides by the first token goes on behind it like the one it chooses. -/
theorem cons {n : Nat} {l : Lexeme} {position : Position} {rest : List Token}
    (hlen : rest.length ≤ n)
    (h : Predicts n (m - 1) q q' fun ls a => P (l :: ls) a)
    (hp : ∀ position rest, p (⟨l, position⟩ :: rest) = q rest)
    (hp' : ∀ position rest, p' (⟨l, position⟩ :: rest) = q' rest) :
    PredictsAt m p p' P (⟨l, position⟩ :: rest) := by
  have heq := hp position rest
  cases h.onTokens rest hlen with
  | reads taken hq hrest hP hrep =>
    exact .reads (⟨l, position⟩ :: taken) (heq.trans hq) (by rw [hrest]; rfl) hP (hrep.cons hp')
  | stops taken hq hrest hgoes hrep =>
    have hbegins : Begins P ([l] ++ taken.map Token.lexeme) := hgoes.prepend
    exact .stops (⟨l, position⟩ :: taken) (heq.trans hq) (by rw [hrest]; rfl) hbegins
      (hrep.cons hp')
  | tooDeep hq => exact .tooDeep (heq.trans hq)

/-- The parser takes one token and succeeds. -/
theorem take {l : Lexeme} {a : α} {position : Position} {rest : List Token} (hP : P [l] a)
    (hp : ∀ position rest, p (⟨l, position⟩ :: rest) = .ok (a, rest))
    (hp' : ∀ position rest, p' (⟨l, position⟩ :: rest) = .ok (a, rest)) :
    PredictsAt m p p' P (⟨l, position⟩ :: rest) := by
  have hpure : Repeats (m - 1) (Pure.pure a) [] rest fun back => .ok (a, back) :=
    .nil fun _ _ => rfl
  exact .reads [⟨l, position⟩] (hp _ _) rfl hP (hpure.cons hp')

/-- In front of a given lexeme, only the phrases that start with it count. -/
theorem restrict {Q : Phrase α} {l : Lexeme} {position : Position} {rest : List Token}
    (h : PredictsAt m p p' P (⟨l, position⟩ :: rest)) (hnil : ∀ a, ¬ P [] a)
    (hQ : Begins Q []) (hPQ : ∀ ls a, P (l :: ls) a → Q (l :: ls) a) :
    PredictsAt m p p' Q (⟨l, position⟩ :: rest) := by
  cases h with
  | reads taken hp htokens hP hrep =>
    cases taken with
    | nil => exact absurd hP (hnil _)
    | cons token taken =>
      obtain ⟨rfl, -⟩ := List.cons.inj htokens
      exact .reads _ hp htokens (hPQ _ _ hP) hrep
  | stops taken hp htokens hgoes hrep =>
    cases taken with
    | nil => exact .stops _ hp htokens hQ hrep
    | cons token taken =>
      obtain ⟨ms, a, hms, hP⟩ := hgoes
      obtain ⟨rfl, -⟩ := List.cons.inj htokens
      exact .stops _ hp htokens ⟨ms, a, hms, hPQ _ _ hP⟩ hrep
  | tooDeep hp => exact .tooDeep hp

/-- Parsers that agree on the tokens and on all with the same lexeme in front. -/
theorem congr (h : PredictsAt m q q' P tokens) (hp : p tokens = q tokens)
    (hp' : ∀ back, lookahead back = lookahead tokens → p' back = q' back) :
    PredictsAt m p p' P tokens := by
  cases h with
  | reads taken hq htokens hP hrep =>
    refine .reads taken (hp.trans hq) htokens hP fun front back hfront hback hlen => ?_
    rw [hp' _ (htokens ▸ lookahead_append hfront hback)]
    exact hrep hfront hback hlen
  | stops taken hq htokens hgoes hrep =>
    refine .stops taken (hp.trans hq) htokens hgoes fun front back hfront hback hlen => ?_
    rw [hp' _ (htokens ▸ lookahead_append hfront hback)]
    exact hrep hfront hback hlen
  | tooDeep hq => exact .tooDeep (hp.trans hq)

end PredictsAt

namespace Predicts

variable {n m : Nat} {p p' : Parser α} {P : Phrase α} {Q : Phrase β}

theorem mono {R : Phrase α} (h : Predicts n m p p' P) (hPR : ∀ ls a, P ls a → R ls a) :
    Predicts n m p p' R where
  inhabited := h.inhabited.mono hPR
  onTokens tokens hlen := (h.onTokens tokens hlen).mono (Nat.le_refl m) hPR

/-- Fewer tokens. -/
theorem fewer {j k : Nat} (h : Predicts n m p p' P) (hj : j ≤ n) (hk : k ≤ m) :
    Predicts j k p p' P where
  inhabited := h.inhabited
  onTokens tokens hlen :=
    (h.onTokens tokens (Nat.le_trans hlen hj)).mono hk fun _ _ hP => hP

theorem pure {a : α} (hP : P [] a) : Predicts n m (Pure.pure a) (Pure.pure a) P where
  inhabited := begins_nil hP (by simp)
  onTokens _ _ := .pass hP rfl fun _ _ => rfl

/-- Whatever `p'` does: where no level is left, nothing is said. -/
theorem tooDeep (hP : Begins P []) : Predicts n m (Parser.fail .tooDeep) p' P where
  inhabited := hP
  onTokens _ _ := .tooDeep rfl

/-- Behind a phrase of `P`, fewer tokens are left, and the rest of the sequence has to complete it
    to a phrase of `Q`. -/
theorem bind {f f' : α → Parser β} (hp : Predicts n m p p' P)
    (hf : ∀ ms a, P ms a →
      Predicts (n - ms.length) (m - ms.length) (f a) (f' a) fun ns b => Q (ms ++ ns) b) :
    Predicts n m (p >>= f) (p' >>= f') Q where
  inhabited := hp.inhabited.bind fun ms a hP => (hf ms a hP).inhabited
  onTokens tokens hlen := by
    cases hp.onTokens tokens hlen with
    | tooDeep h => exact .tooDeep (bind_of_error h f)
    | stops taken h htokens hgoes hrep =>
      -- some phrase completes what was taken, and some phrase stands behind it
      exact .stops taken (bind_of_error h f) htokens
        (hgoes.bind fun ms a hP => (hf ms a hP).inhabited) hrep.bind_error
    | @reads taken a rest h htokens hP hrep =>
      have hnext := hf _ a hP
      rw [List.length_map] at hnext
      have hrest : rest.length ≤ n - taken.length := by
        have hsum := congrArg List.length htokens
        rw [List.length_append] at hsum
        omega
      have hbind := bind_of_ok h f
      cases hnext.onTokens rest hrest with
      | tooDeep h' => exact .tooDeep (hbind.trans h')
      | stops more h' hrest hgoes hrep' =>
        have hQ := hgoes.prepend
        rw [← List.map_append] at hQ
        subst hrest
        refine .stops (taken ++ more) (hbind.trans h') ?_ hQ (hrep.bind hrep')
        rw [htokens, List.append_assoc]
      | reads more h' hrest hQ hrep' =>
        rw [← List.map_append] at hQ
        subst hrest
        refine .reads (taken ++ more) (hbind.trans h') ?_ hQ (hrep.bind hrep')
        rw [htokens, List.append_assoc]

/-! ### One lexeme -/

/-- A parser that takes one lexeme, and stops at any other. -/
theorem lexeme (l : Lexeme) (a : α) (reason : Reason) (hl : l.isValid = true)
    (hself : ∀ position rest, p (⟨l, position⟩ :: rest) = .ok (a, rest))
    (hother : ∀ tokens, lookahead tokens ≠ some l → p tokens = .error ⟨reason, tokens⟩) :
    Predicts n m p p fun ls b => ls = [l] ∧ b = a := by
  have hbegins : Begins (fun ls b => ls = [l] ∧ b = a) [] :=
    begins_nil ⟨rfl, rfl⟩ (List.forall_mem_singleton.2 hl)
  refine ⟨hbegins, fun tokens hlen => ?_⟩
  by_cases h : lookahead tokens = some l
  · obtain ⟨position, rest, rfl⟩ := lookahead_eq_some h
    exact .take ⟨rfl, rfl⟩ hself hself
  · exact .refuse hbegins (hother _ h) fun back hback => hother _ (hback ▸ h)

/-- A parser that takes one lexeme if it is there, and says whether it was. -/
theorem tryLexeme {p : Parser Bool} {l : Lexeme}
    (hself : ∀ position rest, p (⟨l, position⟩ :: rest) = .ok (true, rest))
    (hother : ∀ tokens, lookahead tokens ≠ some l → p tokens = .ok (false, tokens)) :
    Predicts n m p p fun ls found => ls = if found then [l] else [] where
  inhabited := ⟨[], false, by simp, rfl⟩
  onTokens tokens hlen := by
    by_cases h : lookahead tokens = some l
    · obtain ⟨position, rest, rfl⟩ := lookahead_eq_some h
      exact .take rfl hself hself
    · exact .pass rfl (hother _ h) fun back hback => hother _ (hback ▸ h)

theorem symbol (s : Symbol) (place : Place) :
    Predicts n m (Parser.symbol s place) (Parser.symbol s place) fun ls _ => ls = [.symbol s] := by
  refine (lexeme (.symbol s) () (.missing (.symbol s) place) rfl ?_ ?_).mono
    fun _ _ h => h.1
  · intro position rest
    simp [Parser.symbol]
  · intro tokens h
    unfold Parser.symbol
    split
    · rw [if_neg]
      rintro rfl
      exact h rfl
    · rfl

theorem keyword (k : Keyword) (place : Place) :
    Predicts n m (Parser.keyword k place) (Parser.keyword k place)
      fun ls _ => ls = [.keyword k] := by
  refine (lexeme (.keyword k) () (.missing (.keyword k) place) rfl ?_ ?_).mono
    fun _ _ h => h.1
  · intro position rest
    simp [Parser.keyword]
  · intro tokens h
    unfold Parser.keyword
    split
    · rw [if_neg]
      rintro rfl
      exact h rfl
    · rfl

/-- A name that is not reserved. -/
theorem begins_name : Begins (fun ls x => ls = [.name x]) [] :=
  begins_nil (a := "x") rfl (by decide)

theorem name (wanted : Wanted) (place : Place) :
    Predicts n m (Parser.name wanted place) (Parser.name wanted place)
      fun ls x => ls = [.name x] where
  inhabited := begins_name
  onTokens tokens hlen := by
    have hother {tokens : List Token} (h : ∀ x, lookahead tokens ≠ some (.name x)) :
        Parser.name wanted place tokens = .error ⟨.missing wanted place, tokens⟩ := by
      unfold Parser.name
      split
      · exact absurd rfl (h _)
      · rfl
    by_cases h : ∃ x, lookahead tokens = some (.name x)
    · obtain ⟨x, h⟩ := h
      obtain ⟨position, rest, rfl⟩ := lookahead_eq_some h
      exact .take rfl (fun _ _ => rfl) fun _ _ => rfl
    · rw [not_exists] at h
      exact .refuse begins_name (hother h) fun back hback => hother (hback ▸ h)

theorem trySymbol (s : Symbol) :
    Predicts n m (Parser.trySymbol s) (Parser.trySymbol s)
      fun ls found => ls = if found then [.symbol s] else [] := by
  refine tryLexeme ?_ ?_
  · intro position rest
    simp [Parser.trySymbol]
  · intro tokens h
    unfold Parser.trySymbol
    split
    · rw [if_neg]
      rintro rfl
      exact h rfl
    · rfl

theorem tryKeyword (k : Keyword) :
    Predicts n m (Parser.tryKeyword k) (Parser.tryKeyword k)
      fun ls found => ls = if found then [.keyword k] else [] := by
  refine tryLexeme ?_ ?_
  · intro position rest
    simp [Parser.tryKeyword]
  · intro tokens h
    unfold Parser.tryKeyword
    split
    · rw [if_neg]
      rintro rfl
      exact h rfl
    · rfl

theorem atSymbol (s : Symbol) :
    Predicts n m (Parser.atSymbol s) (Parser.atSymbol s) fun ls _ => ls = [] where
  inhabited := ⟨[], true, by simp, rfl⟩
  onTokens tokens _ := by
    have heq (tokens : List Token) : Parser.atSymbol s tokens =
        .ok (decide (lookahead tokens = some (.symbol s)), tokens) := by
      unfold Parser.atSymbol
      split
      · simp [lookahead]
      · next h =>
        have hne : lookahead tokens ≠ some (.symbol s) := by
          intro hl
          obtain ⟨position, rest, rfl⟩ := lookahead_eq_some hl
          exact h _ _ _ rfl
        simp [hne]
    exact .pass rfl (heq tokens) fun back hback => hback ▸ heq back

/-! ### Repetition -/

/-- A parser whose rounds are bounded by the number of tokens. -/
theorem byLength {p p' : Nat → Parser α} (h : ∀ r r', Predicts r r' (p r) (p' r') P) :
    Predicts n m (fun tokens => p tokens.length tokens) (fun tokens => p' tokens.length tokens)
      P where
  inhabited := (h 0 0).inhabited
  onTokens tokens _ := by
    have hat (r' : Nat) : PredictsAt r' (p tokens.length) (p' r') P tokens :=
      (h tokens.length r').onTokens tokens (Nat.le_refl _)
    -- what is taken is the same for any number of rounds of `p'`
    cases hat 0 with
    | tooDeep hp => exact .tooDeep hp
    | @reads taken a rest hp htokens hP _ =>
      refine .reads taken hp htokens hP fun front back hfront hback _ => ?_
      cases hat (front ++ back).length with
      | reads taken' hp' htokens' _ hrep =>
        obtain ⟨rfl, rfl⟩ : _ ∧ _ := by simpa using hp'.symm.trans hp
        obtain rfl := List.append_cancel_right (htokens'.symm.trans htokens)
        exact hrep hfront hback (by simp)
      | stops _ hp' _ _ _ | tooDeep hp' => exact absurd (hp'.symm.trans hp) (by simp)
    | @stops taken reason rest hp htokens hgoes _ =>
      by_cases hdeep : reason = .tooDeep
      · exact .tooDeep (hdeep ▸ hp)
      refine .stops taken hp htokens hgoes fun front back hfront hback _ => ?_
      cases hat (front ++ back).length with
      | reads _ hp' _ _ _ => exact absurd (hp'.symm.trans hp) (by simp)
      | stops taken' hp' htokens' _ hrep =>
        obtain ⟨rfl, rfl⟩ : _ ∧ _ := by simpa using hp'.symm.trans hp
        obtain rfl := List.append_cancel_right (htokens'.symm.trans htokens)
        exact hrep hfront hback (by simp)
      | tooDeep hp' =>
        obtain ⟨rfl, -⟩ : _ ∧ _ := by simpa using hp'.symm.trans hp
        exact absurd rfl hdeep

/-- Parsers that agree on few enough tokens. -/
theorem congr_right {q' : Parser α} (h : Predicts n m p q' P)
    (heq : ∀ tokens, tokens.length ≤ m → p' tokens = q' tokens) : Predicts n m p p' P where
  inhabited := h.inhabited
  onTokens tokens hlen := by
    have hrepeats {taken rest : List Token} {ending : List Token → Except Stop (α × List Token)}
        (hrep : Repeats m q' taken rest ending) : Repeats m p' taken rest ending := by
      intro front back hfront hback hlen
      rw [heq _ (by rwa [List.length_append])]
      exact hrep hfront hback hlen
    cases h.onTokens tokens hlen with
    | reads taken hp htokens hP hrep => exact .reads taken hp htokens hP (hrepeats hrep)
    | stops taken hp htokens hgoes hrep => exact .stops taken hp htokens hgoes (hrepeats hrep)
    | tooDeep hp => exact .tooDeep hp

end Predicts

/-- Looks for the start of an item: it takes what stands in front of the item, or nothing. -/
def starter (start? : List Token → Option (σ × List Token)) : Parser (Option σ) := fun tokens =>
  match start? tokens with
  | none => .ok (none, tokens)
  | some (selected, rest) => .ok (some selected, rest)

/-- A phrase, or nothing. -/
inductive Optionally (S : Phrase σ) : Phrase (Option σ)
  | none : Optionally S [] none
  | some {ls : List Lexeme} {selected : σ} : S ls selected → Optionally S ls (some selected)

theorem manyUpTo_succ (start? : List Token → Option (σ × List Token)) (item : σ → Parser α)
    (rounds : Nat) :
    manyUpTo start? item (rounds + 1) = (do
      match ← starter start? with
      | none => pure []
      | some selected =>
        let a ← item selected
        let more ← manyUpTo start? item rounds
        return a :: more) := by
  funext tokens
  simp only [manyUpTo, bind, starter]
  cases start? tokens with
  | none => rfl
  | some result =>
    simp only
    cases item result.1 result.2 with
    | error stop => rfl
    | ok next =>
      simp only
      cases manyUpTo start? item rounds next.2 <;> rfl

/-- A repetition predicts what its items predict, if each round takes a token. -/
theorem Predicts.many {n m : Nat} {start? : List Token → Option (σ × List Token)}
    {item item' : σ → Parser α} {S : Phrase σ} {I : σ → Phrase α} {R : Phrase (List α)}
    (hs : ∀ {n m}, Predicts n m (starter start?) (starter start?) (Optionally S))
    (hi : ∀ selected {n m}, Predicts n m (item selected) (item' selected) (I selected))
    (hend : start? [] = none)
    (htakes : ∀ ls selected ms a, S ls selected → I selected ms a → ls ++ ms ≠ [])
    (hnil : R [] [])
    (hcons : ∀ ls selected ms a ns as, S ls selected → I selected ms a → R ns as →
      R (ls ++ (ms ++ ns)) (a :: as)) :
    Predicts n m (Parser.many start? item) (Parser.many start? item') R := by
  have hstop (r : Nat) : manyUpTo start? item' r [] = .ok ([], []) := by
    cases r <;> simp [manyUpTo, hend]
  refine byLength fun r => ?_
  induction r with
  | zero =>
    refine fun r' => ⟨begins_nil hnil (by simp), fun tokens hlen => ?_⟩
    obtain rfl := List.length_eq_zero_iff.1 (Nat.le_zero.1 hlen)
    refine .pass hnil rfl fun back hback => ?_
    rw [lookahead_eq_none hback, hstop]
  | succ r ih =>
    have hround (r' : Nat) : Predicts (r + 1) (r' + 1) (manyUpTo start? item (r + 1))
        (manyUpTo start? item' (r' + 1)) R := by
      rw [manyUpTo_succ, manyUpTo_succ]
      refine hs.bind fun ls selected hS => ?_
      cases hS with
      | none => exact .pure hnil
      | some hS =>
        refine (hi _).bind fun ms a hI => ?_
        have hlen := List.length_pos_iff.2 (htakes _ _ _ _ hS hI)
        rw [List.length_append] at hlen
        refine ((ih r').fewer (by omega) (by omega)).bind fun ns as hR => .pure ?_
        rw [List.append_nil]
        exact hcons _ _ _ _ _ _ hS hI hR
    intro r'
    cases r' with
    | zero =>
      -- without tokens, one round more makes no difference
      refine ((hround 0).fewer (Nat.le_refl _) (Nat.zero_le 1)).congr_right fun tokens hlen => ?_
      obtain rfl := List.length_eq_zero_iff.1 (Nat.le_zero.1 hlen)
      rw [hstop, hstop]
    | succ r' => exact hround r'

/-- A start that is one lexeme. -/
theorem Predicts.starter {n m : Nat} {start? : List Token → Option (σ × List Token)}
    (accepts : Lexeme → Option σ) (hnil : start? [] = none)
    (hcons : ∀ l position rest,
      start? (⟨l, position⟩ :: rest) = (accepts l).map (·, rest)) :
    Predicts n m (Parser.starter start?) (Parser.starter start?)
      (Optionally fun ls selected => ∃ l, ls = [l] ∧ accepts l = some selected) where
  inhabited := begins_nil .none (by simp)
  onTokens tokens hlen := by
    cases hl : (lookahead tokens).bind accepts with
    | none =>
      have hnone {tokens : List Token} (h : (lookahead tokens).bind accepts = none) :
          Parser.starter start? tokens = .ok (none, tokens) := by
        cases tokens with
        | nil => simp [Parser.starter, hnil]
        | cons token rest =>
          have haccepts : accepts token.lexeme = none := h
          simp [Parser.starter, hcons token.lexeme token.position rest, haccepts]
      exact .pass .none (hnone hl) fun back hback => hnone (hback ▸ hl)
    | some selected =>
      obtain ⟨l, hl, haccepts⟩ := Option.bind_eq_some_iff.1 hl
      obtain ⟨position, rest, rfl⟩ := lookahead_eq_some hl
      have hself (position : Position) (rest : List Token) :
          Parser.starter start? (⟨l, position⟩ :: rest) = .ok (some selected, rest) := by
        simp [Parser.starter, hcons, haccepts]
      exact .take (.some ⟨l, rfl, haccepts⟩) hself hself

end Scriptlet.Parser
