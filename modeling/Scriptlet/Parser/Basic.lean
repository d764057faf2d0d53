import Scriptlet.SyntaxError

set_option autoImplicit false

/-! # Parsers

A parser takes tokens off the front of a list and yields what they mean and the tokens left, or
stops at the first token that does not fit. There is no going back: what to do next is decided by
looking at the front of the list, so a stop is final.

Repetition is one combinator, `many`. It looks at the tokens before each item, and its number of
rounds is bounded by the number of tokens, which is enough because every round takes one. -/

namespace Scriptlet

/-- Where and why a parser stops: `rest` starts with the token that does not fit. -/
structure Stop where
  reason : Reason
  rest : List Token
deriving DecidableEq, Repr

/-- The syntax error of a stop. -/
def Stop.error (stop : Stop) : SyntaxError := ⟨stop.reason, stop.rest.head?⟩

/-- Takes tokens off the front of a list. -/
def Parser (α : Type) : Type := List Token → Except Stop (α × List Token)

namespace Parser

variable {α σ : Type}

instance : Monad Parser where
  pure a := fun tokens => .ok (a, tokens)
  bind p next := fun tokens =>
    match p tokens with
    | .error stop => .error stop
    | .ok (a, rest) => next a rest

instance : LawfulMonad Parser := LawfulMonad.mk' Parser
  (by
    intro α p
    funext tokens
    simp only [Functor.map]
    cases p tokens <;> rfl)
  (by intros; rfl)
  (by
    intro α β γ p f g
    funext tokens
    simp only [bind]
    cases p tokens <;> rfl)

/-- Stops at the current token. -/
def fail (reason : Reason) : Parser α :=
  fun tokens => .error ⟨reason, tokens⟩

/-- Takes one given symbol. -/
def symbol (s : Symbol) (place : Place) : Parser Unit := fun tokens =>
  match tokens with
  | ⟨.symbol found, _⟩ :: rest =>
    if found = s then .ok ((), rest) else .error ⟨.missing (.symbol s) place, tokens⟩
  | _ => .error ⟨.missing (.symbol s) place, tokens⟩

/-- Takes one given keyword. -/
def keyword (k : Keyword) (place : Place) : Parser Unit := fun tokens =>
  match tokens with
  | ⟨.keyword found, _⟩ :: rest =>
    if found = k then .ok ((), rest) else .error ⟨.missing (.keyword k) place, tokens⟩
  | _ => .error ⟨.missing (.keyword k) place, tokens⟩

/-- Takes a name. -/
def name (wanted : Wanted) (place : Place) : Parser String := fun tokens =>
  match tokens with
  | ⟨.name text, _⟩ :: rest => .ok (text, rest)
  | _ => .error ⟨.missing wanted place, tokens⟩

/-- Whether the current token is the given symbol. -/
def atSymbol (s : Symbol) : Parser Bool := fun tokens =>
  match tokens with
  | ⟨.symbol found, _⟩ :: _ => .ok (found = s, tokens)
  | _ => .ok (false, tokens)

/-- Takes the given symbol if it is the current token, and says whether it was. -/
def trySymbol (s : Symbol) : Parser Bool := fun tokens =>
  match tokens with
  | ⟨.symbol found, _⟩ :: rest => if found = s then .ok (true, rest) else .ok (false, tokens)
  | _ => .ok (false, tokens)

/-- Takes the given keyword if it is the current token, and says whether it was. -/
def tryKeyword (k : Keyword) : Parser Bool := fun tokens =>
  match tokens with
  | ⟨.keyword found, _⟩ :: rest => if found = k then .ok (true, rest) else .ok (false, tokens)
  | _ => .ok (false, tokens)

/-- At most `rounds` items. Before each, `start?` looks at the tokens: nothing ends the repetition,
    and a value goes on with the item it selects at the tokens it leaves. -/
def manyUpTo (start? : List Token → Option (σ × List Token)) (item : σ → Parser α) :
    (rounds : Nat) → Parser (List α)
  | 0 => fun tokens => .ok ([], tokens)
  | rounds + 1 => fun tokens =>
    match start? tokens with
    | none => .ok ([], tokens)
    | some (selected, tokens) =>
      match item selected tokens with
      | .error stop => .error stop
      | .ok (a, tokens) =>
        match manyUpTo start? item rounds tokens with
        | .error stop => .error stop
        | .ok (more, tokens) => .ok (a :: more, tokens)

/-- Items for as long as one starts. -/
def many (start? : List Token → Option (σ × List Token)) (item : σ → Parser α) :
    Parser (List α) :=
  fun tokens => manyUpTo start? item tokens.length tokens

/-- An item starts behind the given symbol. -/
def behind (s : Symbol) : List Token → Option (Unit × List Token)
  | ⟨.symbol found, _⟩ :: rest => if found = s then some ((), rest) else none
  | _ => none

/-- One or more items with commas between them. -/
def commaSeparated (item : Parser α) : Parser (List α) := do
  let first ← item
  let more ← many (behind .comma) fun _ => item
  return first :: more

end Parser

end Scriptlet
