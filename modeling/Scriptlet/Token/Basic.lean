import Scriptlet.Text.CharClass
import Scriptlet.Decimal.Basic

set_option autoImplicit false

/-! # Tokens

The vocabulary of the language. A `Lexeme` is a stretch of source text sorted by what it means; its
`text` gives the stretch back character by character. A `Token` is a lexeme with the place where it
starts, and a `Fault` a stretch that is no lexeme, with its place.

Symbols and keywords are closed sets with their spelling beside them; both spellings are injective,
so a symbol or keyword is determined by its text. -/

namespace Scriptlet

/-! ## Positions -/

/-- A place in a text. Lines and columns count from one, columns in characters. -/
structure Position where
  line : Nat
  column : Nat
deriving DecidableEq, Repr

namespace Position

/-- The place of the first character. -/
def start : Position := ⟨1, 1⟩

/-- The place behind a character that stands at `p`. -/
def advance (p : Position) (c : Char) : Position :=
  if c = '\n' then ⟨p.line + 1, 1⟩ else ⟨p.line, p.column + 1⟩

/-- The place behind a text that starts at `p`. -/
def after (p : Position) (text : List Char) : Position :=
  text.foldl advance p

@[simp]
theorem after_nil (p : Position) : p.after [] = p := rfl

@[simp]
theorem after_cons (p : Position) (c : Char) (text : List Char) :
    p.after (c :: text) = (p.advance c).after text := rfl

@[simp]
theorem after_append (p : Position) (a b : List Char) :
    p.after (a ++ b) = (p.after a).after b := by
  simp [after, List.foldl_append]

/-- How a place is written in messages. -/
def text (p : Position) : String :=
  "[line " ++ Decimal.ofInt p.line ++ " column " ++ Decimal.ofInt p.column ++ "]"

end Position

/-! ## Symbols and keywords -/

/-- Operators and punctuation. -/
inductive Symbol where
  | parenLeft | parenRight | bracketLeft | bracketRight | comma | semicolon
  | assign | equal | notEqual | greater | greaterEqual | less | lessEqual
  | plus | plusPlus | plusAssign | minus | minusMinus | minusAssign
  | star | starAssign | slash | slashAssign
  | and | or
deriving DecidableEq, Repr

namespace Symbol

/-- The spelling of a symbol. -/
def text : Symbol → String
  | parenLeft => "(" | parenRight => ")" | bracketLeft => "[" | bracketRight => "]"
  | comma => "," | semicolon => ";"
  | assign => "=" | equal => "==" | notEqual => "!="
  | greater => ">" | greaterEqual => ">=" | less => "<" | lessEqual => "<="
  | plus => "+" | plusPlus => "++" | plusAssign => "+="
  | minus => "-" | minusMinus => "--" | minusAssign => "-="
  | star => "*" | starAssign => "*=" | slash => "/" | slashAssign => "/="
  | and => "&&" | or => "||"

/-- The symbols of one character. -/
def ofChar? : Char → Option Symbol
  | '(' => some parenLeft | ')' => some parenRight
  | '[' => some bracketLeft | ']' => some bracketRight
  | ',' => some comma | ';' => some semicolon
  | '=' => some assign | '>' => some greater | '<' => some less
  | '+' => some plus | '-' => some minus | '*' => some star | '/' => some slash
  | _ => none

/-- The symbols of two characters. -/
def ofPair? : Char → Char → Option Symbol
  | '=', '=' => some equal | '!', '=' => some notEqual
  | '>', '=' => some greaterEqual | '<', '=' => some lessEqual
  | '+', '+' => some plusPlus | '+', '=' => some plusAssign
  | '-', '-' => some minusMinus | '-', '=' => some minusAssign
  | '*', '=' => some starAssign | '/', '=' => some slashAssign
  | '&', '&' => some and | '|', '|' => some or
  | _, _ => none

/-- The symbol that a text starts with, and the text behind it. Of two symbols that fit, the longer
    one is taken. -/
def read? : List Char → Option (Symbol × List Char)
  | [] => none
  | [c] => (ofChar? c).map (·, [])
  | c :: d :: rest =>
    match ofPair? c d with
    | some s => some (s, rest)
    | none => (ofChar? c).map (·, d :: rest)

theorem text_of_ofChar? {c : Char} {s : Symbol} (h : ofChar? c = some s) :
    s.text.toList = [c] := by
  unfold ofChar? at h
  split at h <;> cases h <;> rfl

theorem text_of_ofPair? {c d : Char} {s : Symbol} (h : ofPair? c d = some s) :
    s.text.toList = [c, d] := by
  unfold ofPair? at h
  split at h <;> cases h <;> rfl

/-- A symbol and the text behind it make up the text. -/
theorem read?_append {text rest : List Char} {s : Symbol} (h : read? text = some (s, rest)) :
    s.text.toList ++ rest = text := by
  match text with
  | [] => simp [read?] at h
  | [c] =>
    simp only [read?, Option.map_eq_some_iff, Prod.mk.injEq] at h
    obtain ⟨_, found, rfl, rfl⟩ := h
    simp [text_of_ofChar? found]
  | c :: d :: tail =>
    simp only [read?] at h
    split at h
    · next found =>
      simp only [Option.some.injEq, Prod.mk.injEq] at h
      obtain ⟨rfl, rfl⟩ := h
      simp [text_of_ofPair? found]
    · simp only [Option.map_eq_some_iff, Prod.mk.injEq] at h
      obtain ⟨_, found, rfl, rfl⟩ := h
      simp [text_of_ofChar? found]

theorem text_ne_nil (s : Symbol) : s.text.toList ≠ [] := by
  cases s <;> decide

end Symbol

/-- Reserved words. -/
inductive Keyword where
  | print | exit
  | if_ | then_ | else_ | endif
  | while_ | do_ | endwhile
  | for_ | endfor
  | function | endfunction | return_
  | global
  | append | remove
  | id | eval
deriving DecidableEq, Repr

namespace Keyword

/-- The spelling of a reserved word. -/
def text : Keyword → String
  | print => "print" | exit => "exit"
  | if_ => "if" | then_ => "then" | else_ => "else" | endif => "endif"
  | while_ => "while" | do_ => "do" | endwhile => "endwhile"
  | for_ => "for" | endfor => "endfor"
  | function => "function" | endfunction => "endfunction" | return_ => "return"
  | global => "global"
  | append => "append" | remove => "remove"
  | id => "id" | eval => "eval"

/-- All reserved words. -/
def all : List Keyword :=
  [print, exit, if_, then_, else_, endif, while_, do_, endwhile, for_, endfor, function,
    endfunction, return_, global, append, remove, id, eval]

/-- The reserved word with a given spelling. -/
def ofText? (s : String) : Option Keyword :=
  all.find? (·.text == s)

theorem text_of_ofText? {s : String} {k : Keyword} (h : ofText? s = some k) : k.text = s := by
  simpa using List.find?_some h

end Keyword

/-! ## Lexemes -/

/-- The two kinds of quotes. -/
inductive Quote where
  | single | double
deriving DecidableEq, Repr

namespace Quote

/-- The character of a quote. -/
def char : Quote → Char
  | single => '\''
  | double => '"'

/-- The quote that a character is. -/
def ofChar? : Char → Option Quote
  | '\'' => some single
  | '"' => some double
  | _ => none

theorem ofChar?_eq_some {c : Char} {q : Quote} : ofChar? c = some q ↔ c = q.char := by
  constructor
  · intro h
    unfold ofChar? at h
    split at h <;> simp_all [char]
    · subst h; rfl
    · subst h; rfl
  · rintro rfl
    cases q <;> rfl

end Quote

/-- A stretch of source text that means something. -/
inductive Lexeme where
  | symbol (s : Symbol)
  | keyword (k : Keyword)
  /-- A name that is not reserved. -/
  | name (text : String)
  /-- A digit run whose value fits a signed 64-bit word. -/
  | number (digits : String)
  /-- A quoted text without its quotes; nothing in it is escaped. -/
  | quoted (quote : Quote) (content : String)
deriving DecidableEq, Repr

namespace Lexeme

/-- The stretch of source text. -/
def text : Lexeme → String
  | symbol s => s.text
  | keyword k => k.text
  | name s => s
  | number ds => ds
  | quoted q s => q.char.toString ++ s ++ q.char.toString

/-- What a name-like stretch means. -/
def ofWord (s : String) : Lexeme :=
  match Keyword.ofText? s with
  | some k => keyword k
  | none => name s

@[simp]
theorem text_ofWord (s : String) : (ofWord s).text = s := by
  unfold ofWord
  split
  · next k h => exact Keyword.text_of_ofText? h
  · rfl

end Lexeme

/-- A lexeme and the place where it starts. -/
structure Token where
  lexeme : Lexeme
  position : Position
deriving DecidableEq, Repr

/-- The stretch of source text of a token. -/
def Token.text (t : Token) : String := t.lexeme.text

/-! ## Faults -/

/-- Why a stretch of source text is no lexeme. -/
inductive Problem where
  /-- A character that starts no lexeme. -/
  | illegal (c : Char)
  /-- A quote without a second one behind it. -/
  | unterminated (quote : Quote)
  /-- A digit run whose value does not fit a signed 64-bit word. -/
  | tooLarge (digits : String)
deriving DecidableEq, Repr

namespace Problem

/-- The stretch of source text that is left out because of a problem. -/
def text : Problem → String
  | illegal c => c.toString
  | unterminated q => q.char.toString
  | tooLarge ds => ds

/-- The wording of a problem. -/
def message : Problem → String
  | illegal c => "Illegal character '" ++ c.toString ++ "'"
  | unterminated _ => "Unterminated string"
  | tooLarge ds => "Integer literal " ++ ds ++ " is too large"

end Problem

/-- A problem and the place where it starts. -/
structure Fault where
  problem : Problem
  position : Position
deriving DecidableEq, Repr

/-- The report of a fault. -/
def Fault.message (f : Fault) : String :=
  f.position.text ++ " " ++ f.problem.message

end Scriptlet
