import Scriptlet.Text.CharClass
import Scriptlet.Text.Combining
import Scriptlet.Text.Graphic

set_option autoImplicit false

/-! # Quoted text

Two unrelated ways in which quotes meet text. `quote` writes a text between double quotes with
the characters escaped that a reader could not see for what they are; traces and listings use it.
`unquote?` takes the quotes off a name that was written with them, with no escapes at all. -/

namespace Scriptlet.Text

/-! ## Writing with escapes -/

/-- The Hangul fillers: letters that hold the place of a missing one and are drawn as nothing. -/
def isFiller (c : Char) : Bool :=
  c == '\u115f' || c == '\u1160' || c == '\u3164' || c == '\uffa0'

/-- A character that leaves no mark of its own on the page, and so is written by its code point
    instead of itself. -/
def isUnprintable (c : Char) : Bool :=
  !isGraphic c || isCombining c || isFiller c

/-- One character of a quoted text. -/
def escape (c : Char) : List Char :=
  if c = '"' then ['\\', '"']
  else if c = '\\' then ['\\', '\\']
  else if c = '\n' then ['\\', 'n']
  else if c = '\t' then ['\\', 't']
  else if c = '\r' then ['\\', 'r']
  else if c = Char.ofNat 0 then ['\\', '0']
  else if isUnprintable c then
    ['\\', 'u', '\x7b'] ++ Nat.toDigits 16 c.toNat ++ ['\x7d']
  else [c]

/-- A text between double quotes, on one line. -/
def quote (s : String) : String :=
  String.ofList ('"' :: s.toList.flatMap escape ++ ['"'])

/-- Texts, each quoted, as a bracketed list. -/
def quoteList (items : List String) : String :=
  "[" ++ String.intercalate ", " (items.map quote) ++ "]"

/-! ## Reading without escapes -/

/-- The text between the quotes of a name that starts and ends with one and the same quote; the
    two must be different characters of the name. -/
def unquote? (name : String) : Option String :=
  match name.toList with
  | [] => none
  | q :: rest =>
    if isQuote q && rest.getLast? == some q then some (String.ofList rest.dropLast) else none

end Scriptlet.Text
