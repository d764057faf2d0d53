set_option autoImplicit false

/-! # Character classes

The classes that decide where a lexeme starts and where it ends. All of them are closed sets of
ASCII characters: a letter outside ASCII is no letter of the language and cannot stand in a
name. -/

namespace Scriptlet.Text

/-- Characters that start a name: the ASCII letters and the underscore. -/
def isLetter (c : Char) : Bool :=
  c.isAlpha || c == '_'

/-- The ten ASCII digits. -/
def isDigit (c : Char) : Bool :=
  c.isDigit

/-- Characters that continue a name. -/
def isWord (c : Char) : Bool :=
  isLetter c || isDigit c

/-- Characters that separate lexemes and are otherwise ignored. -/
def isBlank (c : Char) : Bool :=
  c == ' ' || c == '\t' || c == '\r' || c == '\n'

/-- The two characters that open and close a quoted text. -/
def isQuote (c : Char) : Bool :=
  c == '"' || c == '\''

theorem isBlank_iff {c : Char} :
    isBlank c = true ↔ c = ' ' ∨ c = '\t' ∨ c = '\r' ∨ c = '\n' := by
  simp [isBlank, or_assoc]

end Scriptlet.Text
