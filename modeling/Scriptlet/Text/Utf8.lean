set_option autoImplicit false

/-! # UTF-8 with repair

Bytes are read as UTF-8. Where they are ill-formed, each maximal stretch that some well-formed
character starts with, or a single byte that starts none, becomes one replacement character.

The reader is a machine that takes one byte at a time. Its state is what the bytes of an unfinished
character leave open: how many are still owed, and between which bounds the next one must lie. The
bounds are narrower than `80 … BF` only for the second byte, where they exclude overlong forms,
surrogates and code points beyond `10FFFF`. -/

namespace Scriptlet.Text.Utf8

/-- An unfinished character. -/
structure Pending where
  /-- Bytes still owed. -/
  owed : Nat
  /-- Least byte that continues the character. -/
  least : Nat
  /-- Greatest byte that continues the character. -/
  greatest : Nat
  /-- Code point bits read so far. -/
  code : Nat
deriving DecidableEq, Repr

/-- Stands for an ill-formed stretch. -/
def replacement : Char := '\uFFFD'

/-- The state after a byte that starts a character, with the characters it completes. -/
def start (b : Nat) : List Char × Option Pending :=
  if b < 0x80 then ([Char.ofNat b], none)
  else if b < 0xC2 then ([replacement], none)
  else if b < 0xE0 then ([], some ⟨1, 0x80, 0xBF, b - 0xC0⟩)
  else if b < 0xF0 then
    ([], some ⟨2, if b = 0xE0 then 0xA0 else 0x80, if b = 0xED then 0x9F else 0xBF, b - 0xE0⟩)
  else if b < 0xF5 then
    ([], some ⟨3, if b = 0xF0 then 0x90 else 0x80, if b = 0xF4 then 0x8F else 0xBF, b - 0xF0⟩)
  else ([replacement], none)

/-- One byte: the characters that it completes and what stays open. A byte that cannot continue
    the open character ends it as ill-formed and starts afresh. -/
def step (pending : Option Pending) (b : Nat) : List Char × Option Pending :=
  match pending with
  | none => start b
  | some p =>
    if p.least ≤ b ∧ b ≤ p.greatest then
      let code := p.code * 64 + (b - 0x80)
      if p.owed ≤ 1 then ([Char.ofNat code], none)
      else ([], some ⟨p.owed - 1, 0x80, 0xBF, code⟩)
    else
      let (done, pending) := start b
      (replacement :: done, pending)

/-- The characters of a byte sequence, from a given state on. -/
def decode : Option Pending → List UInt8 → List Char
  | none, [] => []
  | some _, [] => [replacement]
  | pending, b :: rest =>
    let (done, pending) := step pending b.toNat
    done ++ decode pending rest

/-- The text of a byte sequence. -/
def repair (bytes : List UInt8) : String :=
  String.ofList (decode none bytes)

end Scriptlet.Text.Utf8
