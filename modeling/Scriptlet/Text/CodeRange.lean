set_option autoImplicit false

/-! # Ranges of code points

A set of characters that a standard lists is kept as the closed ranges of its code points, in
rising order with a gap between neighbours. `covers` looks a code point up and stops at the first
range that reaches it, so characters early in the table cost little. -/

namespace Scriptlet.Text

/-- Whether a code point lies in one of the ranges, which are ascending. -/
def covers : List (Nat × Nat) → Nat → Bool
  | [], _ => false
  | (least, greatest) :: rest, n => if n ≤ greatest then least ≤ n else covers rest n

end Scriptlet.Text
