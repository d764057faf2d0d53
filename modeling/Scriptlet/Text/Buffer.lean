import Scriptlet.Text.Utf8

set_option autoImplicit false

/-! # Byte buffers

Output collected in memory, chunk by chunk. A character may be split over two chunks: the text is
read from all bytes together. -/

namespace Scriptlet.Text

/-- Bytes written so far, in order. -/
structure Buffer where
  bytes : List UInt8 := []
deriving DecidableEq, Repr

namespace Buffer

/-- Writing never fails and takes the whole chunk. -/
def write (buffer : Buffer) (chunk : List UInt8) : Buffer :=
  ⟨buffer.bytes ++ chunk⟩

/-- The text of everything written. -/
def contents (buffer : Buffer) : String :=
  Utf8.repair buffer.bytes

end Buffer

end Scriptlet.Text
