import Scriptlet.CommandLine

set_option autoImplicit false

/-! # The program

Reads arguments and a file, and writes what the library answers. -/

open Scriptlet CommandLine

/-- The text of a file, or why there is none. -/
def readSource (path : String) : IO (Except String String) := do
  try
    let bytes ← IO.FS.readBinFile path
    match String.fromUTF8? bytes with
    | some text => return .ok text
    | none => return .error "stream did not contain valid UTF-8"
  catch
    | .noFileOrDirectory .. => return .error missingFile
    | e => return .error (toString e)

/-- Writes what is left behind and yields the exit code. -/
def Scriptlet.CommandLine.Exit.deliver (exit : Exit) : IO UInt32 := do
  IO.print exit.stdout
  IO.eprint exit.stderr
  return exit.code.toUInt32

def main (arguments : List String) : IO UInt32 := do
  match Options.takeAll {} arguments with
  | .error refusal => refusal.exit.deliver
  | .ok options =>
    match options.exit ampleLevels (← readSource options.input) with
    | some exit => exit.deliver
    | none => return 1
