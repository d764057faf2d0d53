import Scriptlet.Session.Run

set_option autoImplicit false

/-! # Command line

What the arguments of the program ask for, and what it answers. Arguments are taken from left to
right. Each option may stand once; anything unknown, repeated or incomplete is a usage error, and
the first argument that asks for the version or for help is answered if no error stands before
it. -/

namespace Scriptlet.CommandLine

/-- The name and version of the program. -/
def versionLine : String := "brash 0.1.0\n"

/-- The program that is run if none is named. -/
def defaultPath : String := "main.brash"

/-- How the program is called. -/
def usage : String :=
  "Usage: brash [OPTIONS] [INPUT]\n"

/-- All that can be said on the command line. -/
def help : String :=
  usage ++ "\n" ++
  "Arguments:\n" ++
  "  [INPUT]  Program to run [default: main.brash]\n\n" ++
  "Options:\n" ++
  "  -v, --verbose                Print verbose log output\n" ++
  "      --max-depth <MAX_DEPTH>  Maximum nesting of function calls and eval [default: 64]\n" ++
  "      --no-eval                Make every eval(...) fail\n" ++
  "  -h, --help                   Print help\n" ++
  "  -V, --version                Print version\n"

/-! ## Arguments -/

/-- What arguments have set so far. -/
structure Options where
  path : Option String := none
  verbose : Bool := false
  maxDepth : Option Nat := none
  noEval : Bool := false
deriving DecidableEq, Repr

/-- Why arguments do not lead to a run. -/
inductive Refusal where
  | usage
  | version
  | help
deriving DecidableEq, Repr

/-- One more than the greatest depth that can be set. -/
def depthBound : Nat := 1 <<< 64

/-- The number that an argument spells: digits, with or without a plus sign in front. -/
def depthOf? (argument : String) : Option Nat :=
  let digits := match argument.toList with
    | '+' :: digits => digits
    | digits => digits
  if digits.isEmpty || !digits.all Text.isDigit then none
  else
    let depth := Decimal.value digits
    if depth < depthBound then some depth else none

namespace Options

/-- Sets the flag for traces. -/
def setVerbose (o : Options) : Except Refusal Options :=
  if o.verbose then .error .usage else .ok { o with verbose := true }

/-- Sets the flag against `eval`. -/
def setNoEval (o : Options) : Except Refusal Options :=
  if o.noEval then .error .usage else .ok { o with noEval := true }

/-- Sets the depth limit. -/
def setMaxDepth (o : Options) (argument : String) : Except Refusal Options :=
  match o.maxDepth, depthOf? argument with
  | none, some depth => .ok { o with maxDepth := some depth }
  | _, _ => .error .usage

/-- Names the program to run. -/
def setPath (o : Options) (argument : String) : Except Refusal Options :=
  if o.path.isSome || argument.isEmpty then .error .usage
  else .ok { o with path := some argument }

/-- Takes options of one letter written together. -/
def takeLetters (o : Options) : List Char → Except Refusal Options
  | [] => .ok o
  | 'v' :: letters => do (← o.setVerbose).takeLetters letters
  | 'V' :: _ => .error .version
  | 'h' :: _ => .error .help
  | _ => .error .usage

/-- Takes arguments none of which is an option. -/
def takePaths (o : Options) : List String → Except Refusal Options
  | [] => .ok o
  | argument :: arguments => do (← o.setPath argument).takePaths arguments

/-- Takes an argument that starts with two dashes and needs no other one. -/
def takeWord (o : Options) (argument : String) : Except Refusal Options :=
  match argument with
  | "--verbose" => o.setVerbose
  | "--no-eval" => o.setNoEval
  | "--version" => .error .version
  | "--help" => .error .help
  | _ =>
    match (argument.toList.takeWhile (· != '='), argument.toList.dropWhile (· != '=')) with
    | (word, _ :: depth) =>
      if String.ofList word = "--max-depth" then o.setMaxDepth (String.ofList depth)
      else .error .usage
    | _ => .error .usage

/-- Takes all arguments. -/
def takeAll (o : Options) : List String → Except Refusal Options
  | [] => .ok o
  | "--" :: arguments => o.takePaths arguments
  | "--max-depth" :: [] => .error .usage
  | "--max-depth" :: depth :: arguments => do (← o.setMaxDepth depth).takeAll arguments
  | argument :: arguments => do
    let o ← match argument.toList with
      | '-' :: '-' :: _ => o.takeWord argument
      | '-' :: letter :: letters => o.takeLetters (letter :: letters)
      | _ => o.setPath argument
    o.takeAll arguments

/-- The path of the program to run. -/
def input (o : Options) : String :=
  o.path.getD defaultPath

/-- The settings of the run. -/
def settings (o : Options) : Settings where
  maxDepth := o.maxDepth.getD defaultMaxDepth
  verbose := o.verbose
  dynamic := if o.noEval then .disabled else .expression

end Options

/-! ## Answers -/

/-- What the program leaves behind. -/
structure Exit where
  code : UInt8
  stdout : String := ""
  stderr : String := ""
deriving DecidableEq, Repr

/-- The answer to arguments that do not lead to a run. -/
def Refusal.exit : Refusal → Exit
  | usage => { code := 2, stderr := CommandLine.usage }
  | version => { code := 0, stdout := versionLine }
  | help => { code := 0, stdout := CommandLine.help }

/-- What a missing file is reported as. -/
def missingFile : String := "No such file or directory (os error 2)"

/-- The exit code for a run that has no result: a crash has one of its own. -/
def exitCode : ProgramError → UInt8
  | .failed .crash => 101
  | _ => 1

/-- Runs the program that was read, or reports why it could not be read; nothing if the run does not
    end. -/
def Options.exit (o : Options) (levels : Nat) (source : Except String String) : Option Exit :=
  let opening := if o.verbose then [Notice.trace (.reading o.input)] else []
  match source with
  | .error cause => some { code := 1, stderr := Notice.lines opening ++ cause ++ "\n" }
  | .ok source =>
    (runSource o.settings levels source).map fun report =>
      let stderr := Notice.lines (opening ++ report.notices)
      match report.result with
      | .ok _ => { code := 0, stdout := report.output, stderr }
      | .error e =>
        { code := exitCode e, stdout := report.output, stderr := stderr ++ e.message ++ "\n" }

end Scriptlet.CommandLine
