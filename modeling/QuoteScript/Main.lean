import QuoteScript.Console.Command

/-!
# `QuoteScript.Main`: the program

The outer layer: it reads files, lines and arguments, and prints what
`QuoteScript.Console.Command` says.
-/

set_option autoImplicit false

namespace QuoteScript

/-- Fuel for more levels of nesting than any stack holds. -/
def ampleFuel : Nat :=
  1000000000000000

/-- Prints a report and gives back the code with which it ends. -/
def Report.print (report : Report) : IO UInt32 := do
  IO.print report.out
  IO.eprint report.err
  return report.exit.toUInt32

/-- Reads lines and runs them, until there are none left. -/
partial def dialogue (color dumpTree : Bool) (p : Prompt) : IO UInt32 := do
  let stdin ← IO.getStdin
  let stdout ← IO.getStdout
  stdout.putStr promptText
  stdout.flush
  let source ← stdin.getLine
  if source.isEmpty then return 0
  match p.feed ampleFuel color dumpTree source with
  | .error stop => (Report.failure "" stop.message).print
  | .ok (text, p) =>
    stdout.putStr text
    dialogue color dumpTree p

/-- Runs the command with its arguments. -/
def command (args : List String) : IO UInt32 := do
  let options := Options.ofArgs args
  let terminal ← (← IO.getStdout).isTty
  let force ← IO.getEnv "CLICOLOR_FORCE"
  let forbid ← IO.getEnv "NO_COLOR"
  let wish ← IO.getEnv "CLICOLOR"
  let color := options.color && showsColor force forbid wish terminal
  match options.script with
  | none =>
    IO.print greeting
    dialogue color options.dumpTree .start
  | some name =>
    match ← (IO.FS.readFile name).toBaseIO with
    | .error _ => (Report.failure "" (missingScript name)).print
    | .ok source => (scriptReport ampleFuel color options.dumpTree source).print

end QuoteScript

/-- The entry point. -/
def main (args : List String) : IO UInt32 :=
  QuoteScript.command args
