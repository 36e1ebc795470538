import QuoteScript.Console.Style
import QuoteScript.Session.Run
import QuoteScript.Value.Render

/-!
# `QuoteScript.Console.Command`: the command line

Given the name of a script, the command runs it and shows its answer.
Without one it reads lines, runs each of them in the scopes of the
lines before, and shows each answer.

* `Options.ofArgs` reads the arguments.
* `scriptReport` says what a script prints.
* `Prompt.feed` says what a line at the prompt prints, and `transcript`
  what a whole dialogue prints.
-/

set_option autoImplicit false

namespace QuoteScript

/-! ### Arguments -/

/-- What the command is asked for. -/
structure Options where
  /-- The script to run. -/
  script : Option String := none
  /-- Whether colours may be used. -/
  color : Bool := true
  /-- Whether programs are shown, after expansion and before they are
  evaluated. -/
  dumpTree : Bool := false

/-- Reads the arguments of the command. -/
def Options.ofArgs (args : List String) : Options :=
  args.foldl
    (fun options arg =>
      if arg = "--no-color" then { options with color := false }
      else if arg = "--dump-ast" then { options with dumpTree := true }
      else { options with script := some arg })
    {}

/-! ### Reports -/

/-- What a command prints, and the code with which it ends. -/
structure Report where
  exit : Nat := 0
  out : String := ""
  err : String := ""
  deriving DecidableEq, Repr

/-- A line of text. -/
def line (text : String) : String :=
  text ++ "\n"

/-- The report of a failure, behind what was printed before. -/
def Report.failure (out message : String) : Report :=
  { exit := 1, out, err := line ("Error: " ++ message) }

/-- Why a computation was given up, in words. -/
def Stop.message : Stop → String
  | outOfFuel => "evaluation was given up"
  | defect _ => "internal defect"

/-- The answer of a run on the console. -/
def showAnswer (color : Bool) (v : Value) : String :=
  match v with
  | .fault _ => Style.red.paint color v.render
  | .null => Style.dimmed.paint color v.render
  | _ => v.render

/-! ### Scripts -/

/-- The message for a script that is not there. -/
def missingScript (name : String) : String :=
  let cause := "No such file or directory (os error 2)"
  "could not open " ++ name ++ "\n\nCaused by:\n    0: could not read source: " ++ cause ++
    "\n    1: " ++ cause

/-- The two scopes of a run, both empty. -/
def freshScopes : EvalM (ScopeId × ScopeId) := do
  let scope ← EvalM.newScope none
  let macros ← EvalM.newScope none
  return (scope, macros)

/-- What a script prints. -/
def scriptReport (fuel : Nat) (color dumpTree : Bool) (source : String) : Report :=
  match (do
    let (scope, macros) ← freshScopes
    match ← (expand fuel source macros).run with
    | .error e => return Report.failure "" e.message
    | .ok program =>
      let dump := if dumpTree then line (Program.render program) else ""
      match ← evalProgram fuel scope program with
      | some (.fault f) => return Report.failure dump f.message
      | some v => return { out := dump ++ line (showAnswer color v) }
      | none => return { out := dump } : EvalM Report).run {} with
  | .ok (report, _) => report
  | .error stop => Report.failure "" stop.message

/-! ### The prompt -/

/-- What stands in front of each line that is read. -/
def promptText : String :=
  ">> "

/-- What is printed before the first line is read. -/
def greeting : String :=
  line "Hello! Welcome to the Banana programming language!" ++ line "Type in commands"

/-- A dialogue: the heap, and the two scopes of its lines. -/
structure Prompt where
  heap : Heap
  scope : ScopeId
  macros : ScopeId

/-- The beginning of a dialogue. -/
def Prompt.start : Prompt :=
  let (scope, heap) := Heap.newScope {} none
  let (macros, heap) := heap.newScope none
  ⟨heap, scope, macros⟩

/-- What a failure of a line prints. -/
def failureText (color : Bool) : Failure → String
  | .syntaxErrors errors =>
    line (Style.yellow.paint color "Woops! We ran into some banana business here!") ++
      line " parser errors:" ++
      String.join (errors.map fun e => line ("\t" ++ Style.red.paint color e.message))
  | .misuse m => line (Style.red.paint color m.message)

/-- What a line prints. -/
def lineText (fuel : Nat) (color dumpTree : Bool) (scope macros : ScopeId) (source : String) :
    EvalM String := do
  match ← (expand fuel source macros).run with
  | .error e => return failureText color e
  | .ok program =>
    let dump :=
      if dumpTree then line (Style.dimmed.paint color (Program.render program)) else ""
    match ← evalProgram fuel scope program with
    | some v => return dump ++ line (showAnswer color v)
    | none => return dump

/-- Runs a line at the prompt: what it prints, and the dialogue behind
it. -/
def Prompt.feed (fuel : Nat) (color dumpTree : Bool) (p : Prompt) (source : String) :
    Except Stop (String × Prompt) :=
  match (lineText fuel color dumpTree p.scope p.macros source).run p.heap with
  | .ok (text, heap) => .ok (text, { p with heap })
  | .error stop => .error stop

/-- What the rest of a dialogue prints, from a prompt on. -/
def transcriptFrom (fuel : Nat) (color dumpTree : Bool) (p : Prompt) : List String → Report
  | [] => { out := promptText }
  | source :: rest =>
    match p.feed fuel color dumpTree source with
    | .error stop => Report.failure promptText stop.message
    | .ok (text, p) =>
      let report := transcriptFrom fuel color dumpTree p rest
      { report with out := promptText ++ text ++ report.out }

/-- What a dialogue prints. -/
def transcript (fuel : Nat) (color dumpTree : Bool) (sources : List String) : Report :=
  let report := transcriptFrom fuel color dumpTree .start sources
  { report with out := greeting ++ report.out }

/-- The lines of a text, each with the line feed that ends it. -/
def linesOf (text : List Char) : List (List Char) :=
  match text with
  | [] => []
  | c :: rest =>
    if c = '\n' then [c] :: linesOf rest
    else
      match linesOf rest with
      | [] => [[c]]
      | first :: more => (c :: first) :: more

/-- What the command prints, on a terminal that shows colours or not,
given its arguments, the scripts that there are, and the text at its
input. -/
def commandReport (fuel : Nat) (terminal : Bool) (args : List String)
    (script? : String → Option String) (input : String) : Report :=
  let options := Options.ofArgs args
  let color := terminal && options.color
  match options.script with
  | none => transcript fuel color options.dumpTree ((linesOf input.toList).map String.ofList)
  | some name =>
    match script? name with
    | none => Report.failure "" (missingScript name)
    | some source => scriptReport fuel color options.dumpTree source

end QuoteScript
