import QuoteScript.Expansion.Expand
import QuoteScript.Grammar.Program

/-!
# `QuoteScript.Session.Run`: from source text to an answer

A source text is parsed, its macros are defined and expanded, and what
is left is evaluated. A text that does not parse, and a macro that is
misused, fail the run; a fault of the program is its answer.

Bindings land in the two scopes that a run is given, one for values and
one for macros. A later run with the same scopes goes on where an
earlier one left off.
-/

set_option autoImplicit false

namespace QuoteScript

/-- Why a run has no answer. -/
inductive Failure where
  | syntaxErrors (errors : List Diagnostic)
  | misuse (misuse : Misuse)
  deriving DecidableEq, Repr

/-- Why a run has no answer, in words. -/
def Failure.message : Failure → String
  | syntaxErrors errors =>
    errors.length.repr ++ " parse error(s):\n" ++
      "\n".intercalate (errors.map fun e => "\t" ++ e.message)
  | misuse m => m.message

/-- Computations that may fail. -/
abbrev RunM : Type → Type :=
  ExceptT Failure EvalM

/-- A computation that may end in a misuse, as part of a run. -/
def liftMisuse {α : Type} (x : ExceptT Misuse EvalM α) : RunM α :=
  ExceptT.mk do
    match ← x.run with
    | .ok a => return .ok a
    | .error m => return .error (.misuse m)

/-- Parses a text, defines its macros and expands it. -/
def expand (fuel : Nat) (source : String) (macros : ScopeId) : RunM Program := do
  let parsed := parse source
  -- A text that does not parse leaves the heap as it is.
  if parsed.errors.isEmpty then
    -- From here on the macros are defined, also if the expansion fails.
    let program ← defineMacros macros parsed.program
    liftMisuse (expandProgram fuel macros program)
  else throw (.syntaxErrors parsed.errors)

/-- Runs a text: expands and evaluates it. -/
def run (fuel : Nat) (source : String) (scope macros : ScopeId) : RunM (Option Value) := do
  let program ← expand fuel source macros
  evalProgram fuel scope program

/-- Evaluates a text without any macro step. -/
def evaluate (fuel : Nat) (source : String) (scope : ScopeId) : RunM (Option Value) := do
  let parsed := parse source
  if parsed.errors.isEmpty then evalProgram fuel scope parsed.program
  else throw (.syntaxErrors parsed.errors)

end QuoteScript
