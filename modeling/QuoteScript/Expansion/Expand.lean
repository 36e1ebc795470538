import QuoteScript.Eval.Expression
import QuoteScript.Expansion.Misuse

/-!
# `QuoteScript.Expansion.Expand`: macros

Macros are expanded before a program is evaluated, in two steps.

* `defineMacros` takes the top-level statements that bind a name to a
  macro literal out of the program, and binds the names in the scope of
  macros. A definition may stand behind the calls it serves.
* `expandProgram` replaces each call of a macro by the tree that the
  body of the macro quotes. The body is evaluated in a scope of its
  own, with the arguments as quotes: an argument is not evaluated
  before the macro is done with it.

Expansion is one pass from the bottom up. Macro calls among the
arguments are expanded before the call around them, and a tree that
takes the place of a call is not expanded again. The first misuse in
that order ends the expansion.
-/

set_option autoImplicit false

namespace QuoteScript

/-! ### Definitions -/

/-- The name, the parameters and the body that a statement defines a
macro with, if it does. -/
def macroDefinition? : Stmt → Option (String × List String × Block)
  | .letIn _ name (.lambda _ .macroRule params body) => some (name, params, body)
  | _ => none

/-- Binds the macros that a program defines, in order, and gives back
the other statements. -/
def defineMacros (macros : ScopeId) : Program → EvalM Program
  | [] => return []
  | s :: rest =>
    match macroDefinition? s with
    | some (name, params, body) => do
      -- Macros close over the scope of macros and see each other, whatever their order.
      let v ← EvalM.newClosure .macroRule params body macros
      EvalM.bindName macros name v
      defineMacros macros rest
    | none => do
      let rest ← defineMacros macros rest
      return s :: rest

/-! ### Calls -/

/-- The name and the arguments of a call of a name. -/
def namedCall? : Node → Option (String × List Expr)
  | .expr (.call _ (.ident _ name) args) => some (name, args)
  | _ => none

/-- Quotes expressions as they are. -/
def quoteAll : List Expr → EvalM (List Value)
  | [] => return []
  | e :: rest => do
    let v ← EvalM.newQuote (.expr e)
    let rest ← quoteAll rest
    return v :: rest

/-- The tree that a macro body gave, or what is wrong with its
value. -/
def quotedTree (name : String) : Value → Except Misuse Node
  | .quote _ node => .ok node
  | .fault f => .error (.evaluation name f.message)
  -- A macro that quotes nothing is misused even if nobody needs its value.
  | v => .error (.notAQuote name v.kind)

/-- Replaces a call of a macro by the tree that its body quotes, and
leaves every other node as it is. -/
def expandCall (eval : Evaluator) (macros : ScopeId) (node : Node) : ExceptT Misuse EvalM Node :=
  match namedCall? node with
  | none => return node
  | some (name, args) => do
    match ← EvalM.lookup macros name with
    | some (.closure .macroRule _ params body outer) =>
      -- The arguments are counted before the body is evaluated.
      if params.length = args.length then
        let quotes ← quoteAll args
        let v ← evalClosureBody eval params body outer quotes
        match quotedTree name v with
        | .ok tree => return tree
        | .error misuse => throw misuse
      else throw (.wrongArgumentCount name params.length args.length)
    -- A name that is bound to no macro is left to the evaluator.
    | _ => return node

/-- The program that a node is. -/
def programOf : Node → EvalM Program
  | .program p => pure p
  | _ => EvalM.defect .programReplaced

/-- Expands the calls of macros in a program. -/
def expandProgram (fuel : Nat) (macros : ScopeId) (program : Program) :
    ExceptT Misuse EvalM Program := do
  -- The program itself is handed to `expandCall` last, and is no call.
  let node ← Node.transformM (expandCall (evalExpr fuel) macros) (.program program)
  programOf node

end QuoteScript
