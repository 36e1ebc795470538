import QuoteScript.Scope.Heap

/-!
# `QuoteScript.Eval.Monad`: computations on the heap

A computation reads and changes the heap and ends with an answer,
unless it stops. It stops when it was given too little fuel, or when a
partial operation met an argument outside its domain. The second kind
of stop is a defect: each partial operation stands behind a check that
keeps it from happening, and the constructors of `Defect` name the
places where one would show.

A fault of the program that is evaluated is neither: it is an answer.
-/

set_option autoImplicit false

namespace QuoteScript

/-- The partial operations, by what is wrong with their argument. -/
inductive Defect where
  /-- A native function was given fewer arguments than it takes. -/
  | missingArgument
  /-- The items behind the first one were asked of an empty array. -/
  | emptyArray
  /-- An integer was divided by zero. -/
  | zeroDivisor
  /-- The smallest integer was negated where the result has to be
  positive. -/
  | negationOverflow
  /-- The expansion of a program was no program. -/
  | programReplaced
  deriving DecidableEq, Repr

/-- Why a computation ends without an answer. -/
inductive Stop where
  | outOfFuel
  | defect (defect : Defect)
  deriving DecidableEq, Repr

/-- Computations on the heap. -/
abbrev EvalM : Type → Type :=
  StateT Heap (Except Stop)

namespace EvalM

/-- Stops for want of fuel. -/
def outOfFuel {α : Type} : EvalM α :=
  throw .outOfFuel

/-- Stops because of a defect. -/
def defect {α : Type} (d : Defect) : EvalM α :=
  throw (.defect d)

/-- What a name means in a scope. -/
def lookup (scope : ScopeId) (name : String) : EvalM (Option Value) := do
  return (← get).lookup scope name

/-- Binds a name in a scope. -/
def bindName (scope : ScopeId) (name : String) (value : Value) : EvalM Unit :=
  modify (·.bind scope name value)

/-- Makes a scope. -/
def newScope (parent : Option ScopeId) : EvalM ScopeId :=
  modifyGet (·.newScope parent)

/-- Makes a handle. -/
def newHandle : EvalM Handle :=
  modifyGet (·.newHandle)

/-- Makes an array. -/
def newArray (items : List Value) : EvalM Value := do
  return .array (← newHandle) items

/-- Makes a dict. -/
def newDict (entries : List (Key × Value)) : EvalM Value := do
  return .dict (← newHandle) entries

/-- Makes a closure over a scope. -/
def newClosure (kind : LambdaKind) (params : List String) (body : Block) (scope : ScopeId) :
    EvalM Value := do
  return .closure kind (← newHandle) params body scope

/-- Makes a quote. -/
def newQuote (node : Node) : EvalM Value := do
  return .quote (← newHandle) node

/-- Binds names to values in a scope, one after the other. Names
without a value and values without a name are left out. -/
def bindAll (scope : ScopeId) : List String → List Value → EvalM Unit
  | name :: names, value :: values => do
    bindName scope name value
    bindAll scope names values
  | _, _ => pure ()

end EvalM

end QuoteScript
