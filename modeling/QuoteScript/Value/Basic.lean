import QuoteScript.Value.Fault

/-!
# `QuoteScript.Value.Basic`: values

Integers, booleans, null and strings are what they are. Arrays, dicts,
closures and quotes are made by a run, one at a time, and each carries
a handle that tells it from all the others: two arrays with the same
items are equal but not identical.

A closure is a function or a macro together with the scope it was
written in.

Two values never stay: a pending `return` and a fault. They *unwind*,
that is, whatever is being evaluated is abandoned until a call or the
program takes the returned value, or until the fault is the answer.

* `Value.key?` says which key a value is in a dict, if it can be one;
  `Value.key?_eq_some_iff` says that this loses nothing.
* `valueUnder?` and `putEntry` read and change the entries of a dict.
-/

set_option autoImplicit false

namespace QuoteScript

/-- What tells a value that was made by a run from every other one. -/
structure Handle where
  number : Nat
  deriving DecidableEq, Repr

/-- The name of a scope. -/
structure ScopeId where
  number : Nat
  deriving DecidableEq, Repr

/-- What can be a key in a dict. Keys of different kinds never meet. -/
inductive Key where
  | int (value : Int64)
  | bool (value : Bool)
  | str (value : String)
  deriving DecidableEq, Repr

/-- The values of the language. The entries of a dict stand in the
order in which their keys were first given. -/
inductive Value where
  | int (value : Int64)
  | bool (value : Bool)
  | null
  | str (value : String)
  | array (handle : Handle) (items : List Value)
  | dict (handle : Handle) (entries : List (Key × Value))
  | closure (kind : LambdaKind) (handle : Handle) (params : List String) (body : Block)
      (scope : ScopeId)
  | native (native : Native)
  | quote (handle : Handle) (node : Node)
  | returned (value : Value)
  | fault (fault : Fault)

/-- A key, as the value that it is. -/
def Key.toValue : Key → Value
  | int n => .int n
  | bool b => .bool b
  | str s => .str s

namespace Value

/-- The kind of a value. -/
def kind : Value → ValueKind
  | int _ => .integer
  | bool _ => .boolean
  | null => .null
  | str _ => .string
  | array _ _ => .array
  | dict _ _ => .dict
  | closure .function _ _ _ _ => .function
  | closure .macroRule _ _ _ _ => .macroRule
  | native _ => .native
  | quote _ _ => .quote
  | returned _ => .returned
  | fault _ => .fault

/-- Whether a condition takes a value for true: all but null and
`false` are. -/
def isTruthy : Value → Bool
  | null | bool false => false
  | _ => true

/-- The key that a value is in a dict, if it can be one. -/
def key? : Value → Option Key
  | int n => some (.int n)
  | bool b => some (.bool b)
  | str s => some (.str s)
  | _ => none

/-- Whether a value abandons what is being evaluated. -/
def isUnwinding : Value → Bool
  | returned _ | fault _ => true
  | _ => false

/-- The value that a pending `return` carries; any other value is
itself. -/
def unwrapReturn : Value → Value
  | returned v => v
  | v => v

end Value

/-- The values that can be keys are exactly those that are one. -/
theorem Value.key?_eq_some_iff {v : Value} {key : Key} : v.key? = some key ↔ v = key.toValue := by
  constructor
  · intro h
    cases v with
    | int n => cases h; rfl
    | bool b => cases h; rfl
    | str s => cases h; rfl
    | _ => contradiction
  · intro h
    subst h
    cases key <;> rfl

/-! ### Entries of a dict -/

/-- The value that stands under a key. -/
def valueUnder? (key : Key) (entries : List (Key × Value)) : Option Value :=
  entries.lookup key

/-- Puts a value under a key. An entry with the same key is replaced
where it stands; a new one comes last. -/
def putEntry (key : Key) (value : Value) : List (Key × Value) → List (Key × Value)
  | [] => [(key, value)]
  | entry :: rest =>
    if entry.1 = key then (key, value) :: rest else entry :: putEntry key value rest

end QuoteScript
