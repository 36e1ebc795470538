/-!
# `QuoteScript.Value.Native`: the functions that every program has

Six names stand for functions that no program defines. A program may
bind the same names, and then its own bindings count.
-/

set_option autoImplicit false

namespace QuoteScript

/-- The functions that every program has. -/
inductive Native where
  | len
  | first
  | last
  | rest
  | push
  | typeof
  deriving DecidableEq, Repr

namespace Native

/-- All native functions. -/
def all : List Native :=
  [len, first, last, rest, push, typeof]

/-- The name of a native function. -/
def name : Native → String
  | len => "len"
  | first => "first"
  | last => "last"
  | rest => "rest"
  | push => "push"
  | typeof => "typeof"

/-- The number of arguments that a native function takes. -/
def arity : Native → Nat
  | push => 2
  | _ => 1

/-- The native function of a given name. -/
def ofName? (name : String) : Option Native :=
  all.find? (·.name == name)

/-- No two native functions have the same name. -/
theorem ofName?_name (native : Native) : ofName? native.name = some native := by
  cases native <;> rfl

end Native

end QuoteScript
