import QuoteScript.Tree.Same
import QuoteScript.Value.Basic

/-!
# `QuoteScript.Value.Same`: identity and equality of values

The language compares values other than integers by identity: scalars
by value, everything that a run made by its handle. Strings and
integers are not compared in this way at all.

Equality looks inside. Two arrays are equal when their items are, two
dicts when they have the same keys with equal values, in whatever
order, two quotes when they hold the same tree up to tokens, and two
faults when they read the same. Closures are equal only when they are
identical.
-/

set_option autoImplicit false

namespace QuoteScript

/-- Whether two values are the same one. -/
def Value.identical : Value → Value → Bool
  | .bool a, .bool b => a == b
  | .null, .null => true
  | .array a _, .array b _ => a == b
  | .dict a _, .dict b _ => a == b
  | .closure kind a _ _ _, .closure kind' b _ _ _ => kind == kind' && a == b
  | .quote a _, .quote b _ => a == b
  | .native a, .native b => a == b
  | _, _ => false

mutual

/-- Whether two values are equal. -/
def Value.same : Value → Value → Bool
  | .int a, .int b => a == b
  | .str a, .str b => a == b
  | .fault a, .fault b => a.message == b.message
  | .array _ as, .array _ bs => sameItems as bs
  -- As many entries on both sides, so one inclusion is enough.
  | .dict _ as, .dict _ bs => as.length == bs.length && entriesWithin bs as
  | .quote _ a, .quote _ b => a.same b
  | .returned a, .returned b => a.same b
  -- Scalars, native functions and closures; values of two kinds are never equal.
  | a, b => a.identical b

/-- Whether two lists of values are equal, item by item. -/
def sameItems : List Value → List Value → Bool
  | [], [] => true
  | a :: as, b :: bs => a.same b && sameItems as bs
  | _, _ => false

/-- Whether every entry of a list has an equal one in `bs`. -/
def entriesWithin (bs : List (Key × Value)) : List (Key × Value) → Bool
  | [] => true
  | (key, value) :: as =>
    -- The other dict is asked by key, so the order of the entries plays no part.
    (match valueUnder? key bs with
      | some value' => value.same value'
      | none => false)
      && entriesWithin bs as

end

end QuoteScript
