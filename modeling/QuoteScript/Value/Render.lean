import QuoteScript.Tree.Render
import QuoteScript.Value.Basic

/-!
# `QuoteScript.Value.Render`: values as text

The text of a value is what a run shows of it. Strings show without
quotes, also inside arrays and dicts. A function shows its parameters
and its body, a quote the tree it holds.
-/

set_option autoImplicit false

namespace QuoteScript

/-- The text of a key. -/
def Key.render : Key → String
  | .int n => Text.writeInt n
  | .bool true => "true"
  | .bool false => "false"
  | .str s => s

mutual

/-- The text of a value. -/
def Value.render : Value → String
  | .int n => Text.writeInt n
  | .bool true => "true"
  | .bool false => "false"
  | .null => "null"
  | .str s => s
  | .array _ items => "[" ++ commaSeparated (renderItems items) ++ "]"
  | .dict _ entries => "\x7b" ++ commaSeparated (renderEntries entries) ++ "\x7d"
  | .closure kind _ params body _ => lambdaHead kind params ++ body.render
  | .native _ => "builtin function"
  | .quote _ node => "QUOTE(" ++ node.render ++ ")"
  | .returned v => v.render
  | .fault f => "ERROR: " ++ f.message

/-- The texts of values. -/
def renderItems : List Value → List String
  | [] => []
  | v :: rest => v.render :: renderItems rest

/-- The texts of the entries of a dict. -/
def renderEntries : List (Key × Value) → List String
  | [] => []
  | (key, value) :: rest => (key.render ++ ": " ++ value.render) :: renderEntries rest

end

/-- A key reads like the value that it is. -/
theorem Key.render_toValue (key : Key) : key.toValue.render = key.render := by
  cases key with
  | int n => rfl
  | bool b => cases b <;> rfl
  | str s => rfl

end QuoteScript
