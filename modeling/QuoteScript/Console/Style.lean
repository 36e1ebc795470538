/-!
# `QuoteScript.Console.Style`: colours on a terminal

A painted text starts with the escape sequence of its style and ends
with the sequence that switches every style off. Where the text itself
switches styles off, the style is switched on again.

Whether there are colours is decided by the environment and the
terminal, in `showsColor`.
-/

set_option autoImplicit false

namespace QuoteScript

/-- The styles of the console. -/
inductive Style where
  | red
  | yellow
  | dimmed
  deriving DecidableEq, Repr

namespace Style

/-- The escape sequence that switches a style on. -/
def code : Style → String
  | red => "\x1b[31m"
  | yellow => "\x1b[33m"
  | dimmed => "\x1b[2m"

/-- The escape sequence that switches every style off. -/
def reset : String :=
  "\x1b[0m"

/-- A text in a style, if there are colours. -/
def paint (style : Style) (color : Bool) (text : String) : String :=
  if color then style.code ++ text.replace reset (reset ++ style.code) ++ reset else text

end Style

/-- Whether the console shows colours, given the values of
`CLICOLOR_FORCE`, `NO_COLOR` and `CLICOLOR` and whether the output is
a terminal. The first forces colours, the second forbids them, and the
third can switch them off, by the value `0`. The value `0` of the first
counts as not set. -/
def showsColor (force forbid wish : Option String) (terminal : Bool) : Bool :=
  if force.any (· != "0") then true
  else if forbid.isSome then false
  else terminal && wish != some "0"

end QuoteScript
