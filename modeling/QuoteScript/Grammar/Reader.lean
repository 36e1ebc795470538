import QuoteScript.Grammar.Diagnostic

/-!
# `QuoteScript.Grammar.Reader`: reading tokens one after the other

A reader walks over a list of tokens. It stands on a token, the
current one, and decides by the token behind it, the next one. A
construct is read with the current token on its first token, and
leaves it on its last.

Only the tokens in front of the first end-of-text token count; a
reader that comes to their end stays there.

A reader gives one of three replies. It is done, with a value; it has
failed, and stands on the token from which reading can be taken up
again; or it ran out of steps. In the first two cases it also hands
over what it found wrong, in the order in which it came upon it.
Failing and having found something wrong are two things: a reader may
report and go on, and it may fail without a report of its own when one
has been made before.

* `Cursor.ofTokens` places a reader on a list of tokens.
* `accept` and `expect` move on if the next token is of a given kind.
* `attempt` makes a failure a value.
-/

set_option autoImplicit false

namespace QuoteScript

/-! ### Places in a list of tokens -/

/-- A place in a list of tokens: the tokens from the current one on,
and the token that stands for the end. -/
structure Cursor where
  ahead : List Token
  final : Token

namespace Cursor

/-- The token that ends a list: its first end-of-text token, or one
behind its last token if it has none. -/
def finalOf (tokens : List Token) : Token :=
  -- A list without an end-of-text token is closed by one of no size.
  (tokens.find? (·.kind == .eof)).getD (.eof ((tokens.getLast?.map (·.span.stop)).getD 0))

/-- The place on the first token of a list. -/
def ofTokens (tokens : List Token) : Cursor :=
  ⟨tokens.takeWhile (·.kind != .eof), finalOf tokens⟩

/-- The token that the cursor stands on. -/
def current (c : Cursor) : Token :=
  c.ahead.headD c.final

/-- The token behind the current one. -/
def next (c : Cursor) : Token :=
  c.ahead.tail.headD c.final

/-- The place one token further on. -/
def advance (c : Cursor) : Cursor :=
  { c with ahead := c.ahead.tail }

end Cursor

/-! ### Readers -/

/-- What a reader replies. -/
inductive Reply (α : Type) where
  /-- The reader is done. -/
  | done (value : α) (cursor : Cursor) (found : List Diagnostic)
  /-- The reader has failed, and stands where reading can go on. -/
  | failed (cursor : Cursor) (found : List Diagnostic)
  /-- The reader was given too few steps. -/
  | exhausted

/-- A reader of an `α`. -/
def Reader (α : Type) : Type :=
  Cursor → Reply α

namespace Reader

variable {α β : Type}

/-- The reply of a reader that comes after one that found `found`. -/
def after (found : List Diagnostic) : Reply α → Reply α
  | .done value cursor found' => .done value cursor (found ++ found')
  | .failed cursor found' => .failed cursor (found ++ found')
  | .exhausted => .exhausted

/-- The second reader goes on where the first one ended, and the errors
of the first come first. -/
instance : Monad Reader where
  pure value := fun c => .done value c []
  bind read next := fun c =>
    match read c with
    | .done value c found => after found (next value c)
    | .failed c found => .failed c found
    | .exhausted => .exhausted

/-- The current token. -/
def current : Reader Token := fun c => .done c.current c []

/-- The next token. -/
def next : Reader Token := fun c => .done c.next c []

/-- Moves on to the next token. -/
def advance : Reader Unit := fun c => .done () c.advance []

/-- Reports a diagnostic, and goes on. -/
def report (d : Diagnostic) : Reader Unit := fun c => .done () c [d]

/-- Fails, for a reason that has been reported. -/
def fail : Reader α := fun c => .failed c []

/-- Fails for a reason. -/
def failWith (d : Diagnostic) : Reader α := fun c => .failed c [d]

/-- Gives up for want of steps. -/
def exhausted : Reader α := fun _ => .exhausted

/-- Makes a failure a value. -/
def attempt (read : Reader α) : Reader (Option α) := fun c =>
  match read c with
  | .done value c found => .done (some value) c found
  -- What was found stays found: only the failure is taken back.
  | .failed c found => .done none c found
  | .exhausted => .exhausted

/-- Whether the next token is of a given kind. -/
def nextIs (kind : TokenKind) : Reader Bool := do
  return (← next).kind == kind

/-- Moves on to the next token if it is of a given kind, and reports
it otherwise. -/
def accept (kind : TokenKind) : Reader Bool := do
  let token ← next
  if token.kind = kind then
    advance
    return true
  else
    report (.unexpectedToken kind token.kind token.span)
    return false

/-- Moves on to the next token, which has to be of a given kind. -/
def expect (kind : TokenKind) : Reader Unit := do
  unless ← accept kind do fail

end Reader

end QuoteScript
