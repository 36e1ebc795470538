import QuoteScript.Grammar.Program

/-!
# `QuoteScript.Proofs.Grammar.Reading`: how readers run

A reader is a function of a cursor. The lemmas of the first part say
what the basic readers reply, also in front of the rest of a reader,
so that the run of a longer reader can be followed step by step. A
run is *clean* when it finds nothing wrong.

The second part follows the tokens. `Cursor.Spans c c' ts` says that
`ts` are the tokens from the one `c` stands on to the one `c'` stands
on, both included. `Cursor.Within c c'` only says that `c'` stands no
earlier than `c`.
-/

set_option autoImplicit false

namespace QuoteScript

variable {α β : Type}

/-! ### Cursors -/

namespace Cursor

/-- The current token is the first one ahead. -/
@[simp]
theorem current_cons (t final : Token) (ts : List Token) :
    (⟨t :: ts, final⟩ : Cursor).current = t := rfl

/-- Going on drops the first token ahead. -/
@[simp]
theorem advance_cons (t final : Token) (ts : List Token) :
    (⟨t :: ts, final⟩ : Cursor).advance = ⟨ts, final⟩ := rfl

/-- What is ahead after going on is what was ahead, without its first
token. -/
@[simp]
theorem ahead_advance (c : Cursor) : c.advance.ahead = c.ahead.tail := rfl

/-- Going on makes the next token the current one. -/
@[simp]
theorem current_advance (c : Cursor) : c.advance.current = c.next := rfl

/-- The last token of a cursor is an end-of-text token. -/
def Closed (c : Cursor) : Prop :=
  c.final.kind = .eof

/-- A cursor on a list of tokens is closed. -/
theorem closed_ofTokens (tokens : List Token) : (ofTokens tokens).Closed := by
  show (finalOf tokens).kind = .eof
  unfold finalOf
  cases hfind : tokens.find? (·.kind == .eof) with
  | none => rfl
  | some t =>
      have ht := List.find?_some hfind
      exact eq_of_beq ht

/-- The current token of a closed cursor stands in the list, unless it
is the end of the text. -/
theorem ahead_eq_of_current {c : Cursor} (hc : c.Closed) (h : c.current.kind ≠ .eof) :
    c.ahead = c.current :: c.ahead.tail := by
  obtain ⟨ahead, final⟩ := c
  cases ahead with
  | nil => exact absurd hc h
  | cons t ts => rfl

/-- The next token of a closed cursor stands in the list, unless it is
the end of the text. -/
theorem tail_ahead_eq_of_next {c : Cursor} (hc : c.Closed) (h : c.next.kind ≠ .eof) :
    c.ahead.tail = c.next :: c.ahead.tail.tail :=
  ahead_eq_of_current (c := c.advance) hc h

end Cursor

/-! ### Replies -/

namespace Reader

/-- A reply behind no errors is the reply. -/
@[simp]
theorem after_nil (reply : Reply α) : after [] reply = reply := by
  cases reply <;> rfl

/-- The run of two readers in a row. -/
theorem bind_run (read : Reader α) (next : α → Reader β) (c : Cursor) :
    (read >>= next) c
      = match read c with
        | .done a c' found => after found (next a c')
        | .failed c' found => .failed c' found
        | .exhausted => .exhausted := rfl

/-- The run of two readers in a row, when the first one is clean. -/
theorem bind_of_done {read : Reader α} {next : α → Reader β} {c c' : Cursor} {a : α}
    (h : read c = .done a c' []) : (read >>= next) c = next a c' := by
  rw [bind_run, h]
  exact after_nil _

/-! ### Basic readers -/

/-- A reader that reads nothing. -/
@[simp]
theorem pure_run (a : α) (c : Cursor) : (pure a : Reader α) c = .done a c [] := rfl

/-- A reader goes on with the current token. -/
@[simp]
theorem current_bind_run (k : Token → Reader β) (c : Cursor) :
    (current >>= k) c = k c.current c :=
  bind_of_done rfl

/-- A reader goes on with the next token. -/
@[simp]
theorem next_bind_run (k : Token → Reader β) (c : Cursor) : (next >>= k) c = k c.next c :=
  bind_of_done rfl

/-- A reader goes on one token ahead. -/
@[simp]
theorem advance_bind_run (k : Unit → Reader β) (c : Cursor) :
    (advance >>= k) c = k () c.advance :=
  bind_of_done rfl

/-- A reader that has failed does not go on. -/
@[simp]
theorem fail_bind_run (k : α → Reader β) (c : Cursor) :
    ((fail : Reader α) >>= k) c = .failed c [] := rfl

/-- A reader goes on with whether the next token has a kind. -/
@[simp]
theorem nextIs_bind_run (kind : TokenKind) (k : Bool → Reader β) (c : Cursor) :
    (nextIs kind >>= k) c = k (c.next.kind == kind) c :=
  bind_of_done rfl

/-- `accept` moves on, or reports the next token and stays. -/
theorem accept_run (kind : TokenKind) (c : Cursor) :
    accept kind c
      = if c.next.kind = kind then .done true c.advance []
        else .done false c [.unexpectedToken kind c.next.kind c.next.span] := by
  unfold accept
  rw [next_bind_run]
  split <;> rfl

/-- `accept` in front of the rest of a reader. -/
theorem accept_bind_run (kind : TokenKind) (k : Bool → Reader β) (c : Cursor) :
    (accept kind >>= k) c
      = if c.next.kind = kind then k true c.advance
        else after [.unexpectedToken kind c.next.kind c.next.span] (k false c) := by
  rw [bind_run, accept_run]
  by_cases hkind : c.next.kind = kind
  · rw [if_pos hkind, if_pos hkind]
    exact after_nil _
  · rw [if_neg hkind, if_neg hkind]

/-- The same when the answer of `accept` does not count. -/
theorem discard_accept_bind_run (kind : TokenKind) (k : Unit → Reader β) (c : Cursor) :
    ((discard (accept kind) : Reader Unit) >>= k) c
      = if c.next.kind = kind then k () c.advance
        else after [.unexpectedToken kind c.next.kind c.next.span] (k () c) := by
  have hdiscard : (discard (accept kind) : Reader Unit) = accept kind >>= fun _ => pure () := rfl
  rw [bind_run, hdiscard, accept_bind_run]
  by_cases hkind : c.next.kind = kind
  · rw [if_pos hkind, if_pos hkind]
    exact after_nil _
  · rw [if_neg hkind, if_neg hkind]
    rfl

/-- `expect` moves on, or fails and says what it found. -/
theorem expect_run (kind : TokenKind) (c : Cursor) :
    expect kind c
      = if c.next.kind = kind then .done () c.advance []
        else .failed c [.unexpectedToken kind c.next.kind c.next.span] := by
  unfold expect
  rw [bind_run, accept_run]
  by_cases hkind : c.next.kind = kind
  · rw [if_pos hkind, if_pos hkind]
    rfl
  · rw [if_neg hkind, if_neg hkind]
    rfl

/-- `expect` in front of the rest of a reader. -/
theorem expect_bind_run (kind : TokenKind) (k : Unit → Reader β) (c : Cursor) :
    (expect kind >>= k) c
      = if c.next.kind = kind then k () c.advance
        else .failed c [.unexpectedToken kind c.next.kind c.next.span] := by
  rw [bind_run, expect_run]
  by_cases hkind : c.next.kind = kind
  · rw [if_pos hkind, if_pos hkind]
    exact after_nil _
  · rw [if_neg hkind, if_neg hkind]

/-- A reader that is done is done when it is attempted. -/
theorem attempt_of_done {read : Reader α} {c c' : Cursor} {a : α} {found : List Diagnostic}
    (h : read c = .done a c' found) : attempt read c = .done (some a) c' found := by
  rw [attempt, h]

/-! The same readers when the next token is known. -/

/-- The next token has the kind. -/
theorem nextIs_bind_of_eq {kind : TokenKind} {k : Bool → Reader β} {c : Cursor}
    (h : c.next.kind = kind) : (nextIs kind >>= k) c = k true c := by
  rw [nextIs_bind_run, h, beq_self_eq_true]

/-- The next token does not have the kind. -/
theorem nextIs_bind_of_ne {kind : TokenKind} {k : Bool → Reader β} {c : Cursor}
    (h : c.next.kind ≠ kind) : (nextIs kind >>= k) c = k false c := by
  rw [nextIs_bind_run, beq_false_of_ne h]

/-- A token that is expected and is there is read. -/
theorem expect_bind_of_eq {kind : TokenKind} {k : Unit → Reader β} {c : Cursor}
    (h : c.next.kind = kind) : (expect kind >>= k) c = k () c.advance := by
  rw [expect_bind_run, if_pos h]

/-! ### Ends of statements and starts of `let` -/

/-- A statement ends behind its semicolon, if it has one. -/
theorem skipSemicolon_bind_run (k : Unit → Reader β) (c : Cursor) :
    (skipSemicolon >>= k) c
      = k () (if c.next.kind = .semicolon then c.advance else c) := by
  unfold skipSemicolon
  by_cases hkind : c.next.kind = .semicolon
  · rw [if_pos hkind]
    exact bind_of_done (by rw [nextIs_bind_run, hkind]; rfl)
  · rw [if_neg hkind]
    refine bind_of_done ?_
    rw [nextIs_bind_run, beq_false_of_ne hkind]
    rfl

/-- Reads the value of a `let`, and its semicolon. -/
def letValue (expr : Level → Reader Expr) (token : Token) (name : String) : Reader Stmt := do
  let value ← expr .lowest
  skipSemicolon
  return .letIn token name value

/-- The four ways in which a `let` can start: its name may be there or
not, and so may its `=`. -/
theorem letStatement_run (expr : Level → Reader Expr) (c : Cursor) :
    letStatement expr c
      = if c.next.kind = .ident then
          if c.advance.next.kind = .assign then
            letValue expr c.current c.next.literal c.advance.advance.advance
          else
            after [.unexpectedToken .assign c.advance.next.kind c.advance.next.span]
              (if c.advance.next.kind.startsExpr then
                letValue expr c.current c.next.literal c.advance.advance
              else .failed c.advance.advance [])
        else
          after [.unexpectedToken .ident c.next.kind c.next.span]
            (let c₁ := if c.next.kind = .assign then c.advance else c
            if c₁.next.kind.startsExpr then letValue expr c.current "" c₁.advance
            else .failed c₁.advance []) := by
  unfold letStatement
  rw [current_bind_run, accept_bind_run]
  -- The name and the sign behind it may be there or not, which makes four cases.
  by_cases hname : c.next.kind = .ident
  · rw [if_pos hname, if_pos hname, current_bind_run]
    by_cases hassign : c.advance.next.kind = .assign
    · simp [hassign, letValue]
    · simp [hassign, hname, discard_accept_bind_run]
      split <;> next hstarts => simp [hstarts, letValue]
  · rw [if_neg hname, if_neg hname, current_bind_run]
    by_cases hassign : c.next.kind = .assign
    · simp [hassign]
      split <;> next hstarts => simp [hstarts, letValue]
    · simp [hassign]
      split <;> next hstarts => simp [hstarts, letValue]

/-- The first token of a statement tells what it is. -/
theorem statement_run (expr : Level → Reader Expr) (c : Cursor) :
    statement expr c
      = match c.current.kind with
        | .letWord => letStatement expr c
        | .returnWord =>
          (expr .lowest >>= fun value => skipSemicolon >>= fun _ =>
            pure (.ret c.current value)) c.advance
        | _ =>
          (expr .lowest >>= fun value => skipSemicolon >>= fun _ =>
            pure (.expr c.current value)) c := by
  unfold statement
  rw [current_bind_run]
  -- Only `return` is read before its expression is.
  cases c.current.kind with
  | returnWord => exact advance_bind_run _ c
  | _ => rfl

end Reader

/-- The place behind a broken statement. -/
def Cursor.recovered (inBlock : Bool) (c : Cursor) : Cursor :=
  { c with ahead := Reader.behindBroken inBlock c.ahead }

namespace Reader

/-- One turn of the loop over statements. -/
theorem statements_run (inBlock : Bool) (stmt : Reader Stmt) (steps : Nat) (c : Cursor) :
    statements inBlock stmt (steps + 1) c
      = if endsStatements inBlock c.current.kind then .done [] c []
        else
          match stmt c with
          | .done s c₁ found =>
            after found
              ((statements inBlock stmt steps >>= fun rest => pure (s :: rest)) c₁.advance)
          | .failed c₁ found =>
            after found (statements inBlock stmt steps (c₁.recovered inBlock))
          | .exhausted => .exhausted := by
  rw [statements, current_bind_run]
  cases endsStatements inBlock c.current.kind with
  | true => rfl
  | false =>
      simp only [Bool.false_eq_true, if_false]
      rw [bind_run]
      unfold attempt
      cases stmt c with
      | done s c₁ found =>
          dsimp only
          rw [advance_bind_run]
      -- A statement that fails leaves none behind, and reading goes on where it recovers.
      | failed c₁ found => exact congrArg (after found) (after_nil _)
      | exhausted => rfl

/-- The first token of an operand tells what it is. -/
theorem operand_run (steps : Nat) (expr : Level → Reader Expr) (c : Cursor) :
    operand steps expr c
      = match c.current.kind with
        | .ident => .done (.ident c.current c.current.literal) c []
        | .int =>
          match Text.readInt? c.current.literal with
          | some value => .done (.int c.current value) c []
          | none => .failed c [.invalidInteger c.current.literal c.current.span]
        | .string => .done (.str c.current c.current.literal) c []
        | .trueWord => .done (.bool c.current true) c []
        | .falseWord => .done (.bool c.current false) c []
        | .bang => (expr .unary >>= fun right => pure (.unary c.current .not right)) c.advance
        | .minus => (expr .unary >>= fun right => pure (.unary c.current .negate right)) c.advance
        | .leftParen =>
          (expr .lowest >>= fun inner => expect .rightParen >>= fun _ => pure inner) c.advance
        | .ifWord =>
          (expr .lowest >>= fun condition => expect .leftBrace >>= fun _ =>
            block steps expr >>= fun consequence => alternative steps expr >>= fun alternative =>
            pure (.cond c.current condition consequence alternative)) c.advance
        | .fnWord => lambda steps expr c.current .function c
        | .macroWord => lambda steps expr c.current .macroRule c
        | .leftBracket =>
          (items steps expr .rightBracket >>= fun elements => pure (.array c.current elements)) c
        | .leftBrace =>
          (pairs expr steps >>= fun entries => expect .rightBrace >>= fun _ =>
            pure (.dict c.current entries)) c
        | kind => .failed c [.noExpression kind c.current.span] := by
  unfold operand
  rw [current_bind_run]
  -- The kinds that read on start with going on one token; a literal stays where it is.
  cases c.current.kind with
  | int => cases Text.readInt? c.current.literal <;> rfl
  | bang | minus | leftParen | ifWord => exact advance_bind_run _ c
  | _ => rfl

/-- The first token of a suffix belongs to the expression that it
makes. -/
theorem suffix_run (steps : Nat) (expr : Level → Reader Expr) (left : Expr) (s : Suffix)
    (c : Cursor) :
    suffix steps expr left s c
      = match s with
        | .operator op =>
          (expr op.level >>= fun right => pure (.binary c.current op left right)) c.advance
        | .arguments =>
          (items steps expr .rightParen >>= fun args => pure (.call c.current left args)) c
        | .index =>
          (expr .lowest >>= fun i => expect .rightBracket >>= fun _ =>
            pure (.index c.current left i)) c.advance := by
  cases s with
  | operator op => rw [suffix, current_bind_run, advance_bind_run]
  | arguments => rw [suffix, current_bind_run]
  | index => rw [suffix, current_bind_run, advance_bind_run]

/-- The next token tells whether a suffix follows, and the level
whether it is taken. -/
theorem suffixes_run (steps : Nat) (expr : Level → Reader Expr) (level : Level) (k : Nat)
    (e : Expr) (c : Cursor) :
    suffixes steps expr level (k + 1) e c
      = match Suffix.ofKind? c.next.kind with
        | none => .done e c []
        | some s =>
          if level.rank < s.level.rank then
            (suffix steps expr e s >>= fun e => suffixes steps expr level k e) c.advance
          else .done e c [] := by
  rw [suffixes, next_bind_run]
  cases Suffix.ofKind? c.next.kind with
  | none => rfl
  | some s =>
      -- A suffix is read only if it binds more tightly than what is asked for.
      by_cases hlt : level.rank < s.level.rank
      · simp [hlt]
      · simp [hlt]

end Reader

/-! ### Where an expression stops -/

/-- The level of what is read at a level: the next tighter one, except
that an operator in front of an operand may have another in front of
it. -/
def Level.reads : Level → Level
  | lowest => equality
  | equality => comparison
  | comparison => sum
  | sum => product
  | product | unary | suffix => unary

/-- A token of this kind adds no suffix to an expression of a level. -/
def TokenKind.Stops (kind : TokenKind) (level : Level) : Prop :=
  ∀ s, Suffix.ofKind? kind = some s → s.level.rank ≤ level.rank

namespace Level

/-- No level is tighter than `suffix`. -/
theorem rank_le (level : Level) : level.rank ≤ suffix.rank := by
  cases level <;> decide

/-- No operator asks for more than a prefix operator does. -/
theorem rank_reads_le (level : Level) : level.reads.rank ≤ unary.rank := by
  cases level <;> decide

/-- An operator asks for its right side at most one level up. -/
theorem rank_reads_le_succ (level : Level) : level.reads.rank ≤ level.rank + 1 := by
  cases level <;> decide

end Level

/-! Each suffix starts with one kind of token, an operator with the kind
that spells it. -/

/-- A kind that starts the suffix of an operator spells the operator. -/
theorem Suffix.ofKind?_eq_operator {kind : TokenKind} {op : BinaryOp}
    (h : ofKind? kind = some (.operator op)) : kind = op.tokenKind := by
  cases kind <;> cases h <;> rfl

/-- Every operator goes on behind an expression. -/
theorem Suffix.ofKind?_tokenKind (op : BinaryOp) : ofKind? op.tokenKind = some (.operator op) := by
  cases op <;> rfl

/-- Only an opening parenthesis starts arguments. -/
theorem Suffix.ofKind?_eq_arguments {kind : TokenKind} (h : ofKind? kind = some .arguments) :
    kind = .leftParen := by
  cases kind <;> cases h
  rfl

/-- Only an opening bracket starts an index. -/
theorem Suffix.ofKind?_eq_index {kind : TokenKind} (h : ofKind? kind = some .index) :
    kind = .leftBracket := by
  cases kind <;> cases h
  rfl

/-- A token that starts a suffix is not the end of the text. -/
theorem Suffix.ne_eof_of_ofKind? {kind : TokenKind} {s : Suffix} (h : ofKind? kind = some s) :
    kind ≠ .eof := by
  rintro rfl
  cases h

/-! ### The tokens that a run takes -/

namespace Cursor

/-- `c'` stands no earlier in the tokens of `c` than `c` itself. -/
structure Within (c c' : Cursor) : Prop where
  suffix : c'.ahead <:+ c.ahead
  final_eq : c'.final = c.final

namespace Within

/-- A cursor is within itself. -/
theorem refl (c : Cursor) : c.Within c :=
  ⟨List.suffix_refl _, rfl⟩

/-- What is within a cursor that is within another one is within that
one. -/
theorem trans {c c₁ c₂ : Cursor} (h : c.Within c₁) (h' : c₁.Within c₂) : c.Within c₂ :=
  ⟨h'.suffix.trans h.suffix, h'.final_eq.trans h.final_eq⟩

/-- Going on stays within a cursor. -/
theorem advance {c c' : Cursor} (h : c.Within c') : c.Within c'.advance :=
  ⟨(List.tail_suffix _).trans h.suffix, h.final_eq⟩

/-- A cursor within one that ends with the end of the text does, too. -/
theorem closed {c c' : Cursor} (h : c.Within c') (hc : c.Closed) : c'.Closed := by
  rw [Closed, h.final_eq]
  exact hc

/-- A cursor within another one has no more tokens ahead. -/
theorem length_le {c c' : Cursor} (h : c.Within c') : c'.ahead.length ≤ c.ahead.length :=
  h.suffix.length_le

/-- Behind the current token there are no more tokens than there were. -/
theorem length_tail_le {c c' : Cursor} (h : c.Within c') :
    c'.ahead.tail.length ≤ c.ahead.tail.length := by
  have hle := h.length_le
  rw [List.length_tail, List.length_tail]
  omega

end Within

/-- `ts` are the tokens from the one that `c` stands on to the one that
`c'` stands on, both included. -/
structure Spans (c c' : Cursor) (ts : List Token) : Prop where
  ahead_eq : c.ahead = ts ++ c'.ahead.tail
  final_eq : c'.final = c.final

namespace Spans

/-- So does a cursor behind some tokens. -/
theorem closed {c c' : Cursor} {ts : List Token} (h : c.Spans c' ts) (hc : c.Closed) :
    c'.Closed := by
  rw [Closed, h.final_eq]
  exact hc

/-- One token is the span from itself to itself. -/
theorem current {c : Cursor} (hc : c.Closed) (h : c.current.kind ≠ .eof) :
    c.Spans c [c.current] :=
  ⟨ahead_eq_of_current hc h, rfl⟩

/-- The same for the token behind the current one. -/
theorem next {c : Cursor} (hc : c.Closed) (h : c.next.kind ≠ .eof) :
    c.advance.Spans c.advance [c.next] :=
  current (c := c.advance) hc h

/-- Behind the current token and up to it there is nothing. -/
theorem nil (c : Cursor) : c.advance.Spans c [] :=
  ⟨rfl, rfl⟩

/-- What follows a span goes on behind its last token. -/
theorem append {c c₁ c₂ : Cursor} {ts us : List Token} (h : c.Spans c₁ ts)
    (h' : c₁.advance.Spans c₂ us) : c.Spans c₂ (ts ++ us) := by
  refine ⟨?_, h'.final_eq.trans h.final_eq⟩
  rw [List.append_assoc, ← h'.ahead_eq]
  exact h.ahead_eq

end Spans

end Cursor

end QuoteScript
