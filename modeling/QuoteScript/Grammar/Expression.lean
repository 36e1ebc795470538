import QuoteScript.Grammar.Reader
import QuoteScript.Text.Decimal
import QuoteScript.Tree.Basic

/-!
# `QuoteScript.Grammar.Expression`: from tokens to expressions, blocks and statements

An expression starts with an operand and goes on with suffixes: an
operator and its right operand, the arguments of a call, or an index.
A suffix belongs to the expression while it binds more tightly than
the level at which the expression is read. Operators of one level
group from the left.

A statement that is broken is skipped up to its semicolon, or, inside
a block, up to the brace that closes the block, and the statement
behind it is read as if nothing had happened. A `let` without its name
or its `=` is still a statement if a value follows.

Expressions hold blocks, blocks hold statements and statements hold
expressions. The readers of blocks and statements are therefore given
a reader of expressions, and `readExpr` ties the knot by counting down
a number of steps. Every expression inside another one starts at least
one token further on, so as many steps as there are tokens, and one
more, are enough.
-/

set_option autoImplicit false

namespace QuoteScript

/-! ### Levels and suffixes -/

/-- How tightly the parts of an expression hold together, from the
loosest to the tightest. -/
inductive Level where
  | lowest
  | equality
  | comparison
  | sum
  | product
  | unary
  | suffix
  deriving DecidableEq, Repr

/-- The rank of a level, higher for tighter ones. -/
def Level.rank : Level → Nat
  | lowest => 0
  | equality => 1
  | comparison => 2
  | sum => 3
  | product => 4
  | unary => 5
  | suffix => 6

/-- The level of an operator between two operands. -/
def BinaryOp.level : BinaryOp → Level
  | equal | notEqual => .equality
  | less | greater => .comparison
  | add | subtract => .sum
  | multiply | divide => .product

/-- The ways in which an expression can go on behind its first
operand. -/
inductive Suffix where
  | operator (op : BinaryOp)
  | arguments
  | index
  deriving DecidableEq, Repr

namespace Suffix

/-- The suffix that a token starts. -/
def ofKind? : TokenKind → Option Suffix
  | .plus => some (operator .add)
  | .minus => some (operator .subtract)
  | .asterisk => some (operator .multiply)
  | .slash => some (operator .divide)
  | .less => some (operator .less)
  | .greater => some (operator .greater)
  | .equalEqual => some (operator .equal)
  | .bangEqual => some (operator .notEqual)
  | .leftParen => some arguments
  | .leftBracket => some index
  | _ => none

/-- How tightly a suffix holds on to what stands in front of it. -/
def level : Suffix → Level
  | operator op => op.level
  | arguments | index => .suffix

end Suffix

/-- Whether an expression can start with a token. -/
def TokenKind.startsExpr : TokenKind → Bool
  | .ident | .int | .string | .trueWord | .falseWord | .bang | .minus | .leftParen | .ifWord
  | .fnWord | .macroWord | .leftBracket | .leftBrace => true
  | _ => false

namespace Reader

/-! ### Statements and blocks -/

/-- Skips the semicolon that may end a statement. -/
def skipSemicolon : Reader Unit := do
  if ← nextIs .semicolon then advance

/-- Reads a `let`. A missing name or `=` is reported once. The
statement is kept if it is complete up to the `=`, or if an expression
starts where the value is due; a missing name is empty. -/
def letStatement (expr : Level → Reader Expr) : Reader Stmt := do
  let token ← current
  let named ← accept .ident
  let nameToken ← current
  let name := if named then nameToken.literal else ""
  -- A missing `=` is reported only if the name is there: one report is enough.
  if ← nextIs .assign then advance
  else if named then discard (accept .assign)
  let assign ← current
  let complete := named && assign.kind == .assign
  advance
  -- A broken `let` keeps its value if one follows.
  let start ← current
  unless complete || start.kind.startsExpr do fail
  let value ← expr .lowest
  skipSemicolon
  return .letIn token name value

/-- Reads a statement. -/
def statement (expr : Level → Reader Expr) : Reader Stmt := do
  let token ← current
  match token.kind with
  | .letWord => letStatement expr
  | .returnWord =>
    advance
    let value ← expr .lowest
    skipSemicolon
    return .ret token value
  -- A statement that is an expression keeps the first token of the expression.
  | _ =>
    let value ← expr .lowest
    skipSemicolon
    return .expr token value

/-- Whether a token ends a list of statements. A closing brace does so
inside a block only. -/
def endsStatements (inBlock : Bool) (kind : TokenKind) : Bool :=
  kind == .eof || inBlock && kind == .rightBrace

/-- The tokens behind a broken statement: those after the next
semicolon, or, inside a block, those from the closing brace on if that
comes first. -/
def behindBroken (inBlock : Bool) : List Token → List Token
  | [] => []
  | token :: rest =>
    if token.kind = .semicolon then rest
    else if endsStatements inBlock token.kind then token :: rest
    else behindBroken inBlock rest

/-- Moves behind a broken statement. -/
def recover (inBlock : Bool) : Reader Unit := fun c =>
  .done () { c with ahead := behindBroken inBlock c.ahead } []

/-- Reads statements up to the token that ends their list, in at most
as many steps as are given. -/
def statements (inBlock : Bool) (stmt : Reader Stmt) : Nat → Reader (List Stmt)
  | 0 => exhausted
  | steps + 1 => do
    if endsStatements inBlock (← current).kind then return []
    match ← attempt stmt with
    | some s =>
      -- The reader stands on the last token of the statement.
      advance
      let rest ← statements inBlock stmt steps
      return s :: rest
    | none =>
      recover inBlock
      statements inBlock stmt steps

/-- Reads a block, from its opening brace to its closing brace. -/
def block (steps : Nat) (expr : Level → Reader Expr) : Reader Block := do
  let token ← current
  advance
  let body ← statements true (statement expr) steps
  let closing ← current
  -- The statements of a block end at a brace or at the end of the text.
  if closing.kind = .eof then failWith (.unexpectedToken .rightBrace .eof closing.span)
  return .mk token body

/-! ### Operands -/

/-- Reads the expressions of a list behind the first one, each with a
comma in front. -/
def moreItems (expr : Level → Reader Expr) : Nat → Reader (List Expr)
  | 0 => exhausted
  | steps + 1 => do
    -- One step onto the comma, and one onto the expression behind it.
    if ← nextIs .comma then
      advance
      advance
      let item ← expr .lowest
      let rest ← moreItems expr steps
      return item :: rest
    else return []

/-- Reads expressions with commas between them, up to a token of kind
`close`. -/
def items (steps : Nat) (expr : Level → Reader Expr) (close : TokenKind) :
    Reader (List Expr) := do
  if ← nextIs close then
    advance
    return []
  else
    advance
    let first ← expr .lowest
    let rest ← moreItems expr steps
    expect close
    return first :: rest

/-- Reads the parameters behind the first one, each with a comma in
front. -/
def moreParams : Nat → Reader (List String)
  | 0 => exhausted
  | steps + 1 => do
    if ← nextIs .comma then
      advance
      expect .ident
      let param ← current
      let rest ← moreParams steps
      return param.literal :: rest
    else return []

/-- Reads parameters with commas between them, up to the closing
parenthesis. -/
def params (steps : Nat) : Reader (List String) := do
  if ← nextIs .rightParen then
    advance
    return []
  else
    expect .ident
    let first ← current
    let rest ← moreParams steps
    expect .rightParen
    return first.literal :: rest

/-- Reads the pairs of a dict. A comma may follow the last one. -/
def pairs (expr : Level → Reader Expr) : Nat → Reader (List (Expr × Expr))
  | 0 => exhausted
  | steps + 1 => do
    if ← nextIs .rightBrace then return []
    else
      advance
      let key ← expr .lowest
      expect .colon
      advance
      let value ← expr .lowest
      -- The comma may be left out in front of the brace, and nowhere else.
      unless ← nextIs .rightBrace do expect .comma
      let rest ← pairs expr steps
      return (key, value) :: rest

/-- Reads the branch that may follow the first one. -/
def alternative (steps : Nat) (expr : Level → Reader Expr) : Reader (Option Block) := do
  if ← nextIs .elseWord then
    advance
    expect .leftBrace
    let b ← block steps expr
    return some b
  else return none

/-- Reads the rest of a function or macro literal behind its
keyword. -/
def lambda (steps : Nat) (expr : Level → Reader Expr) (token : Token) (kind : LambdaKind) :
    Reader Expr := do
  expect .leftParen
  let ps ← params steps
  expect .leftBrace
  let body ← block steps expr
  return .lambda token kind ps body

/-- Reads an operand: what stands in front of the first suffix. -/
def operand (steps : Nat) (expr : Level → Reader Expr) : Reader Expr := do
  let token ← current
  match token.kind with
  | .ident => return .ident token token.literal
  | .int =>
    match Text.readInt? token.literal with
    | some value => return .int token value
    | none => failWith (.invalidInteger token.literal token.span)
  | .string => return .str token token.literal
  | .trueWord => return .bool token true
  | .falseWord => return .bool token false
  -- An operator in front holds on to one operand and to its suffixes.
  | .bang =>
    advance
    let right ← expr .unary
    return .unary token .not right
  | .minus =>
    advance
    let right ← expr .unary
    return .unary token .negate right
  | .leftParen =>
    advance
    -- Parentheses leave no node behind.
    let inner ← expr .lowest
    expect .rightParen
    return inner
  | .ifWord =>
    advance
    let condition ← expr .lowest
    expect .leftBrace
    let consequence ← block steps expr
    let alternative ← alternative steps expr
    return .cond token condition consequence alternative
  | .fnWord => lambda steps expr token .function
  | .macroWord => lambda steps expr token .macroRule
  | .leftBracket =>
    let elements ← items steps expr .rightBracket
    return .array token elements
  | .leftBrace =>
    let entries ← pairs expr steps
    expect .rightBrace
    return .dict token entries
  | kind => failWith (.noExpression kind token.span)

/-! ### Suffixes -/

/-- Reads a suffix of `left`, from its first token on. -/
def suffix (steps : Nat) (expr : Level → Reader Expr) (left : Expr) : Suffix → Reader Expr
  | .operator op => do
    let token ← current
    advance
    -- At the level of the operator itself: equal levels group to the left.
    let right ← expr op.level
    return .binary token op left right
  | .arguments => do
    let token ← current
    let args ← items steps expr .rightParen
    return .call token left args
  | .index => do
    let token ← current
    advance
    let i ← expr .lowest
    expect .rightBracket
    return .index token left i

/-- Reads the suffixes of `left` that bind more tightly than `level`,
in at most as many steps as are given. -/
def suffixes (steps : Nat) (expr : Level → Reader Expr) (level : Level) :
    Nat → Expr → Reader Expr
  | 0, _ => exhausted
  | left + 1, e => do
    match Suffix.ofKind? (← next).kind with
    | none => return e
    | some s =>
      if level.rank < s.level.rank then
        advance
        let e ← suffix steps expr e s
        suffixes steps expr level left e
      else return e

/-- Reads an expression at a level, given a reader for the expressions
inside it. -/
def exprWith (steps : Nat) (expr : Level → Reader Expr) (level : Level) : Reader Expr := do
  let first ← operand steps expr
  suffixes steps expr level steps first

/-- Reads an expression at a level, in at most as many nested steps as
are given. -/
def readExpr : Nat → Level → Reader Expr
  | 0, _ => exhausted
  | steps + 1, level => exprWith steps (readExpr steps) level

end Reader

end QuoteScript
