import QuoteScript.Eval.Monad
import QuoteScript.Value.Same

/-!
# `QuoteScript.Eval.Operators`: operators, native functions and indexing

Integer arithmetic is that of 64-bit words in two's complement: it
wraps, and division truncates towards zero. Strings can be joined and
nothing else. Values of any other kind can be compared by identity
with values of the same kind.

What an operation cannot do is a fault.
-/

set_option autoImplicit false

namespace QuoteScript

/-! ### Operators -/

/-- The value of an operator in front of its operand. -/
def applyUnary : UnaryOp → Value → Value
  | .not, v => .bool (!v.isTruthy)
  | .negate, .int n => .int (-n)
  | .negate, v => .fault (.unknownUnary .negate v.kind)

/-- The quotient of two integers, truncated towards zero. The divisor
has to be other than zero. -/
def quotient (a b : Int64) : EvalM Int64 :=
  if b = 0 then EvalM.defect .zeroDivisor else pure (a / b)

/-- The value of an operator between two integers. -/
def applyInts (op : BinaryOp) (a b : Int64) : EvalM Value :=
  match op with
  | .add => return .int (a + b)
  | .subtract => return .int (a - b)
  | .multiply => return .int (a * b)
  | .divide =>
    -- The fault stands in front of the partial operation and keeps it defined.
    if b = 0 then return .fault (.divisionByZero a)
    else do return .int (← quotient a b)
  | .less => return .bool (a < b)
  | .greater => return .bool (a > b)
  | .equal => return .bool (a == b)
  | .notEqual => return .bool (a != b)

/-- The value of an operator between two strings. -/
def applyStrings (op : BinaryOp) (a b : String) : Value :=
  match op with
  | .add => .str (a ++ b)
  | op => .fault (.unknownBinary op .string)

/-- The value of an operator between two operands of one kind that are
neither integers nor strings. -/
def applyIdentity (op : BinaryOp) (a b : Value) : Value :=
  match op with
  | .equal => .bool (a.identical b)
  | .notEqual => .bool (!a.identical b)
  | op => .fault (.unknownBinary op a.kind)

/-- The value of an operator between two operands. -/
def applyBinary (op : BinaryOp) (a b : Value) : EvalM Value :=
  match a, b with
  | .int a, .int b => applyInts op a b
  | .str a, .str b => return applyStrings op a b
  -- No two integers and no two strings come this far.
  | a, b =>
    if a.kind = b.kind then return applyIdentity op a b
    else return .fault (.typeMismatch op a.kind b.kind)

/-! ### Indexing -/

/-- The item of an array at an index, null outside the array. -/
def itemAt (items : List Value) (i : Int64) : Value :=
  -- Out of range is null on both sides and no fault.
  if i < 0 then .null else (items[i.toInt.toNat]?).getD .null

/-- The value that a dict has for a key, null if it has none. -/
def valueAt (entries : List (Key × Value)) (index : Value) : Value :=
  match index.key? with
  | some key => (valueUnder? key entries).getD .null
  | none => .fault (.unusableKey index.kind)

/-- The value of an index expression. -/
def applyIndex : Value → Value → Value
  | .array _ items, .int i => itemAt items i
  | .dict _ entries, index => valueAt entries index
  | v, _ => .fault (.notIndexable v.kind)

/-! ### Native functions -/

/-- The items behind the first one, which has to be there. -/
def itemsBehindFirst : List Value → EvalM (List Value)
  | [] => EvalM.defect .emptyArray
  | _ :: rest => pure rest

/-- The value of a native function on an array, given the items and the
arguments behind the array. -/
def Native.applyToArray (native : Native) (items args : List Value) : EvalM Value :=
  match native with
  | .len => return .int (Int64.ofNat items.length)
  | .first => return items.head?.getD .null
  | .last => return items.getLast?.getD .null
  | .rest =>
    -- An empty array has nothing behind its first item.
    if items.isEmpty then return .null
    else do EvalM.newArray (← itemsBehindFirst items)
  | .push =>
    match args with
    | [] => EvalM.defect .missingArgument
    | item :: _ => EvalM.newArray (items ++ [item])
  | .typeof => return .str ValueKind.array.tag

/-- The value of a native function on arguments, of which there have to
be at least as many as it takes. More are passed over. -/
def Native.apply (native : Native) (args : List Value) : EvalM Value :=
  match args with
  | [] => EvalM.defect .missingArgument
  | .array _ items :: more => native.applyToArray items more
  | v :: _ =>
    match native, v with
    | .typeof, v => return .str v.kind.tag
    -- The length of a string counts its bytes and not its characters.
    | .len, .str s => return .int (Int64.ofNat s.utf8ByteSize)
    | .len, v => return .fault (.noLength v.kind)
    | native, v => return .fault (.notAnArray native v.kind)

end QuoteScript
