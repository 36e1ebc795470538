/-!
# `QuoteScript.Token.Basic`: tokens

A token is a kind, a literal and a span. The literal is the text of
the token as it stands in the source, except that a string token
carries the text its literal stands for. The span is a range of byte
offsets in the UTF-8 encoding of the source.

* `TokenKind.text` is the name of a kind in messages. For operators,
  delimiters and keywords it is also their spelling.
* `TokenKind.ofText?` finds a kind by its name, and `ofText?_text`
  says that no two kinds share one.
* `TokenKind.ofWord` tells keywords from identifiers.
-/

set_option autoImplicit false

namespace QuoteScript

/-- The kinds of token. -/
inductive TokenKind where
  | illegal
  | eof
  | ident
  | int
  | string
  | assign
  | plus
  | minus
  | bang
  | asterisk
  | slash
  | less
  | greater
  | equalEqual
  | bangEqual
  | comma
  | semicolon
  | colon
  | leftParen
  | rightParen
  | leftBrace
  | rightBrace
  | leftBracket
  | rightBracket
  | fnWord
  | macroWord
  | letWord
  | trueWord
  | falseWord
  | ifWord
  | elseWord
  | returnWord
  deriving DecidableEq, Repr

namespace TokenKind

/-- The name of a kind in messages, which is the spelling of every
token that has only one. -/
def text : TokenKind → String
  | illegal => "ILLEGAL"
  | eof => "EOF"
  | ident => "IDENT"
  | int => "INT"
  | string => "STRING"
  | assign => "="
  | plus => "+"
  | minus => "-"
  | bang => "!"
  | asterisk => "*"
  | slash => "/"
  | less => "<"
  | greater => ">"
  | equalEqual => "=="
  | bangEqual => "!="
  | comma => ","
  | semicolon => ";"
  | colon => ":"
  | leftParen => "("
  | rightParen => ")"
  | leftBrace => "\x7b"
  | rightBrace => "\x7d"
  | leftBracket => "["
  | rightBracket => "]"
  | fnWord => "fn"
  | macroWord => "macro"
  | letWord => "let"
  | trueWord => "true"
  | falseWord => "false"
  | ifWord => "if"
  | elseWord => "else"
  | returnWord => "return"

/-- All kinds, in the order in which they are declared. -/
def all : List TokenKind :=
  [illegal, eof, ident, int, string, assign, plus, minus, bang, asterisk, slash, less, greater,
    equalEqual, bangEqual, comma, semicolon, colon, leftParen, rightParen, leftBrace, rightBrace,
    leftBracket, rightBracket, fnWord, macroWord, letWord, trueWord, falseWord, ifWord, elseWord,
    returnWord]

/-- No kind is missing. -/
theorem mem_all (kind : TokenKind) : kind ∈ all := by
  cases kind <;> decide

/-- The words that are not identifiers. -/
def keywords : List TokenKind :=
  [fnWord, macroWord, letWord, returnWord, trueWord, falseWord, ifWord, elseWord]

/-- The kind of a word: a keyword if it is spelled like one, an
identifier otherwise. -/
def ofWord (word : String) : TokenKind :=
  (keywords.find? fun kind => kind.text == word).getD ident

/-- The kind with a given name. -/
def ofText? (name : String) : Option TokenKind :=
  all.find? fun kind => kind.text == name

/-- No two kinds have the same name. -/
theorem ofText?_text (kind : TokenKind) : ofText? kind.text = some kind := by
  cases kind <;> rfl

end TokenKind

/-- A range of byte offsets in the source, the end not included. -/
structure Span where
  start : Nat := 0
  stop : Nat := 0
  deriving DecidableEq, Repr, Inhabited

/-- A token of the source. -/
structure Token where
  kind : TokenKind
  literal : String
  span : Span
  deriving DecidableEq, Repr

namespace Token

/-- The token that stands for the end of a text, at a given offset. -/
def eof (offset : Nat) : Token :=
  ⟨.eof, "", ⟨offset, offset⟩⟩

/-- A token with the spelling that its kind alone decides. -/
def fixed (kind : TokenKind) (span : Span) : Token :=
  ⟨kind, kind.text, span⟩

end Token

end QuoteScript
