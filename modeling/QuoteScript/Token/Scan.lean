import QuoteScript.Text.Escape
import QuoteScript.Token.Basic

/-!
# `QuoteScript.Token.Scan`: from source text to tokens

The scanner skips blanks and takes the longest lexeme that stands at
the front of the rest of the source:

* a word, made of ASCII letters, digits and underscores and not
  starting with a digit. It is a keyword or an identifier;
* a run of ASCII digits;
* a string literal: a quote, body items, a quote. A body item is any
  character but the quote and the backslash, or a backslash with any
  character but a line feed after it;
* an operator or a delimiter. `==` and `!=` are one token each.

What is none of these becomes an illegal token, and scanning goes on
behind it: a single character, or, for a string literal that is never
closed, its quote with all its body items.

The tokens of a text end with exactly one end-of-text token.

* `Lexeme.read` reads one lexeme, and `read_append` says that it loses
  no character.
* `Scanner.nextToken` skips blanks and reads one token;
  `rest_nextToken_length_lt` says that every token but the last takes
  at least one character.
* `Scanner.next?` yields the tokens one by one, `Scanner.drain` all
  that are left, and `tokenize` those of a whole text.
-/

set_option autoImplicit false

namespace QuoteScript

/-! ### Character classes -/

/-- The characters that separate tokens and mean nothing else: space,
tab, carriage return, line feed and form feed. -/
def isBlank (c : Char) : Bool :=
  c == ' ' || c == '\t' || c == '\r' || c == '\n' || c == '\x0c'

/-- The characters a word may start with. -/
def isWordStart (c : Char) : Bool :=
  c.isAlpha || c == '_'

/-- The characters a word may go on with. -/
def isWordChar (c : Char) : Bool :=
  c.isAlphanum || c == '_'

/-! ### Lexemes -/

/-- A piece of source with the kind of token it makes, and the source
behind it. -/
structure Lexeme where
  kind : TokenKind
  raw : List Char
  rest : List Char

/-- The body items at the front of a text, and the text behind them.
The body of a literal ends before a quote, before a backslash that has
a line feed or nothing after it, or at the end of the text. -/
def stringBody : List Char → List Char × List Char
  | [] => ([], [])
  -- A backslash escapes something or ends the body.
  | ['\\'] => ([], ['\\'])
  | '\\' :: c :: rest =>
    if c = '\n' then ([], '\\' :: c :: rest)
    else ('\\' :: c :: (stringBody rest).1, (stringBody rest).2)
  | c :: rest =>
    if c = '"' then ([], c :: rest)
    else (c :: (stringBody rest).1, (stringBody rest).2)

/-- The delimiters and operators of one character. -/
def punctuation? : Char → Option TokenKind
  | '=' => some .assign
  | '+' => some .plus
  | '-' => some .minus
  | '!' => some .bang
  | '*' => some .asterisk
  | '/' => some .slash
  | '<' => some .less
  | '>' => some .greater
  | ',' => some .comma
  | ';' => some .semicolon
  | ':' => some .colon
  | '(' => some .leftParen
  | ')' => some .rightParen
  | '\x7b' => some .leftBrace
  | '\x7d' => some .rightBrace
  | '[' => some .leftBracket
  | ']' => some .rightBracket
  | _ => none

namespace Lexeme

/-- The word at the front of a text. -/
def word (text : List Char) : Lexeme :=
  let raw := text.takeWhile isWordChar
  ⟨TokenKind.ofWord (String.ofList raw), raw, text.dropWhile isWordChar⟩

/-- The digits at the front of a text. -/
def digits (text : List Char) : Lexeme :=
  ⟨.int, text.takeWhile Char.isDigit, text.dropWhile Char.isDigit⟩

/-- The string literal whose opening quote stands in front of `text`. -/
def string (text : List Char) : Lexeme :=
  match stringBody text with
  | (body, '"' :: rest) => ⟨.string, '"' :: body ++ ['"'], rest⟩
  -- The literal is never closed, and scanning goes on behind its body items.
  | (body, rest) => ⟨.illegal, '"' :: body, rest⟩

/-- The operator or delimiter that starts with `c`. -/
def symbol (c : Char) (text : List Char) : Lexeme :=
  match c, text with
  -- The operators of two characters come first: the longest lexeme wins.
  | '=', '=' :: rest => ⟨.equalEqual, ['=', '='], rest⟩
  | '!', '=' :: rest => ⟨.bangEqual, ['!', '='], rest⟩
  | c, text => ⟨(punctuation? c).getD .illegal, [c], text⟩

/-- The lexeme at the front of a text that starts with `c`. -/
def read (c : Char) (text : List Char) : Lexeme :=
  if isWordStart c then word (c :: text)
  else if c.isDigit then digits (c :: text)
  else if c = '"' then string text
  else symbol c text

/-- The literal of the token that a lexeme makes. -/
def literal (lexeme : Lexeme) : String :=
  match lexeme.kind with
  | .string => String.ofList (Text.unescape (lexeme.raw.drop 1).dropLast)
  | _ => String.ofList lexeme.raw

/-- The number of bytes that a lexeme takes in the source. -/
def size (lexeme : Lexeme) : Nat :=
  lexeme.raw.foldr (fun c size => c.utf8Size + size) 0

end Lexeme

/-- Splitting off the body items of a literal loses no character. -/
theorem stringBody_append (text : List Char) :
    (stringBody text).1 ++ (stringBody text).2 = text := by
  fun_induction stringBody text <;> simp_all

namespace Lexeme

/-- Reading a lexeme loses no character. -/
theorem read_append (c : Char) (text : List Char) :
    (read c text).raw ++ (read c text).rest = c :: text := by
  unfold read
  split
  · exact List.takeWhile_append_dropWhile
  · split
    · exact List.takeWhile_append_dropWhile
    · split
      · next hquote =>
          subst hquote
          have hbody := stringBody_append text
          unfold string
          split <;> next heq => rw [heq] at hbody; simp [← hbody]
      · unfold symbol
        split <;> rfl

/-- A lexeme takes at least one character. -/
theorem raw_read_ne_nil (c : Char) (text : List Char) : (read c text).raw ≠ [] := by
  unfold read
  split
  · next hstart =>
      have hword : isWordChar c = true := by
        simp only [isWordStart, Bool.or_eq_true] at hstart
        simp only [isWordChar, Char.isAlphanum, Bool.or_eq_true]
        exact hstart.elim (fun h => .inl (.inl h)) .inr
      simp [word, hword]
  · split
    · next hdigit => simp [digits, hdigit]
    · split
      · unfold string
        split <;> simp
      · unfold symbol
        split <;> simp

/-- Behind a lexeme there is less text than there was in front. -/
theorem rest_read_length_lt (c : Char) (text : List Char) :
    (read c text).rest.length < (c :: text).length := by
  have happend := congrArg List.length (read_append c text)
  have hraw := List.length_pos_iff.mpr (raw_read_ne_nil c text)
  rw [List.length_append] at happend
  omega

end Lexeme

/-! ### Scanning -/

/-- The state of a scan: the source that is left, the byte offset at
which it starts, and whether the end of the text has been reported. -/
structure Scanner where
  rest : List Char
  offset : Nat := 0
  finished : Bool := false

namespace Scanner

/-- A scan of a whole text, at its beginning. -/
def ofString (source : String) : Scanner :=
  { rest := source.toList }

/-- Skips the blanks in front. -/
def skipBlanks (s : Scanner) : Scanner :=
  { s with
    rest := s.rest.dropWhile isBlank
    -- Every blank is one byte, so characters can be counted.
    offset := s.offset + (s.rest.takeWhile isBlank).length }

/-- Reads the next token. At the end of the text this is the
end-of-text token, as often as it is asked for. -/
def nextToken (s : Scanner) : Token × Scanner :=
  let s := s.skipBlanks
  match s.rest with
  -- The end of the text is a token of no size, behind the last blank.
  | [] => (Token.eof s.offset, s)
  | c :: text =>
    let lexeme := Lexeme.read c text
    let stop := s.offset + lexeme.size
    (⟨lexeme.kind, lexeme.literal, ⟨s.offset, stop⟩⟩,
      { s with rest := lexeme.rest, offset := stop })

/-- Yields the next token, and nothing once the end-of-text token has
been yielded. -/
def next? (s : Scanner) : Option (Token × Scanner) :=
  if s.finished then none
  else
    some (s.nextToken.1, { s.nextToken.2 with finished := s.nextToken.1.kind == .eof })

/-- Skipping blanks never adds text. -/
theorem rest_skipBlanks_length_le (s : Scanner) :
    s.skipBlanks.rest.length ≤ s.rest.length :=
  (List.dropWhile_sublist _).length_le

/-- Every token but the end-of-text token takes some text. -/
theorem rest_nextToken_length_lt (s : Scanner) (h : s.nextToken.1.kind ≠ .eof) :
    s.nextToken.2.rest.length < s.rest.length := by
  have hskip := s.rest_skipBlanks_length_le
  unfold nextToken at h ⊢
  dsimp only at h ⊢
  split at h
  · exact absurd rfl h
  · next c text heq =>
      rw [heq] at hskip
      exact Nat.lt_of_lt_of_le (Lexeme.rest_read_length_lt c text) hskip

/-- A bound on the number of tokens that the scan still yields: one
for each character that is left and one for the end of the text. -/
def remaining (s : Scanner) : Nat :=
  if s.finished then 0 else s.rest.length + 1

/-- Every token that is yielded brings the end of the scan nearer. -/
theorem remaining_lt_of_next? {s after : Scanner} {token : Token}
    (h : s.next? = some (token, after)) : after.remaining < s.remaining := by
  unfold next? at h
  split at h
  · contradiction
  · next hopen =>
      simp only [Option.some.injEq, Prod.mk.injEq] at h
      obtain ⟨-, rfl⟩ := h
      cases heof : s.nextToken.1.kind == .eof with
      | true => simp [remaining, hopen]
      | false =>
          have hlt := s.rest_nextToken_length_lt (beq_eq_false_iff_ne.mp heof)
          simp only [remaining, hopen, Bool.false_eq_true, if_false]
          omega

/-- All the tokens that the scan still yields, in order, and the state
in which they leave it. -/
def drain (s : Scanner) : List Token × Scanner :=
  match _h : s.next? with
  | none => ([], s)
  | some (token, after) =>
    let (tokens, last) := drain after
    (token :: tokens, last)
termination_by s.remaining
decreasing_by exact remaining_lt_of_next? _h

end Scanner

/-- The tokens of a source text, the end-of-text token last. -/
def tokenize (source : String) : List Token :=
  (Scanner.ofString source).drain.1

end QuoteScript
