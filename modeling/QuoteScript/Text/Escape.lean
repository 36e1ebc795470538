/-!
# `QuoteScript.Text.Escape`: the inside of a string literal

A string literal is written between double quotes. Five characters
are written with a backslash in front: the quote, the backslash
itself, line feed, tab and carriage return. Every other character
stands for itself, so a literal may hold any Unicode text.

Reading is more generous than writing: a backslash before any other
character is kept, and both characters are part of the text.

* `escape` writes a text, `unescape` reads one back.
* `unescape_escape`: what is written reads back as the text it was
  written from.
-/

set_option autoImplicit false

namespace QuoteScript.Text

/-- How one character is written inside a string literal. -/
def escapeChar : Char → List Char
  | '"' => ['\\', '"']
  | '\\' => ['\\', '\\']
  | '\n' => ['\\', 'n']
  | '\t' => ['\\', 't']
  | '\r' => ['\\', 'r']
  | c => [c]

/-- A text as it is written between the quotes of a literal. -/
def escape (text : List Char) : List Char :=
  text.flatMap escapeChar

/-- What a backslash followed by `c` stands for. An unknown escape
keeps its backslash. -/
def unescapeChar : Char → List Char
  | 'n' => ['\n']
  | 't' => ['\t']
  | 'r' => ['\r']
  | '"' => ['"']
  | '\\' => ['\\']
  | c => ['\\', c]

/-- The text that the inside of a literal stands for. A backslash at
the very end escapes nothing and is dropped; no literal that the
scanner accepts ends in one. -/
def unescape : List Char → List Char
  | [] => []
  | ['\\'] => []
  | '\\' :: c :: rest => unescapeChar c ++ unescape rest
  | c :: rest => c :: unescape rest

/-- A text between quotes, as a string literal is written. -/
def quoted (text : String) : String :=
  "\"" ++ String.ofList (escape text.toList) ++ "\""

/-- Reading undoes writing in front of any further text. -/
theorem unescape_escapeChar_append (c : Char) (rest : List Char) :
    unescape (escapeChar c ++ rest) = c :: unescape rest := by
  unfold escapeChar
  split
  · rfl
  · rfl
  · rfl
  · rfl
  · rfl
  · next hquote hslash hline htab hreturn =>
      rw [List.singleton_append, unescape]
      · intro hc; exact absurd hc hslash
      · intro d r hc; exact absurd hc hslash

/-- What is written reads back as the text it was written from. -/
theorem unescape_escape (text : List Char) : unescape (escape text) = text := by
  induction text with
  | nil => rfl
  | cons c rest ih =>
      rw [escape, List.flatMap_cons, unescape_escapeChar_append]
      exact congrArg (c :: ·) ih

end QuoteScript.Text
