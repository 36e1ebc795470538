import QuoteScript.Text.Printable

/-!
# `QuoteScript.Text.Quoted`: a text shown inside a message

A message that talks about a piece of text shows it between double
quotes, on one line, so that no character of it goes unseen:

* the quote and the backslash get a backslash in front;
* line feed, carriage return, tab and the null character are written
  `\n`, `\r`, `\t` and `\0`;
* any other character that is not printable is written as its code
  point in lower-case hexadecimal between braces, after `\u`;
* every other character stands for itself, the single quote included.

This is a form for readers. The literals of the language have a form
of their own, in `QuoteScript.Text.Escape`.
-/

set_option autoImplicit false

namespace QuoteScript.Text

/-- How one character is shown inside a message. -/
def showChar : Char → String
  | '"' => "\\\""
  | '\\' => "\\\\"
  | '\n' => "\\n"
  | '\r' => "\\r"
  | '\t' => "\\t"
  | '\x00' => "\\0"
  | c =>
    if isPrintable c then c.toString
    else "\\u\x7b" ++ String.ofList (Nat.toDigits 16 c.toNat) ++ "\x7d"

/-- A text as a message shows it. -/
def shown (text : String) : String :=
  "\"" ++ String.join (text.toList.map showChar) ++ "\""

end QuoteScript.Text
