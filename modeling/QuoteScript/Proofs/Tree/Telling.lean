import QuoteScript.Eval.Quotation
import QuoteScript.Proofs.Token.Lexemes
import QuoteScript.Proofs.Tree.Coupling

/-!
# `QuoteScript.Proofs.Tree.Telling`: tokens that tell what they stand for

Evaluation looks at a token in one place: a call splices if its callee
is written `unquote`, whatever the callee is. So trees that are the same
up to tokens may still be evaluated in different ways.

They are not if their tokens *tell*: the token of a name or of a string
is written like its text, and the token of any other expression is not
written `unquote`. The tokens of parsed trees tell, and so do those of
the trees that are made for values.

* `TokenRelation.telling`: both tokens tell.
* `Alike.unquotes_iff`: alike callees are both written `unquote`, or
  neither is.
* `telling_mkIdent`, `telling_spliceInt`, `telling_mkBool`: the trees
  that are made.
* `Alike.telling_of_same`: trees that are the same up to tokens.
-/

set_option autoImplicit false

namespace QuoteScript

/-- Whether a token is written as what it stands for requires. -/
def Token.Tells (t : Token) : TokenRole → Prop
  | .text s => t.literal = s
  | .expr => t.literal ≠ "unquote"
  | .block | .keyword | .stmt => True

/-- Both tokens tell what they stand for. -/
def TokenRelation.telling : TokenRelation :=
  fun role t t' => t.Tells role ∧ t'.Tells role

namespace Alike

variable {p q p₁ q₁ : Part}

/-- Alike callees are both written `unquote`, or neither is. -/
theorem unquotes_iff {e e' : Expr} (h : Alike .telling (.expr e) (.expr e')) :
    e.token.literal = "unquote" ↔ e'.token.literal = "unquote" := by
  cases h with
  | ident ht | str ht => exact iff_of_eq (congrArg (· = "unquote") (ht.1.trans ht.2.symm))
  | int ht | bool ht | unary ht _ | binary ht _ _ | cond ht _ _ _ | lambda ht _ | call ht _ _
  | array ht _ | index ht _ _ | dict ht _ => exact iff_of_false ht.1 ht.2

/-- Which of the two trees comes first does not matter. -/
theorem telling_symm (h : Alike .telling p q) : Alike .telling q p := by
  induction h <;> constructor <;> first | assumption | exact And.symm ‹_›

/-- Trees that are the same up to tokens are alike, if the tokens of
each of them tell. -/
theorem telling_of_same (hp : Alike .telling p p₁) (hq : Alike .telling q q₁)
    (hsame : p.same q = true) : Alike .telling p q :=
  of_same (fun _ _ _ ht hu => ⟨ht, hu⟩) (hp.mono fun _ _ _ ht => ht.1)
    (hq.mono fun _ _ _ ht => ht.1) hsame

end Alike

/-! ### Trees that are made -/

/-- No spelling that a kind decides is `unquote`. -/
theorem TokenKind.text_ne_unquote (kind : TokenKind) : kind.text ≠ "unquote" := by
  cases kind <;> decide

/-- No integer is written `unquote`. -/
theorem Text.writeInt_ne_unquote (n : Int64) : writeInt n ≠ "unquote" := by
  intro h
  have hread := readInt?_writeInt n
  have hnone : readInt? "unquote" = none := by decide
  rw [h, hnone] at hread
  cases hread

/-- Tokens whose text their kind determines never read as `unquote`. -/
theorem telling_fixed (kind kind' : TokenKind) (span span' : Span) :
    TokenRelation.telling .expr (.fixed kind span) (.fixed kind' span') :=
  ⟨kind.text_ne_unquote, kind'.text_ne_unquote⟩

/-- Identifiers that are made of the same name tell what they stand for,
wherever they are placed. -/
theorem telling_mkIdent (name : String) (span span' : Span) :
    Alike .telling (.expr (.mkIdent name span)) (.expr (.mkIdent name span')) :=
  .ident ⟨rfl, rfl⟩

/-- So a name may be visited as an identifier in both passes. -/
theorem telling_names : TokenRelation.telling.Names :=
  fun name => telling_mkIdent name {} {}

/-- So do truth values that are made. -/
theorem telling_mkBool (b : Bool) (span span' : Span) :
    Alike .telling (.expr (.mkBool b span)) (.expr (.mkBool b span')) :=
  .bool (telling_fixed _ _ span span')

/-- So do integers that are made, since no integer is written as
`unquote`. -/
theorem telling_mkInt (n : Int64) (span span' : Span) :
    Alike .telling (.expr (.mkInt n span)) (.expr (.mkInt n span')) :=
  .int ⟨Text.writeInt_ne_unquote n, Text.writeInt_ne_unquote n⟩

end QuoteScript
