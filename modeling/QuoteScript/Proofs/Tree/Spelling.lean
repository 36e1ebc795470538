import QuoteScript.Proofs.Tree.Lexicon
import QuoteScript.Tree.Render

/-!
# `QuoteScript.Proofs.Tree.Spelling`: the tokens of a rendered tree

The text of a tree is scanned as tokens. `Expr.spelling` says which
ones, computed from the tree alone.

A text that follows a tree must not go on with a word, or the last word
of the tree would run into it. Nothing that `render` puts behind a part
of a tree does.

* `Expr.lexemes_render`, `Block.lexemes_render`, `Stmt.lexemes_render`:
  the lexemes of the text of a well-formed tree, whatever text follows.
* `Program.lexemes_render`: the same for programs.
-/

set_option autoImplicit false

namespace QuoteScript

/-- What a token is whose kind alone decides its spelling. -/
def TokenKind.sign (kind : TokenKind) : Core :=
  (kind, kind.text)

/-! ### Spellings -/

/-- The tokens of parameters behind the first one, each with a comma in
front. -/
def spellMoreParams : List String → List Core
  | [] => []
  | name :: rest => TokenKind.comma.sign :: (.ident, name) :: spellMoreParams rest

/-- The tokens of parameters, with commas between them. -/
def spellParams : List String → List Core
  | [] => []
  | name :: rest => (.ident, name) :: spellMoreParams rest

mutual

/-- The tokens of an expression. -/
def Expr.spelling : Expr → List Core
  | .ident _ name => [(.ident, name)]
  | .int _ value => [(.int, Text.writeInt value)]
  | .str _ value => [(.string, value)]
  | .bool _ true => [TokenKind.trueWord.sign]
  | .bool _ false => [TokenKind.falseWord.sign]
  | .unary _ op operand =>
    TokenKind.leftParen.sign :: op.tokenKind.sign :: operand.spelling
      ++ [TokenKind.rightParen.sign]
  | .binary _ op left right =>
    TokenKind.leftParen.sign :: left.spelling ++ op.tokenKind.sign :: right.spelling
      ++ [TokenKind.rightParen.sign]
  | .cond _ condition consequence alternative =>
    TokenKind.ifWord.sign :: TokenKind.leftParen.sign :: condition.spelling
      ++ TokenKind.rightParen.sign :: consequence.spelling ++ spellElse alternative
  | .lambda _ kind params body =>
    kind.tokenKind.sign :: TokenKind.leftParen.sign :: spellParams params
      ++ TokenKind.rightParen.sign :: body.spelling
  | .call _ callee args =>
    callee.spelling ++ TokenKind.leftParen.sign :: spellItems args
      ++ [TokenKind.rightParen.sign]
  | .array _ items =>
    TokenKind.leftBracket.sign :: spellItems items ++ [TokenKind.rightBracket.sign]
  | .index _ left index =>
    TokenKind.leftParen.sign :: left.spelling ++ TokenKind.leftBracket.sign :: index.spelling
      ++ [TokenKind.rightBracket.sign, TokenKind.rightParen.sign]
  | .dict _ pairs =>
    TokenKind.leftBrace.sign :: spellPairs pairs ++ [TokenKind.rightBrace.sign]

/-- The tokens of expressions, with commas between them. -/
def spellItems : List Expr → List Core
  | [] => []
  | e :: rest => e.spelling ++ spellMoreItems rest

/-- The tokens of expressions, each with a comma in front. -/
def spellMoreItems : List Expr → List Core
  | [] => []
  | e :: rest => TokenKind.comma.sign :: e.spelling ++ spellMoreItems rest

/-- The tokens of the pairs of a dict, with commas between them. -/
def spellPairs : List (Expr × Expr) → List Core
  | [] => []
  | (key, value) :: rest =>
    key.spelling ++ TokenKind.colon.sign :: value.spelling ++ spellMorePairs rest

/-- The tokens of pairs, each with a comma in front. -/
def spellMorePairs : List (Expr × Expr) → List Core
  | [] => []
  | (key, value) :: rest =>
    TokenKind.comma.sign :: key.spelling ++ TokenKind.colon.sign :: value.spelling
      ++ spellMorePairs rest

/-- The tokens of the branch that may follow the first one. -/
def spellElse : Option Block → List Core
  | none => []
  | some b => TokenKind.elseWord.sign :: b.spelling

/-- The tokens of a block. -/
def Block.spelling : Block → List Core
  | .mk _ body => TokenKind.leftBrace.sign :: spellBody body ++ [TokenKind.rightBrace.sign]

/-- The tokens of statements. -/
def spellBody : List Stmt → List Core
  | [] => []
  | s :: rest => s.spelling ++ TokenKind.semicolon.sign :: spellBody rest

/-- The tokens of a statement, without its semicolon. -/
def Stmt.spelling : Stmt → List Core
  | .letIn _ name value =>
    TokenKind.letWord.sign :: (.ident, name) :: TokenKind.assign.sign :: value.spelling
  | .ret _ value => TokenKind.returnWord.sign :: value.spelling
  | .expr _ value => value.spelling

end

/-! ### Lexemes of what stands between the parts -/

/-- The characters that delimit the parts of a tree. -/
def isDelimiter (c : Char) : Bool :=
  c == '(' || c == ')' || c == '[' || c == ']' || c == '\x7b' || c == '\x7d' || c == ',' ||
    c == ':' || c == ';'

/-- A delimiter is a token by itself. -/
theorem lexemes_delimiter {c : Char} (hc : isDelimiter c = true) (rest : List Char) :
    lexemes (c :: rest) = ((punctuation? c).getD .illegal).sign :: lexemes rest := by
  simp only [isDelimiter, Bool.or_eq_true, beq_iff_eq] at hc
  rcases hc with (((((((rfl | rfl) | rfl) | rfl) | rfl) | rfl) | rfl) | rfl) | rfl <;>
    exact lexemes_symbol rfl (.inl (by decide))

/-- No delimiter goes on with a word. -/
theorem endsWord_delimiter {c : Char} (hc : isDelimiter c = true) (rest : List Char) :
    EndsWord (c :: rest) := by
  simp only [isDelimiter, Bool.or_eq_true, beq_iff_eq] at hc
  rcases hc with (((((((rfl | rfl) | rfl) | rfl) | rfl) | rfl) | rfl) | rfl) | rfl <;>
    exact endsWord_cons (by decide) rest

/-- A word ends in front of a space. -/
theorem endsWord_space (rest : List Char) : EndsWord (' ' :: rest) :=
  endsWord_cons (by decide) rest

/-- A space in front is skipped. -/
theorem lexemes_space (rest : List Char) : lexemes (' ' :: rest) = lexemes rest :=
  lexemes_blank (by decide) rest

/-- An operator with a space behind it. -/
theorem BinaryOp.lexemes_text (op : BinaryOp) (rest : List Char) :
    lexemes (op.text.toList ++ ' ' :: rest) = op.tokenKind.sign :: lexemes rest := by
  rw [← lexemes_space rest]
  -- `==` and `!=` are read as one token each; the other operators are characters.
  cases op with
  | equal | notEqual => exact lexemes_read (by decide) _
  | _ => exact lexemes_symbol rfl (.inl (by decide))

/-- An operator in front of its operand, which does not start with
`=`. -/
theorem UnaryOp.lexemes_text (op : UnaryOp) {rest : List Char} (h : ∀ c ∈ rest.head?, c ≠ '=') :
    lexemes (op.text.toList ++ rest) = op.tokenKind.sign :: lexemes rest := by
  cases op with
  | negate => exact lexemes_symbol rfl (.inr h)
  | not => exact lexemes_symbol rfl (.inr h)

/-- A number that is not negative is written with digits only. -/
theorem writeInt_of_nonneg {n : Int64} (hn : 0 ≤ n) :
    ∃ c cs, Text.writeInt n = String.ofList (c :: cs) ∧ ∀ d ∈ c :: cs, d.isDigit = true := by
  rw [Int64.le_iff_toInt_le] at hn
  unfold Text.writeInt
  split
  · next m hm =>
      have hdigits : ∀ d ∈ Nat.toDigits 10 m, d.isDigit = true := fun d hd =>
        Nat.isDigit_of_mem_toDigits (by decide) (by decide) hd
      rw [Nat.repr_eq_ofList_toDigits]
      cases hlist : Nat.toDigits 10 m with
      | nil => exact absurd hlist Nat.toDigits_ne_nil
      | cons c cs => exact ⟨c, cs, rfl, hlist ▸ hdigits⟩
  · next m hm =>
      -- A sign is written in front of negative numbers only.
      rw [hm] at hn
      exact absurd hn (Int.not_le.mpr (Int.negSucc_lt_zero m))

/-- Such a number in front of a text. -/
theorem lexemes_writeInt {n : Int64} (hn : 0 ≤ n) {rest : List Char} (hrest : EndsWord rest) :
    lexemes ((Text.writeInt n).toList ++ rest) = (.int, Text.writeInt n) :: lexemes rest := by
  obtain ⟨c, cs, hwrite, hdigits⟩ := writeInt_of_nonneg hn
  rw [hwrite, String.toList_ofList]
  exact lexemes_digits hdigits hrest

/-- The texts of a row are the first one, and the others with the
separator in front of each. -/
theorem toList_intercalate_cons (sep text : String) (texts : List String) :
    (sep.intercalate (text :: texts)).toList
      = text.toList ++ texts.flatMap fun t => sep.toList ++ t.toList := by
  rw [String.toList_intercalate]
  induction texts generalizing text with
  | nil => simp
  | cons t texts ih =>
      have ih := ih t
      rw [List.map_cons] at ih
      rw [List.map_cons, List.map_cons, List.intercalate_cons_cons, ih, List.flatMap_cons,
        List.append_assoc, List.append_assoc]

/-- The text of a tree starts with no `=`. -/
theorem Expr.head_render_ne : ∀ e : Expr, e.WellFormed → ∀ rest,
    ∀ c ∈ (e.render.toList ++ rest).head?, c ≠ '='
  | .ident _ name, h, rest => by
      obtain ⟨c, cs, rfl, hc, -, -⟩ := isName_iff.mp h
      simp only [render, String.toList_ofList]
      rintro _ ⟨⟩ rfl
      cases hc
  | .int _ n, h, rest => by
      obtain ⟨c, cs, hwrite, hdigits⟩ := writeInt_of_nonneg h
      rw [render, hwrite, String.toList_ofList]
      rintro _ ⟨⟩ rfl
      cases hdigits _ List.mem_cons_self
  | .str _ s, h, rest => by simp [render, Text.quoted]
  | .bool _ true, h, rest => by simp [render, TokenKind.text]
  | .bool _ false, h, rest => by simp [render, TokenKind.text]
  -- The other expressions start with a character of their own, a bracket or a letter.
  | .unary _ _ _, h, rest => by simp [render]
  | .binary _ _ _ _, h, rest => by simp [render]
  | .cond _ _ _ _, h, rest => by simp [render]
  | .lambda _ kind _ _, h, rest => by
      cases kind <;> simp [render, lambdaHead, LambdaKind.tokenKind, TokenKind.text]
  | .call _ callee _, h, rest => by
      simp only [render, String.toList_append, List.append_assoc]
      exact callee.head_render_ne h.1 _
  | .array _ _, h, rest => by simp [render]
  | .index _ _ _, h, rest => by simp [render]
  | .dict _ _, h, rest => by simp [render]

/-- What follows the first text of a row goes on with no word. -/
theorem endsWord_moreTexts (texts : List String) {rest : List Char} (hrest : EndsWord rest) :
    EndsWord ((texts.flatMap fun t => ", ".toList ++ t.toList) ++ rest) := by
  cases texts with
  | nil => exact hrest
  | cons _ _ => exact endsWord_cons (c := ',') (by decide) _

/-- The texts of parameters behind the first one. -/
theorem lexemes_moreParams (names : List String) (h : ∀ name ∈ names, IsName name)
    {rest : List Char} (hrest : EndsWord rest) :
    lexemes ((names.flatMap fun t => ", ".toList ++ t.toList) ++ rest)
      = spellMoreParams names ++ lexemes rest := by
  induction names with
  | nil => rfl
  | cons name names ih =>
      obtain ⟨hname, hnames⟩ := List.forall_mem_cons.mp h
      rw [List.flatMap_cons, List.append_assoc, List.append_assoc]
      show lexemes (',' :: ' ' :: (name.toList ++ _)) = _
      rw [lexemes_delimiter (by decide), lexemes_space,
        lexemes_name hname (endsWord_moreTexts names hrest), ih hnames]
      rfl

/-- The texts of parameters. -/
theorem lexemes_params (names : List String) (h : ∀ name ∈ names, IsName name)
    {rest : List Char} (hrest : EndsWord rest) :
    lexemes ((commaSeparated names).toList ++ rest) = spellParams names ++ lexemes rest := by
  cases names with
  | nil => rfl
  | cons name names =>
      obtain ⟨hname, hnames⟩ := List.forall_mem_cons.mp h
      rw [commaSeparated, toList_intercalate_cons, List.append_assoc,
        lexemes_name hname (endsWord_moreTexts names hrest), lexemes_moreParams names hnames hrest]
      rfl

mutual

/-- The text of an expression is scanned as its tokens. -/
theorem Expr.lexemes_render : ∀ e : Expr, e.WellFormed → ∀ {rest}, EndsWord rest →
    lexemes (e.render.toList ++ rest) = e.spelling ++ lexemes rest
  | .ident _ name, h, rest, hrest => lexemes_name h hrest
  | .int _ value, h, rest, hrest => lexemes_writeInt h hrest
  | .str _ value, _, rest, _ => lexemes_quoted value rest
  | .bool _ true, _, rest, hrest => lexemes_keyword .trueWord (by decide) hrest
  | .bool _ false, _, rest, hrest => lexemes_keyword .falseWord (by decide) hrest
  | .unary _ op operand, h, rest, _ => by
      simp only [Expr.render, Expr.spelling, String.toList_append, List.append_assoc,
        List.cons_append]
      show lexemes ('(' :: (op.text.toList ++ (operand.render.toList ++ ')' :: rest))) = _
      -- `!` and `=` would be one token, so the operand must not start with `=`.
      rw [lexemes_delimiter (by decide), op.lexemes_text (operand.head_render_ne h _),
        operand.lexemes_render h (endsWord_delimiter (by decide) _),
        lexemes_delimiter (by decide)]
      rfl
  | .binary _ op left right, ⟨hleft, hright⟩, rest, _ => by
      simp only [Expr.render, Expr.spelling, String.toList_append, List.append_assoc,
        List.cons_append]
      show lexemes ('(' :: (left.render.toList ++ ' ' :: (op.text.toList ++
        ' ' :: (right.render.toList ++ ')' :: rest)))) = _
      rw [lexemes_delimiter (by decide), left.lexemes_render hleft (endsWord_space _),
        lexemes_space, op.lexemes_text,
        right.lexemes_render hright (endsWord_delimiter (by decide) _),
        lexemes_delimiter (by decide)]
      rfl
  | .cond _ condition consequence alternative, ⟨hc, hb, ha⟩, rest, hrest => by
      simp only [Expr.render, Expr.spelling, String.toList_append, List.append_assoc,
        List.cons_append]
      show lexemes (TokenKind.ifWord.text.toList ++ ' ' :: '(' :: (condition.render.toList ++
        ')' :: ' ' :: (consequence.render.toList ++ ((renderElse alternative).toList ++ rest)))) = _
      rw [lexemes_keyword .ifWord (by decide) (endsWord_space _), lexemes_space,
        lexemes_delimiter (by decide),
        condition.lexemes_render hc (endsWord_delimiter (by decide) _),
        lexemes_delimiter (by decide), lexemes_space, consequence.lexemes_render hb,
        lexemes_renderElse alternative ha]
      rfl
  | .lambda _ kind params body, ⟨hparams, hbody⟩, rest, _ => by
      simp only [Expr.render, Expr.spelling, lambdaHead, String.toList_append, List.append_assoc,
        List.cons_append]
      show lexemes (kind.tokenKind.text.toList ++ '(' :: ((commaSeparated params).toList ++
        ')' :: ' ' :: (body.render.toList ++ rest))) = _
      rw [lexemes_keyword kind.tokenKind (by cases kind <;> decide)
          (endsWord_delimiter (by decide) _),
        lexemes_delimiter (by decide),
        lexemes_params params hparams (endsWord_delimiter (by decide) _),
        lexemes_delimiter (by decide), lexemes_space, body.lexemes_render hbody]
      rfl
  | .call _ callee args, ⟨hcallee, hargs⟩, rest, _ => by
      simp only [Expr.render, Expr.spelling, String.toList_append, List.append_assoc,
        List.cons_append]
      show lexemes (callee.render.toList ++ '(' :: ((commaSeparated (renderExprs args)).toList ++
        ')' :: rest)) = _
      rw [callee.lexemes_render hcallee (endsWord_delimiter (by decide) _),
        lexemes_delimiter (by decide),
        lexemes_renderItems args hargs (endsWord_delimiter (by decide) _),
        lexemes_delimiter (by decide)]
      rfl
  | .array _ items, h, rest, _ => by
      simp only [Expr.render, Expr.spelling, String.toList_append, List.append_assoc,
        List.cons_append]
      show lexemes ('[' :: ((commaSeparated (renderExprs items)).toList ++ ']' :: rest)) = _
      rw [lexemes_delimiter (by decide),
        lexemes_renderItems items h (endsWord_delimiter (by decide) _),
        lexemes_delimiter (by decide)]
      rfl
  | .index _ left index, ⟨hleft, hindex⟩, rest, _ => by
      simp only [Expr.render, Expr.spelling, String.toList_append, List.append_assoc,
        List.cons_append]
      show lexemes ('(' :: (left.render.toList ++ '[' :: (index.render.toList ++
        ']' :: ')' :: rest))) = _
      rw [lexemes_delimiter (by decide),
        left.lexemes_render hleft (endsWord_delimiter (by decide) _), lexemes_delimiter (by decide),
        index.lexemes_render hindex (endsWord_delimiter (by decide) _),
        lexemes_delimiter (by decide), lexemes_delimiter (by decide)]
      rfl
  | .dict _ pairs, h, rest, _ => by
      simp only [Expr.render, Expr.spelling, String.toList_append, List.append_assoc,
        List.cons_append]
      show lexemes ('\x7b' :: ((commaSeparated (renderPairs pairs)).toList ++ '\x7d' :: rest)) = _
      rw [lexemes_delimiter (by decide),
        lexemes_renderAllPairs pairs h (endsWord_delimiter (by decide) _),
        lexemes_delimiter (by decide)]
      rfl

/-- The texts of expressions in a row. -/
theorem lexemes_renderItems : ∀ es : List Expr, exprsOver .source es → ∀ {rest}, EndsWord rest →
    lexemes ((commaSeparated (renderExprs es)).toList ++ rest) = spellItems es ++ lexemes rest
  | [], _, rest, _ => rfl
  | e :: es, ⟨he, hes⟩, rest, hrest => by
      rw [renderExprs, commaSeparated, toList_intercalate_cons, List.append_assoc,
        e.lexemes_render he (endsWord_moreTexts _ hrest), lexemes_renderMoreItems es hes hrest,
        spellItems, List.append_assoc]

/-- The texts of the expressions behind the first one. -/
theorem lexemes_renderMoreItems : ∀ es : List Expr, exprsOver .source es → ∀ {rest},
    EndsWord rest →
    lexemes (((renderExprs es).flatMap fun t => ", ".toList ++ t.toList) ++ rest)
      = spellMoreItems es ++ lexemes rest
  | [], _, rest, _ => rfl
  | e :: es, ⟨he, hes⟩, rest, hrest => by
      rw [renderExprs, List.flatMap_cons, List.append_assoc, List.append_assoc]
      show lexemes (',' :: ' ' :: (e.render.toList ++ _)) = _
      rw [lexemes_delimiter (by decide), lexemes_space,
        e.lexemes_render he (endsWord_moreTexts _ hrest), lexemes_renderMoreItems es hes hrest,
        spellMoreItems, List.cons_append, List.cons_append, List.append_assoc]
      rfl

/-- The texts of the pairs of a dict. -/
theorem lexemes_renderAllPairs : ∀ pairs : List (Expr × Expr), pairsOver .source pairs →
    ∀ {rest}, EndsWord rest →
    lexemes ((commaSeparated (renderPairs pairs)).toList ++ rest) = spellPairs pairs ++ lexemes rest
  | [], _, rest, _ => rfl
  | (key, value) :: pairs, ⟨hkey, hvalue, hpairs⟩, rest, hrest => by
      simp only [renderPairs, commaSeparated, toList_intercalate_cons, spellPairs,
        String.toList_append, List.append_assoc, List.cons_append]
      show lexemes (key.render.toList ++ ':' :: ' ' :: (value.render.toList ++ _)) = _
      rw [key.lexemes_render hkey (endsWord_delimiter (by decide) _),
        lexemes_delimiter (by decide), lexemes_space,
        value.lexemes_render hvalue (endsWord_moreTexts _ hrest),
        lexemes_renderMorePairs pairs hpairs hrest]
      rfl

/-- The texts of the pairs behind the first one. -/
theorem lexemes_renderMorePairs : ∀ pairs : List (Expr × Expr), pairsOver .source pairs →
    ∀ {rest}, EndsWord rest →
    lexemes (((renderPairs pairs).flatMap fun t => ", ".toList ++ t.toList) ++ rest)
      = spellMorePairs pairs ++ lexemes rest
  | [], _, rest, _ => rfl
  | (key, value) :: pairs, ⟨hkey, hvalue, hpairs⟩, rest, hrest => by
      simp only [renderPairs, List.flatMap_cons, spellMorePairs, String.toList_append,
        List.append_assoc, List.cons_append]
      show lexemes (',' :: ' ' :: (key.render.toList ++ ':' :: ' ' :: (value.render.toList ++ _)))
        = _
      -- A comma, a key, a colon, a value, and then the pairs behind.
      rw [lexemes_delimiter (by decide), lexemes_space,
        key.lexemes_render hkey (endsWord_delimiter (by decide) _),
        lexemes_delimiter (by decide), lexemes_space,
        value.lexemes_render hvalue (endsWord_moreTexts _ hrest),
        lexemes_renderMorePairs pairs hpairs hrest]
      rfl

/-- The text of the branch that may follow the first one. -/
theorem lexemes_renderElse : ∀ b : Option Block, elseOver .source b → ∀ {rest},
    lexemes ((renderElse b).toList ++ rest) = spellElse b ++ lexemes rest
  | none, _, rest => rfl
  | some b, h, rest => by
      simp only [renderElse, spellElse, String.toList_append, List.append_assoc, List.cons_append]
      show lexemes (' ' :: (TokenKind.elseWord.text.toList ++ ' ' :: (b.render.toList ++ rest))) = _
      rw [lexemes_space, lexemes_keyword .elseWord (by decide) (endsWord_space _), lexemes_space,
        b.lexemes_render h]
      rfl

/-- The text of a block. -/
theorem Block.lexemes_render : ∀ b : Block, b.Over .source → ∀ {rest},
    lexemes (b.render.toList ++ rest) = b.spelling ++ lexemes rest
  | .mk _ body, h, rest => by
      simp only [Block.render, Block.spelling, String.toList_append, List.append_assoc,
        List.cons_append]
      show lexemes ('\x7b' :: ((renderBody body).toList ++ ' ' :: '\x7d' :: rest)) = _
      rw [lexemes_delimiter (by decide), lexemes_renderBody body h, lexemes_space,
        lexemes_delimiter (by decide)]
      rfl

/-- The texts of the statements of a block. -/
theorem lexemes_renderBody : ∀ body : List Stmt, bodyOver .source body → ∀ {rest},
    lexemes ((renderBody body).toList ++ rest) = spellBody body ++ lexemes rest
  | [], _, rest => rfl
  | s :: body, ⟨hs, hbody⟩, rest => by
      simp only [renderBody, spellBody, String.toList_append, List.append_assoc, List.cons_append]
      show lexemes (' ' :: (s.render.toList ++ ((renderBody body).toList ++ rest))) = _
      rw [lexemes_space, s.lexemes_render hs, lexemes_renderBody body hbody]

/-- The text of a statement, with its semicolon. -/
theorem Stmt.lexemes_render : ∀ s : Stmt, s.Over .source → ∀ {rest},
    lexemes (s.render.toList ++ rest)
      = s.spelling ++ TokenKind.semicolon.sign :: lexemes rest
  | .letIn _ name value, ⟨hname, hvalue⟩, rest => by
      simp only [Stmt.render, Stmt.spelling, String.toList_append, List.append_assoc,
        List.cons_append]
      -- Every word is set off by a space, and the value ends at the semicolon.
      show lexemes (TokenKind.letWord.text.toList ++ ' ' :: (name.toList ++ ' ' :: '=' :: ' ' ::
        (value.render.toList ++ ';' :: rest))) = _
      rw [lexemes_keyword .letWord (by decide) (endsWord_space _), lexemes_space,
        lexemes_name hname (endsWord_space _), lexemes_space,
        lexemes_symbol (show punctuation? '=' = some .assign from rfl) (.inr (by simp)),
        lexemes_space,
        value.lexemes_render hvalue (endsWord_delimiter (by decide) _),
        lexemes_delimiter (by decide)]
      rfl
  | .ret _ value, h, rest => by
      simp only [Stmt.render, Stmt.spelling, String.toList_append, List.append_assoc,
        List.cons_append]
      show lexemes (TokenKind.returnWord.text.toList ++ ' ' :: (value.render.toList ++
        ';' :: rest)) = _
      rw [lexemes_keyword .returnWord (by decide) (endsWord_space _), lexemes_space,
        value.lexemes_render h (endsWord_delimiter (by decide) _), lexemes_delimiter (by decide)]
      rfl
  | .expr _ value, h, rest => by
      simp only [Stmt.render, Stmt.spelling, String.toList_append, List.append_assoc]
      show lexemes (value.render.toList ++ ';' :: rest) = _
      rw [value.lexemes_render h (endsWord_delimiter (by decide) _), lexemes_delimiter (by decide)]
      rfl

end

/-- The texts of statements with a space in front of each. -/
theorem toList_renderBody (body : List Stmt) :
    (renderBody body).toList = (body.map Stmt.render).flatMap fun t => " ".toList ++ t.toList := by
  induction body with
  | nil => rfl
  | cons s body ih =>
      rw [renderBody, String.toList_append, String.toList_append, ih, List.map_cons,
        List.flatMap_cons]

/-- The text of a program is scanned as the tokens of its statements. -/
theorem Program.lexemes_render {program : Program} (h : program.WellFormed) :
    lexemes (Program.render program).toList = spellBody program := by
  cases program with
  | nil => exact lexemes_nil
  | cons s rest =>
      obtain ⟨hs, hrest⟩ := h
      have hbody : lexemes ((renderBody rest).toList ++ []) = spellBody rest ++ lexemes [] :=
        lexemes_renderBody rest hrest
      rw [lexemes_nil, List.append_nil, List.append_nil, toList_renderBody] at hbody
      rw [Program.render, List.map_cons, toList_intercalate_cons, s.lexemes_render hs, hbody]
      rfl

end QuoteScript
