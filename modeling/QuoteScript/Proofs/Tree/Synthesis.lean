import QuoteScript.Proofs.Grammar.Places
import QuoteScript.Proofs.Tree.Reparse

/-!
# `QuoteScript.Proofs.Tree.Synthesis`: built trees carry the tokens of parsed ones

A tree that is built part by part, without a source text, is given its
tokens by `Expr.synthesized`, `Stmt.synthesized` and `Block.ofStmts`.
When its text is parsed, the parser gives tokens to the same tree, each
at another moment: the token of an operator is read behind the left
operand, and the one of a call behind the callee.

Both give the same. The tokens that a built tree carries can be written
into a list, with the delimiters between them that no tree carries, and
the grammar derives the list from the tree. So the parser would read the
tree off this list; and it reads the text in the same steps, because the
two lists differ in places only.

One token is not the same. A statement that is an expression shares the
token of the expression when it is built, and starts with its first
token when it is parsed. So the list derives not the built tree itself,
but one with other tokens at such statements.

* `Part.Built`: the trees that are built.
* `TokenRelation.spelled`: tokens of the same kind and with the same
  literal, except where a statement is an expression.
* `Part.Built.derivable`: the list of tokens, by induction on how the
  tree is built.
* `built_tokens_are_parsed`: the tokens of a built expression and those
  of its parsed text.
-/

set_option autoImplicit false

namespace QuoteScript

/-! ### Trees that are built -/

/-- Parts of trees that are built from built parts. The token `t` is what
was there before; it is replaced. -/
inductive Part.Built : Part → Prop where
  | ident (t : Token) (name : String) (span : Span) :
      Built (.expr ((Expr.ident t name).synthesized span))
  | int (t : Token) (n : Int64) (span : Span) : Built (.expr ((Expr.int t n).synthesized span))
  | str (t : Token) (s : String) (span : Span) : Built (.expr ((Expr.str t s).synthesized span))
  | bool (t : Token) (b : Bool) (span : Span) : Built (.expr ((Expr.bool t b).synthesized span))
  | unary (t : Token) (op : UnaryOp) {e : Expr} (span : Span) :
      Built (.expr e) → Built (.expr ((Expr.unary t op e).synthesized span))
  | binary (t : Token) (op : BinaryOp) {l r : Expr} (span : Span) :
      Built (.expr l) → Built (.expr r) → Built (.expr ((Expr.binary t op l r).synthesized span))
  | cond (t : Token) {c : Expr} {b : Block} {a : Option Block} (span : Span) :
      Built (.expr c) → Built (.block b) → Built (.branch a) →
        Built (.expr ((Expr.cond t c b a).synthesized span))
  | lambda (t : Token) (kind : LambdaKind) (params : List String) {b : Block} (span : Span) :
      Built (.block b) → Built (.expr ((Expr.lambda t kind params b).synthesized span))
  | call (t : Token) {f : Expr} {args : List Expr} (span : Span) :
      Built (.expr f) → Built (.exprs args) → Built (.expr ((Expr.call t f args).synthesized span))
  | array (t : Token) {items : List Expr} (span : Span) :
      Built (.exprs items) → Built (.expr ((Expr.array t items).synthesized span))
  | index (t : Token) {l i : Expr} (span : Span) :
      Built (.expr l) → Built (.expr i) → Built (.expr ((Expr.index t l i).synthesized span))
  | dict (t : Token) {entries : List (Expr × Expr)} (span : Span) :
      Built (.pairs entries) → Built (.expr ((Expr.dict t entries).synthesized span))
  -- Lists.
  | noExprs : Built (.exprs [])
  | exprs {e : Expr} {es : List Expr} :
      Built (.expr e) → Built (.exprs es) → Built (.exprs (e :: es))
  | noPairs : Built (.pairs [])
  | pairs {k v : Expr} {entries : List (Expr × Expr)} :
      Built (.expr k) → Built (.expr v) → Built (.pairs entries) →
        Built (.pairs ((k, v) :: entries))
  -- Blocks and statements.
  | noBranch : Built (.branch none)
  | branch {b : Block} : Built (.block b) → Built (.branch (some b))
  | block {body : List Stmt} : Built (.body body) → Built (.block (.ofStmts body))
  | letIn (t : Token) (name : String) {e : Expr} :
      Built (.expr e) → Built (.stmt (Stmt.letIn t name e).synthesized)
  | ret (t : Token) {e : Expr} : Built (.expr e) → Built (.stmt (Stmt.ret t e).synthesized)
  | value (t : Token) {e : Expr} : Built (.expr e) → Built (.stmt (Stmt.expr t e).synthesized)
  | noStmts : Built (.body [])
  | stmts {s : Stmt} {body : List Stmt} :
      Built (.stmt s) → Built (.body body) → Built (.body (s :: body))

/-- Tokens of the same kind and with the same literal. The token of a
statement that is an expression may be any. -/
def TokenRelation.spelled : TokenRelation
  | .stmt, _, _ => True
  | _, t, t' => t.core = t'.core

/-- Such a token may be anywhere. -/
theorem TokenRelation.spelled_moved (role : TokenRole) (t t' t'' : Token)
    (h : spelled role t t') (h' : moved role t' t'') : spelled role t t'' := by
  cases role with
  | stmt => trivial
  | _ => exact Eq.trans h h'

/-! ### The tokens of a built tree -/

/-- Any kinds and literals are those of some tokens. -/
theorem exists_map_core (cores : List Core) : ∃ ts : List Token, ts.map Token.core = cores :=
  ⟨cores.map fun core => ⟨core.1, core.2, {}⟩, by
    rw [List.map_map]
    exact List.map_id cores⟩

namespace Token

variable (kind : TokenKind) (span : Span)

/-- A token that is made of a kind has this kind. -/
theorem kind_fixed : (fixed kind span).kind = kind :=
  rfl

/-- It reads as what the kind is written as. -/
@[simp]
theorem core_fixed : (fixed kind span).core = kind.sign :=
  rfl

end Token

/-- There are tokens that are spelled like the part, and the grammar
derives them from a part that carries the same tokens. Expressions in a
list may be the first ones or stand behind others. -/
def Part.Derivable : Part → Prop
  | .expr e => ∃ e' ts, Alike .spelled (.expr e) (.expr e') ∧
      Derives true (.expr .suffix e') ts ∧ ts.map Token.core = e.spelling
  | .exprs es => ∃ es' ts us, Alike .spelled (.exprs es) (.exprs es') ∧
      (Derives true (.items es') ts ∧ ts.map Token.core = spellItems es) ∧
      Derives true (.moreItems es') us ∧ us.map Token.core = spellMoreItems es
  | .pairs entries => ∃ entries' ts, Alike .spelled (.pairs entries) (.pairs entries') ∧
      Derives true (.pairs entries') ts ∧ ts.map Token.core = spellPairs entries
  | .branch a => ∃ a' ts, Alike .spelled (.branch a) (.branch a') ∧
      Derives true (.branch a') ts ∧ ts.map Token.core = spellElse a
  | .block b => ∃ b' ts, Alike .spelled (.block b) (.block b') ∧
      Derives true (.block b') ts ∧ ts.map Token.core = b.spelling
  | .stmt s => ∃ s' ts, Alike .spelled (.stmt s) (.stmt s') ∧
      Derives true (.stmt s') ts ∧ ts.map Token.core = s.spelling
  | .body ss => ∃ ss' ts, Alike .spelled (.body ss) (.body ss') ∧
      Derives true (.stmts ss') ts ∧ ts.map Token.core = spellBody ss

/-- The tokens that a built tree carries are those of a list that the
grammar derives from it. -/
theorem Part.Built.derivable {part : Part} (h : part.Built) : part.Derivable := by
  -- The delimiters are in no tree, so any token of the right kind will do.
  have hsign (kind : TokenKind) : (Token.fixed kind {}).kind = kind := Token.kind_fixed kind {}
  induction h with
  | ident _ name span => exact ⟨_, [⟨.ident, name, span⟩], .ident rfl, .ident rfl, rfl⟩
  | int _ n span =>
      exact ⟨_, [⟨.int, Text.writeInt n, span⟩], .int rfl, .int rfl (Text.readInt?_writeInt n), rfl⟩
  | str _ s span => exact ⟨_, [⟨.string, s, span⟩], .str rfl, .str rfl, rfl⟩
  | bool _ b span =>
      cases b with
      | true => exact ⟨_, [.fixed .trueWord span], .bool rfl, .trueWord rfl, rfl⟩
      | false => exact ⟨_, [.fixed .falseWord span], .bool rfl, .falseWord rfl, rfl⟩
  | unary _ op span _ ih =>
      obtain ⟨e', ts, halike, he, hts⟩ := ih
      have hunary := Derives.unary (Token.kind_fixed op.tokenKind span) (he.loosen (by decide))
      refine ⟨_, _, .unary rfl halike,
        .group (hsign .leftParen) (hsign .rightParen) (hunary.loosen (by decide)), ?_⟩
      simp [hts, Expr.synthesized, Expr.withToken, Expr.canonicalToken, Expr.spelling]
  | binary _ op span _ _ ihl ihr =>
      obtain ⟨l', ls, hleft, hl, hls⟩ := ihl
      obtain ⟨r', rs, hright, hr, hrs⟩ := ihr
      have hbinary := Derives.binary (Token.kind_fixed op.tokenKind span)
        (hl.loosen (Level.rank_le _)) (hr.loosen (Level.rank_le _))
      refine ⟨_, _, .binary rfl hleft hright, .group (hsign .leftParen) (hsign .rightParen)
        (hbinary.loosen (by cases op <;> decide)), ?_⟩
      simp [hls, hrs, Expr.synthesized, Expr.withToken, Expr.canonicalToken, Expr.spelling]
  | cond _ span _ _ _ ihc ihb iha =>
      obtain ⟨c', cs, hcondition, hc, hcs⟩ := ihc
      obtain ⟨b', bs, hconsequence, hb, hbs⟩ := ihb
      obtain ⟨a', as, halternative, ha, has⟩ := iha
      -- The parentheses that are written around a condition group it.
      have hgroup := Derives.group (hsign .leftParen) (hsign .rightParen) (hc.loosen (by decide))
      refine ⟨_, _, .cond rfl hcondition hconsequence halternative,
        .cond (Token.kind_fixed .ifWord span) (hgroup.loosen (by decide)) hb ha, ?_⟩
      simp [hcs, hbs, has, Expr.synthesized, Expr.withToken, Expr.canonicalToken, Expr.spelling]
  | lambda _ kind params span _ ih =>
      obtain ⟨b', bs, halike, hb, hbs⟩ := ih
      obtain ⟨ns, hns⟩ := exists_map_core (spellParams params)
      refine ⟨_, _, .lambda rfl halike, .lambda (Token.kind_fixed kind.tokenKind span)
        (hsign .leftParen) (hsign .rightParen) (derives_spellParams params hns) hb, ?_⟩
      simp [hns, hbs, Expr.synthesized, Expr.withToken, Expr.canonicalToken, Expr.spelling]
  | call _ span _ _ ihf iha =>
      obtain ⟨f', fs, hcallee, hf, hfs⟩ := ihf
      obtain ⟨args', as, _, hargs, ⟨ha, has⟩, -⟩ := iha
      refine ⟨_, _, .call rfl hcallee hargs,
        .call (Token.kind_fixed .leftParen span) (hsign .rightParen) hf ha, ?_⟩
      simp [hfs, has, Expr.synthesized, Expr.withToken, Expr.canonicalToken, Expr.spelling]
  | array _ span _ ih =>
      obtain ⟨items', is, _, halike, ⟨hi, his⟩, -⟩ := ih
      refine ⟨_, _, .array rfl halike,
        .array (Token.kind_fixed .leftBracket span) (hsign .rightBracket) hi, ?_⟩
      simp [his, Expr.synthesized, Expr.withToken, Expr.canonicalToken, Expr.spelling]
  | index _ span _ _ ihl ihi =>
      obtain ⟨l', ls, hleft, hl, hls⟩ := ihl
      obtain ⟨i', is, hindex, hi, his⟩ := ihi
      have hsuffix := Derives.index (Token.kind_fixed .leftBracket span) (hsign .rightBracket)
        hl (hi.loosen (by decide))
      refine ⟨_, _, .index rfl hleft hindex,
        .group (hsign .leftParen) (hsign .rightParen) (hsuffix.loosen (by decide)), ?_⟩
      simp [hls, his, Expr.synthesized, Expr.withToken, Expr.canonicalToken, Expr.spelling]
  | dict _ span _ ih =>
      obtain ⟨entries', es, halike, he, hes⟩ := ih
      refine ⟨_, _, .dict rfl halike,
        .dict (Token.kind_fixed .leftBrace span) (hsign .rightBrace) he, ?_⟩
      simp [hes, Expr.synthesized, Expr.withToken, Expr.canonicalToken, Expr.spelling]
  | noExprs => exact ⟨_, [], [], .noExprs, ⟨.noItems, rfl⟩, .noMoreItems, rfl⟩
  | exprs _ _ ihe ihes =>
      obtain ⟨e', ts, halike, he, hts⟩ := ihe
      obtain ⟨es', _, us, hrest, -, hes, hus⟩ := ihes
      refine ⟨_, _, _, .exprs halike hrest, ⟨.items (he.loosen (by decide)) hes, ?_⟩,
        .moreItems (hsign .comma) (he.loosen (by decide)) hes, ?_⟩
      · simp [hts, hus, spellItems]
      · simp [hts, hus, spellMoreItems]
  | noPairs => exact ⟨_, [], .noPairs, .noPairs, rfl⟩
  | @pairs _ _ entries _ _ _ ihk ihv ihes =>
      obtain ⟨k', ks, hkey, hk, hks⟩ := ihk
      obtain ⟨v', vs, hvalue, hv, hvs⟩ := ihv
      obtain ⟨entries', us, hrest, hes, hus⟩ := ihes
      -- The grammar puts a comma behind every pair but the last one.
      cases entries with
      | nil =>
          refine ⟨_, _, .pairs hkey hvalue .noPairs,
            .lastPair (hsign .colon) (hk.loosen (by decide)) (hv.loosen (by decide)), ?_⟩
          simp [hks, hvs, spellPairs, spellMorePairs]
      | cons entry entries =>
          refine ⟨_, _, .pairs hkey hvalue hrest, .pairs (hsign .colon) (hsign .comma)
            (hk.loosen (by decide)) (hv.loosen (by decide)) hes, ?_⟩
          simp [hks, hvs, hus, spellPairs, spellMorePairs]
  | noBranch => exact ⟨_, [], .noBranch, .noBranch, rfl⟩
  | branch _ ih =>
      obtain ⟨b', bs, halike, hb, hbs⟩ := ih
      refine ⟨_, _, .branch halike, .branch (hsign .elseWord) hb, ?_⟩
      simp [hbs, spellElse]
  | block _ ih =>
      obtain ⟨body', ts, halike, hbody, hts⟩ := ih
      refine ⟨_, _, .block rfl halike, .block (hsign .leftBrace) (hsign .rightBrace) hbody, ?_⟩
      simp [hts, Block.ofStmts, Block.spelling]
  | letIn _ name _ ih =>
      obtain ⟨e', ts, halike, he, hts⟩ := ih
      have hname : (Token.mk .ident name {}).kind = .ident := rfl
      have hcore : (Token.mk .ident name {}).core = (.ident, name) := rfl
      refine ⟨_, _, .letIn rfl halike,
        .letIn (hsign .letWord) hname (hsign .assign) (he.loosen (by decide)), ?_⟩
      simp [hts, hcore, Stmt.synthesized, Stmt.spelling]
  | ret _ _ ih =>
      obtain ⟨e', ts, halike, he, hts⟩ := ih
      refine ⟨_, _, .ret rfl halike, .ret (hsign .returnWord) (he.loosen (by decide)), ?_⟩
      simp [hts, Stmt.synthesized, Stmt.spelling]
  | value _ _ ih =>
      obtain ⟨e', ts, halike, he, hts⟩ := ih
      obtain ⟨t, us, rfl, -⟩ := he.startsExpr
      exact ⟨_, _, .value trivial halike, .expr (he.loosen (by decide)), hts⟩
  | noStmts => exact ⟨_, [], .noStmts, .noStmts, rfl⟩
  | stmts _ _ ihs ihss =>
      obtain ⟨s', ts, halike, hs, hts⟩ := ihs
      obtain ⟨ss', us, hrest, hss, hus⟩ := ihss
      refine ⟨_, _, .stmts halike hrest, .semicolon (hsign .semicolon) hs hss, ?_⟩
      simp [hts, hus, spellBody]

/-! ### The tokens of the parser -/

/-- The text of a built expression is parsed without errors, as one
statement, and the expression of this statement is the built one. Both
carry tokens of the same kinds and with the same literals, except where
a statement is an expression. -/
theorem built_tokens_are_parsed {e : Expr} (hbuilt : Part.Built (.expr e)) (hwell : e.WellFormed) :
    (parse e.render).errors = [] ∧
      ∃ t e', (parse e.render).program = [.expr t e'] ∧ Alike .spelled (.expr e) (.expr e') := by
  obtain ⟨e', ts, halike, he, hts⟩ := hbuilt.derivable
  obtain ⟨t, us, rfl, -⟩ := he.startsExpr
  have hstmts : Derives true (.stmts [.expr t e']) (t :: us) := by
    have hstmts := Derives.noSemicolon (fun _ => rfl) (.expr (he.loosen (by decide))) .noStmts
    rwa [List.append_nil] at hstmts
  -- The parser reads the tree off the tokens of the built one.
  have hlisted : parseTokens (t :: us ++ [Token.eof 0]) = ⟨[.expr t e'], []⟩ := by
    refine parseTokens_of_derives _ ?_
    rwa [List.takeWhile_append_of_pos fun t ht => bne_iff_ne.mpr (hstmts.ne_eof t ht),
      List.takeWhile_cons_of_neg (by decide), List.append_nil]
  -- The text has the same tokens, at other places.
  have hcores : (t :: us ++ [Token.eof 0]).map Token.core = (tokenize e.render).map Token.core := by
    have hlex := e.lexemes_render hwell endsWord_nil
    rw [lexemes_nil, List.append_nil, List.append_nil] at hlex
    rw [tokenize_map_core, hlex, List.map_append, hts]
    rfl
  obtain ⟨hprogram, herrors⟩ := parseTokens_moved hcores
  rw [hlisted] at hprogram herrors
  refine ⟨List.map_eq_nil_iff.mp herrors.symm, ?_⟩
  show ∃ t e', (parseTokens (tokenize e.render)).program = _ ∧ _
  generalize (parseTokens (tokenize e.render)).program = program at hprogram
  cases hprogram with
  | stmts hstmt hnone =>
      cases hnone
      cases hstmt with
      | value _ hmoved =>
          exact ⟨_, _, rfl, halike.trans TokenRelation.spelled_moved hmoved⟩

/-- The expression `quote(fn(x) { let y = unquote((-x)); return (y[1]); })`,
built at a place where no text is. The parser gives its `unquote` the
literal by which splices are found. -/
theorem built_tokens_of_quote_are_parsed :
    let span : Span := ⟨3, 4⟩
    let name (s : String) : Expr := (Expr.ident (.eof 0) s).synthesized span
    let call (f arg : Expr) : Expr := (Expr.call (.eof 0) f [arg]).synthesized span
    let negated : Expr := (Expr.unary (.eof 0) .negate (name "x")).synthesized span
    let element : Expr :=
      (Expr.index (.eof 0) (name "y") ((Expr.int (.eof 0) 1).synthesized span)).synthesized span
    let splice : Expr := call (name "unquote") negated
    let body : Block := .ofStmts
      [(Stmt.letIn (.eof 0) "y" splice).synthesized, (Stmt.ret (.eof 0) element).synthesized]
    let lambda : Expr := (Expr.lambda (.eof 0) .function ["x"] body).synthesized span
    let e : Expr := call (name "quote") lambda
    Part.Built (.expr e) ∧ e.WellFormed ∧ (parse e.render).errors = [] ∧
      ∃ t e', (parse e.render).program = [.expr t e'] ∧ Alike .spelled (.expr e) (.expr e') := by
  intro span name call negated element splice body lambda e
  -- All calls have one argument here.
  have hcall {f arg : Expr} (hf : Part.Built (.expr f)) (harg : Part.Built (.expr arg)) :
      Part.Built (.expr (call f arg)) := .call _ span hf (.exprs harg .noExprs)
  have hbuilt : Part.Built (.expr e) := by
    have hsplice : Part.Built (.expr splice) :=
      hcall (.ident _ _ _) (.unary _ _ _ (.ident _ _ _))
    have helement : Part.Built (.expr element) := .index _ _ (.ident _ _ _) (.int _ _ _)
    have hbody : Part.Built (.block body) :=
      .block (.stmts (.letIn _ _ hsplice) (.stmts (.ret _ helement) .noStmts))
    exact hcall (.ident _ _ _) (.lambda _ _ _ _ hbody)
  have hwell : e.WellFormed := by
    have hx : IsName "x" := by decide
    have hy : IsName "y" := by decide
    have hsplice : splice.WellFormed := ⟨show IsName "unquote" by decide, hx, trivial⟩
    have helement : element.WellFormed := ⟨hy, show (0 : Int64) ≤ 1 by decide⟩
    exact ⟨show IsName "quote" by decide,
      ⟨List.forall_mem_singleton.mpr hx, ⟨hy, hsplice⟩, helement, trivial⟩, trivial⟩
  exact ⟨hbuilt, hwell, built_tokens_are_parsed hbuilt hwell⟩

end QuoteScript
