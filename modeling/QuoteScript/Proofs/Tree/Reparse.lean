import QuoteScript.Proofs.Grammar.Parse
import QuoteScript.Proofs.Tree.Spelling
import QuoteScript.Tree.Same

/-!
# `QuoteScript.Proofs.Tree.Reparse`: rendered trees are parsed back

The text of a well-formed tree is scanned as the spelling of the tree,
and the grammar derives tokens that are spelled so from the same tree.
The parser returns what the grammar derives, so a rendered tree is
parsed back as the same tree, up to tokens.

A rendered expression is an atom or ends in the arguments of a call.
So it is derived at the tightest level, wherever it stands.

* `Expr.derives_spelling`, `Block.derives_spelling`,
  `Stmt.derives_spelling`: the grammar derives what is spelled.
* `Program.parse_render`: a rendered program is parsed back.
* `Expr.reads_back`: a rendered expression is parsed as one statement,
  the expression.
-/

set_option autoImplicit false

namespace QuoteScript

/-! ### Tokens that are spelled like a tree -/

/-- Tokens that read as a list of kinds and literals start with a token
that reads as its first one. -/
theorem exists_of_map_core_cons {ts : List Token} {kind : TokenKind} {literal : String}
    {cores : List Core} (h : ts.map Token.core = (kind, literal) :: cores) :
    ∃ t us, ts = t :: us ∧ t.kind = kind ∧ t.literal = literal ∧ us.map Token.core = cores := by
  obtain ⟨t, us, rfl, hcore, hus⟩ := List.map_eq_cons_iff.mp h
  exact ⟨t, us, rfl, congrArg Prod.fst hcore, congrArg Prod.snd hcore, hus⟩

/-- The same for a token whose kind alone decides its spelling. -/
theorem exists_of_map_core_sign {ts : List Token} {kind : TokenKind} {cores : List Core}
    (h : ts.map Token.core = kind.sign :: cores) :
    ∃ t us, ts = t :: us ∧ t.kind = kind ∧ us.map Token.core = cores := by
  obtain ⟨t, us, hts, hkind, -, hus⟩ := exists_of_map_core_cons h
  exact ⟨t, us, hts, hkind, hus⟩

/-- The same for a last token. -/
theorem exists_of_map_core_last {ts : List Token} {kind : TokenKind}
    (h : ts.map Token.core = [kind.sign]) : ∃ t, ts = [t] ∧ t.kind = kind := by
  obtain ⟨t, us, rfl, hkind, hus⟩ := exists_of_map_core_sign h
  rw [List.map_eq_nil_iff] at hus
  subst hus
  exact ⟨t, rfl, hkind⟩

/-! ### Derivations of spellings -/

/-- Parameters behind the first one. -/
theorem derives_spellMoreParams : ∀ (names : List String) (ts : List Token),
    ts.map Token.core = spellMoreParams names → Derives true (.moreParams names) ts
  | [], ts, h => by
      rw [spellMoreParams, List.map_eq_nil_iff] at h
      subst h
      exact .noMoreParams
  | name :: names, ts, h => by
      obtain ⟨comma, us, rfl, hcomma, h⟩ := exists_of_map_core_sign h
      obtain ⟨t, us, rfl, ht, rfl, hus⟩ := exists_of_map_core_cons h
      exact .moreParams hcomma ht (derives_spellMoreParams names us hus)

/-- Parameters. -/
theorem derives_spellParams (names : List String) {ts : List Token}
    (h : ts.map Token.core = spellParams names) : Derives true (.params names) ts := by
  cases names with
  | nil =>
      rw [spellParams, List.map_eq_nil_iff] at h
      subst h
      exact .noParams
  | cons name names =>
      obtain ⟨t, us, rfl, ht, rfl, hus⟩ := exists_of_map_core_cons h
      exact .params ht (derives_spellMoreParams names us hus)

mutual

/-- Tokens that are spelled like an expression derive from it. -/
theorem Expr.derives_spelling : ∀ (e : Expr) (ts : List Token),
    ts.map Token.core = e.spelling →
      ∃ e', Derives true (.expr .suffix e') ts ∧ e'.same e = true
  | .ident _ name, ts, h => by
      obtain ⟨t, us, rfl, ht, hliteral, hus⟩ := exists_of_map_core_cons h
      cases List.map_eq_nil_iff.mp hus
      exact ⟨_, .ident ht, by simp [Expr.same, hliteral]⟩
  | .int _ value, ts, h => by
      obtain ⟨t, us, rfl, ht, hliteral, hus⟩ := exists_of_map_core_cons h
      cases List.map_eq_nil_iff.mp hus
      exact ⟨_, .int ht (by rw [hliteral, Text.readInt?_writeInt]), by simp [Expr.same]⟩
  | .str _ value, ts, h => by
      obtain ⟨t, us, rfl, ht, hliteral, hus⟩ := exists_of_map_core_cons h
      cases List.map_eq_nil_iff.mp hus
      exact ⟨_, .str ht, by simp [Expr.same, hliteral]⟩
  | .bool _ true, ts, h => by
      obtain ⟨t, rfl, ht⟩ := exists_of_map_core_last h
      exact ⟨_, .trueWord ht, by simp [Expr.same]⟩
  | .bool _ false, ts, h => by
      obtain ⟨t, rfl, ht⟩ := exists_of_map_core_last h
      exact ⟨_, .falseWord ht, by simp [Expr.same]⟩
  | .unary _ op operand, ts, h => by
      obtain ⟨lp, us, rfl, hlp, h⟩ := exists_of_map_core_sign h
      obtain ⟨t, us, rfl, ht, h⟩ := exists_of_map_core_sign h
      obtain ⟨us, vs, rfl, hus, h⟩ := List.map_eq_append_iff.mp h
      obtain ⟨rp, rfl, hrp⟩ := exists_of_map_core_last h
      obtain ⟨operand', hoperand, hsame⟩ := operand.derives_spelling us hus
      -- Between parentheses any level may stand, and the whole is an atom again.
      have hunary := Derives.unary ht (hoperand.loosen (by decide))
      refine ⟨_, .group hlp hrp (hunary.loosen (by decide)), ?_⟩
      simp [Expr.same, hsame]
  | .binary _ op left right, ts, h => by
      rw [Expr.spelling, List.append_assoc] at h
      obtain ⟨lp, us, rfl, hlp, h⟩ := exists_of_map_core_sign h
      obtain ⟨ls, us, rfl, hls, h⟩ := List.map_eq_append_iff.mp h
      obtain ⟨t, us, rfl, ht, h⟩ := exists_of_map_core_sign h
      obtain ⟨rs, us, rfl, hrs, h⟩ := List.map_eq_append_iff.mp h
      obtain ⟨rp, rfl, hrp⟩ := exists_of_map_core_last h
      obtain ⟨left', hleft, hleftSame⟩ := left.derives_spelling ls hls
      obtain ⟨right', hright, hrightSame⟩ := right.derives_spelling rs hrs
      have hbinary := Derives.binary ht (hleft.loosen (Level.rank_le _))
        (hright.loosen (Level.rank_le _))
      have hgroup := Derives.group hlp hrp (hbinary.loosen (by cases op <;> decide))
      rw [List.cons_append, List.append_assoc] at hgroup
      refine ⟨_, hgroup, ?_⟩
      simp [Expr.same, hleftSame, hrightSame]
  | .cond _ condition consequence alternative, ts, h => by
      simp only [Expr.spelling, List.cons_append, List.append_assoc] at h
      obtain ⟨t, us, rfl, ht, h⟩ := exists_of_map_core_sign h
      obtain ⟨lp, us, rfl, hlp, h⟩ := exists_of_map_core_sign h
      obtain ⟨cs, us, rfl, hcs, h⟩ := List.map_eq_append_iff.mp h
      obtain ⟨rp, us, rfl, hrp, h⟩ := exists_of_map_core_sign h
      -- The grammar has no parentheses of its own around a condition: they group it.
      obtain ⟨bs, as, rfl, hbs, has⟩ := List.map_eq_append_iff.mp h
      obtain ⟨condition', hcondition, hcsame⟩ := condition.derives_spelling cs hcs
      obtain ⟨consequence', hconsequence, hbsame⟩ := consequence.derives_spelling bs hbs
      obtain ⟨alternative', halternative, hasame⟩ := derives_spellElse alternative as has
      have hgroup := Derives.group hlp hrp (hcondition.loosen (by decide))
      have hcond := Derives.cond ht (hgroup.loosen (by decide)) hconsequence halternative
      simp only [List.cons_append, List.append_assoc, List.nil_append] at hcond
      refine ⟨_, hcond, ?_⟩
      simp [Expr.same, hcsame, hbsame, hasame]
  | .lambda _ kind params body, ts, h => by
      simp only [Expr.spelling, List.cons_append] at h
      obtain ⟨t, us, rfl, ht, h⟩ := exists_of_map_core_sign h
      obtain ⟨lp, us, rfl, hlp, h⟩ := exists_of_map_core_sign h
      obtain ⟨ns, us, rfl, hns, h⟩ := List.map_eq_append_iff.mp h
      obtain ⟨rp, bs, rfl, hrp, hbs⟩ := exists_of_map_core_sign h
      obtain ⟨body', hbody, hsame⟩ := body.derives_spelling bs hbs
      refine ⟨_, .lambda ht hlp hrp (derives_spellParams params hns) hbody, ?_⟩
      simp [Expr.same, hsame]
  | .call _ callee args, ts, h => by
      rw [Expr.spelling, List.append_assoc] at h
      obtain ⟨cs, us, rfl, hcs, h⟩ := List.map_eq_append_iff.mp h
      obtain ⟨lp, us, rfl, hlp, h⟩ := exists_of_map_core_sign h
      obtain ⟨us, vs, rfl, hus, h⟩ := List.map_eq_append_iff.mp h
      obtain ⟨rp, rfl, hrp⟩ := exists_of_map_core_last h
      obtain ⟨callee', hcallee, hcsame⟩ := callee.derives_spelling cs hcs
      obtain ⟨args', hargs, hasame⟩ := derives_spellItems args us hus
      have hcall := Derives.call hlp hrp hcallee hargs
      rw [List.append_assoc, List.cons_append] at hcall
      refine ⟨_, hcall, ?_⟩
      simp [Expr.same, hcsame, hasame]
  | .array _ items, ts, h => by
      obtain ⟨lb, us, rfl, hlb, h⟩ := exists_of_map_core_sign h
      obtain ⟨us, vs, rfl, hus, h⟩ := List.map_eq_append_iff.mp h
      obtain ⟨rb, rfl, hrb⟩ := exists_of_map_core_last h
      obtain ⟨items', hitems, hsame⟩ := derives_spellItems items us hus
      refine ⟨_, .array hlb hrb hitems, ?_⟩
      simp [Expr.same, hsame]
  | .index _ left index, ts, h => by
      simp only [Expr.spelling, List.cons_append, List.append_assoc] at h
      obtain ⟨lp, us, rfl, hlp, h⟩ := exists_of_map_core_sign h
      obtain ⟨ls, us, rfl, hls, h⟩ := List.map_eq_append_iff.mp h
      obtain ⟨lb, us, rfl, hlb, h⟩ := exists_of_map_core_sign h
      obtain ⟨is, us, rfl, his, h⟩ := List.map_eq_append_iff.mp h
      obtain ⟨rb, us, rfl, hrb, h⟩ := exists_of_map_core_sign h
      obtain ⟨rp, rfl, hrp⟩ := exists_of_map_core_last h
      obtain ⟨left', hleft, hleftSame⟩ := left.derives_spelling ls hls
      obtain ⟨index', hindex, hindexSame⟩ := index.derives_spelling is his
      have hsuffix := Derives.index hlb hrb hleft (hindex.loosen (by decide))
      have hgroup := Derives.group hlp hrp (hsuffix.loosen (by decide))
      simp only [List.cons_append, List.append_assoc, List.nil_append] at hgroup
      refine ⟨_, hgroup, ?_⟩
      simp [Expr.same, hleftSame, hindexSame]
  | .dict _ pairs, ts, h => by
      obtain ⟨lb, us, rfl, hlb, h⟩ := exists_of_map_core_sign h
      obtain ⟨us, vs, rfl, hus, h⟩ := List.map_eq_append_iff.mp h
      obtain ⟨rb, rfl, hrb⟩ := exists_of_map_core_last h
      obtain ⟨pairs', hpairs, hsame⟩ := derives_spellPairs pairs us hus
      refine ⟨_, .dict hlb hrb hpairs, ?_⟩
      simp [Expr.same, hsame]

/-- Expressions with commas between them. -/
theorem derives_spellItems : ∀ (es : List Expr) (ts : List Token),
    ts.map Token.core = spellItems es →
      ∃ es', Derives true (.items es') ts ∧ sameExprs es' es = true
  | [], ts, h => by
      cases List.map_eq_nil_iff.mp h
      exact ⟨[], .noItems, by simp [sameExprs]⟩
  | e :: es, ts, h => by
      obtain ⟨us, vs, rfl, hus, hvs⟩ := List.map_eq_append_iff.mp h
      obtain ⟨e', he, hsame⟩ := e.derives_spelling us hus
      obtain ⟨es', hes, hrest⟩ := derives_spellMoreItems es vs hvs
      refine ⟨_, .items (he.loosen (by decide)) hes, ?_⟩
      simp [sameExprs, hsame, hrest]

/-- Expressions with a comma in front of each. -/
theorem derives_spellMoreItems : ∀ (es : List Expr) (ts : List Token),
    ts.map Token.core = spellMoreItems es →
      ∃ es', Derives true (.moreItems es') ts ∧ sameExprs es' es = true
  | [], ts, h => by
      cases List.map_eq_nil_iff.mp h
      exact ⟨[], .noMoreItems, by simp [sameExprs]⟩
  | e :: es, ts, h => by
      obtain ⟨comma, us, rfl, hcomma, h⟩ := exists_of_map_core_sign h
      obtain ⟨us, vs, rfl, hus, hvs⟩ := List.map_eq_append_iff.mp h
      obtain ⟨e', he, hsame⟩ := e.derives_spelling us hus
      obtain ⟨es', hes, hrest⟩ := derives_spellMoreItems es vs hvs
      refine ⟨_, .moreItems hcomma (he.loosen (by decide)) hes, ?_⟩
      simp [sameExprs, hsame, hrest]

/-- Pairs with commas between them. -/
theorem derives_spellPairs : ∀ (pairs : List (Expr × Expr)) (ts : List Token),
    ts.map Token.core = spellPairs pairs →
      ∃ pairs', Derives true (.pairs pairs') ts ∧ samePairs pairs' pairs = true
  | [], ts, h => by
      cases List.map_eq_nil_iff.mp h
      exact ⟨[], .noPairs, by simp [samePairs]⟩
  | [(key, value)], ts, h => by
      rw [spellPairs, spellMorePairs, List.append_nil] at h
      obtain ⟨ks, us, rfl, hks, h⟩ := List.map_eq_append_iff.mp h
      obtain ⟨colon, vs, rfl, hcolon, hvs⟩ := exists_of_map_core_sign h
      obtain ⟨key', hkey, hkeySame⟩ := key.derives_spelling ks hks
      obtain ⟨value', hvalue, hvalueSame⟩ := value.derives_spelling vs hvs
      refine ⟨_, .lastPair hcolon (hkey.loosen (by decide)) (hvalue.loosen (by decide)), ?_⟩
      simp [samePairs, hkeySame, hvalueSame]
  | (key, value) :: pair :: pairs, ts, h => by
      -- The grammar puts the comma behind a pair, and the spelling puts it in front.
      have hmore : spellMorePairs (pair :: pairs)
          = TokenKind.comma.sign :: spellPairs (pair :: pairs) := by
        simp [spellMorePairs, spellPairs]
      rw [spellPairs, List.append_assoc, List.cons_append, hmore] at h
      obtain ⟨ks, us, rfl, hks, h⟩ := List.map_eq_append_iff.mp h
      obtain ⟨colon, us, rfl, hcolon, h⟩ := exists_of_map_core_sign h
      obtain ⟨vs, us, rfl, hvs, h⟩ := List.map_eq_append_iff.mp h
      obtain ⟨comma, us, rfl, hcomma, hus⟩ := exists_of_map_core_sign h
      obtain ⟨key', hkey, hkeySame⟩ := key.derives_spelling ks hks
      obtain ⟨value', hvalue, hvalueSame⟩ := value.derives_spelling vs hvs
      obtain ⟨pairs', hpairs, hsame⟩ := derives_spellPairs (pair :: pairs) us hus
      have hall := Derives.pairs hcolon hcomma (hkey.loosen (by decide))
        (hvalue.loosen (by decide)) hpairs
      rw [List.append_assoc, List.cons_append] at hall
      refine ⟨_, hall, ?_⟩
      simp [samePairs, hkeySame, hvalueSame, hsame]

/-- The branch that may follow the first one. -/
theorem derives_spellElse : ∀ (b : Option Block) (ts : List Token),
    ts.map Token.core = spellElse b →
      ∃ b', Derives true (.branch b') ts ∧ sameElse b' b = true
  | none, ts, h => by
      cases List.map_eq_nil_iff.mp h
      exact ⟨none, .noBranch, by simp [sameElse]⟩
  | some b, ts, h => by
      obtain ⟨t, us, rfl, ht, h⟩ := exists_of_map_core_sign h
      obtain ⟨b', hb, hsame⟩ := b.derives_spelling us h
      exact ⟨_, .branch ht hb, by simp [sameElse, hsame]⟩

/-- Tokens that are spelled like a block derive from it. -/
theorem Block.derives_spelling : ∀ (b : Block) (ts : List Token),
    ts.map Token.core = b.spelling →
      ∃ b', Derives true (.block b') ts ∧ b'.same b = true
  | .mk _ body, ts, h => by
      obtain ⟨lb, us, rfl, hlb, h⟩ := exists_of_map_core_sign h
      obtain ⟨us, vs, rfl, hus, h⟩ := List.map_eq_append_iff.mp h
      obtain ⟨rb, rfl, hrb⟩ := exists_of_map_core_last h
      obtain ⟨body', hbody, hsame⟩ := derives_spellBody body us hus
      exact ⟨_, .block hlb hrb hbody, by simp [Block.same, hsame]⟩

/-- Statements, each with its semicolon. -/
theorem derives_spellBody : ∀ (body : List Stmt) (ts : List Token),
    ts.map Token.core = spellBody body →
      ∃ body', Derives true (.stmts body') ts ∧ sameBody body' body = true
  | [], ts, h => by
      cases List.map_eq_nil_iff.mp h
      exact ⟨[], .noStmts, by simp [sameBody]⟩
  | s :: body, ts, h => by
      obtain ⟨us, vs, rfl, hus, h⟩ := List.map_eq_append_iff.mp h
      obtain ⟨semi, vs, rfl, hsemi, hvs⟩ := exists_of_map_core_sign h
      obtain ⟨s', hs, hsame⟩ := s.derives_spelling us hus
      obtain ⟨body', hbody, hrest⟩ := derives_spellBody body vs hvs
      refine ⟨_, .semicolon hsemi hs hbody, ?_⟩
      simp [sameBody, hsame, hrest]

/-- Tokens that are spelled like a statement derive from it. -/
theorem Stmt.derives_spelling : ∀ (s : Stmt) (ts : List Token),
    ts.map Token.core = s.spelling →
      ∃ s', Derives true (.stmt s') ts ∧ s'.same s = true
  | .letIn _ name value, ts, h => by
      obtain ⟨t, us, rfl, ht, h⟩ := exists_of_map_core_sign h
      obtain ⟨n, us, rfl, hn, hliteral, h⟩ := exists_of_map_core_cons h
      obtain ⟨a, us, rfl, ha, h⟩ := exists_of_map_core_sign h
      obtain ⟨value', hvalue, hsame⟩ := value.derives_spelling us h
      refine ⟨_, .letIn ht hn ha (hvalue.loosen (by decide)), ?_⟩
      simp [Stmt.same, hliteral, hsame]
  | .ret _ value, ts, h => by
      obtain ⟨t, us, rfl, ht, h⟩ := exists_of_map_core_sign h
      obtain ⟨value', hvalue, hsame⟩ := value.derives_spelling us h
      exact ⟨_, .ret ht (hvalue.loosen (by decide)), by simp [Stmt.same, hsame]⟩
  | .expr _ value, ts, h => by
      obtain ⟨value', hvalue, hsame⟩ := value.derives_spelling ts h
      -- The statement gets the first token of its expression.
      obtain ⟨t, us, rfl, -⟩ := hvalue.startsExpr
      exact ⟨_, .expr (hvalue.loosen (by decide)), by simp [Stmt.same, hsame]⟩

end

/-! ### Parsing what was rendered -/

/-- A text whose lexemes the grammar derives from a program is parsed as
the program. -/
theorem parse_of_lexemes {source : String} {cores : List Core}
    (hcores : lexemes source.toList = cores) {P : Program → Prop}
    (h : ∀ ts, ts.map Token.core = cores →
      ∃ program, Derives true (.stmts program) ts ∧ P program) :
    (parse source).errors = [] ∧ P (parse source).program := by
  obtain ⟨ts, us, htokens, hts, hus⟩ :=
    List.map_eq_append_iff.mp ((tokenize_map_core source).trans (by rw [hcores]))
  -- Behind the lexemes comes the end-of-text token, and the parser stops in front of it.
  obtain ⟨final, hfinal⟩ : ∃ final, us = [final] ∧ final.kind = .eof := by
    obtain ⟨t, us, rfl, ht, -, hnil⟩ := exists_of_map_core_cons hus
    cases List.map_eq_nil_iff.mp hnil
    exact ⟨t, rfl, ht⟩
  obtain ⟨program, hderives, hP⟩ := h ts hts
  have htext : (tokenize source).takeWhile (·.kind != .eof) = ts := by
    rw [htokens, hfinal.1, List.takeWhile_append_of_pos fun t ht =>
      bne_iff_ne.mpr (hderives.ne_eof t ht), List.takeWhile_cons_of_neg (by simp [hfinal.2]),
      List.append_nil]
  have hparse : parse source = ⟨program, []⟩ :=
    parseTokens_of_derives (tokenize source) (htext ▸ hderives)
  rw [hparse]
  exact ⟨rfl, hP⟩

/-- A rendered program is parsed back as the same program, without
errors. -/
theorem Program.parse_render {program : Program} (h : program.WellFormed) :
    (parse (Program.render program)).errors = [] ∧
      Program.same (parse (Program.render program)).program program = true :=
  parse_of_lexemes (Program.lexemes_render h) (derives_spellBody program)

/-- The program `let f = fn(x) { return (-x); };`, with tokens that say
nothing about it. -/
theorem Program.parse_render_negation :
    let t : Token := .eof 0
    let body : Block := .mk t [.ret t (.unary t .negate (.ident t "x"))]
    let program : Program := [.letIn t "f" (.lambda t .function ["x"] body)]
    program.WellFormed ∧ (parse (Program.render program)).errors = [] ∧
      Program.same (parse (Program.render program)).program program = true := by
  intro t body program
  have hx : IsName "x" := by decide
  have hwell : program.WellFormed :=
    ⟨⟨show IsName "f" by decide, List.forall_mem_singleton.mpr hx, hx, trivial⟩, trivial⟩
  exact ⟨hwell, Program.parse_render hwell⟩

/-- A text that is parsed as one statement, the expression, without
errors. -/
def Expr.ReadFrom (e : Expr) (text : String) : Prop :=
  (parse text).errors = [] ∧
    ∃ t e', (parse text).program = [.expr t e'] ∧ e'.same e = true

/-- A rendered expression is read from its text. -/
theorem Expr.reads_back {e : Expr} (h : e.WellFormed) : e.ReadFrom e.render := by
  have hlex := e.lexemes_render h endsWord_nil
  rw [lexemes_nil, List.append_nil, List.append_nil] at hlex
  refine parse_of_lexemes (P := fun program => ∃ t e', program = [.expr t e'] ∧ e'.same e = true)
    hlex fun ts hts => ?_
  obtain ⟨e', he, hsame⟩ := e.derives_spelling ts hts
  obtain ⟨t, us, rfl, -⟩ := he.startsExpr
  have hstmt := Derives.expr (he.loosen (by decide))
  have hstmts := Derives.noSemicolon (fun _ => rfl) hstmt .noStmts
  rw [List.append_nil] at hstmts
  exact ⟨_, hstmts, t, e', rfl, hsame⟩

end QuoteScript
