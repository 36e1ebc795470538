import QuoteScript.Proofs.Grammar.Continuation
import QuoteScript.Proofs.Grammar.Parse

/-!
# `QuoteScript.Proofs.Grammar.MalformedLet`: a `let` without its name or `=`

A `let` may lack its name, its `=`, or both. What is missing is reported
once, and the value is kept: the reader of the `let` looks whether an
expression starts where the value is due, and if one does, it reads it as
if nothing had happened. So the `let` takes the tokens of the value and
the semicolon behind them, and no more, whatever the value is and
whatever follows.

* `IsExpr`: tokens that are an expression, from the first one to the
  last.
* `IsExpr.letValue`: how they are read as the value of a `let`.
* `malformed_let_keeps_value`: the three ways to leave out a part.
-/

set_option autoImplicit false

namespace QuoteScript

open Reader

/-! ### Whole expressions -/

/-- Read as a program, the tokens are one statement that is the
expression. Nothing is wrong with them, and all of them belong to the
expression: none is the end of the text, and the last one is not a
semicolon that ends the statement. -/
structure IsExpr (ts : List Token) (e : Expr) : Prop where
  eof : ∀ t ∈ ts, t.kind ≠ .eof
  last : ∀ t, ts.getLast? = some t → t.kind ≠ .semicolon
  read : ∃ t, parseTokens ts = ⟨[.expr t e], []⟩

/-- A clean value of a statement that is an expression ends where the
statement ends, or in front of its semicolon. -/
theorem exprStmt_inv {expr : Level → Reader Expr} {token t : Token} {e : Expr} {c c₁ : Cursor}
    (hrun : (expr .lowest >>= fun value => skipSemicolon >>= fun _ =>
      pure (Stmt.expr token value)) c = .done (.expr t e) c₁ []) :
    ∃ c₀, expr .lowest c = .done e c₀ [] ∧
      (c₀.next.kind = .semicolon ∧ c₁ = c₀.advance ∨ c₁ = c₀) := by
  rw [bind_run] at hrun
  cases hexpr : expr .lowest c with
  | exhausted => rw [hexpr] at hrun; cases hrun
  | failed c₀ found => rw [hexpr] at hrun; cases hrun
  | done value c₀ found =>
      rw [hexpr] at hrun
      dsimp only at hrun
      cases found with
      -- An error in the expression would stay in the reply.
      | cons d found => exact absurd hrun (after_cons_ne_done d found _ _ _)
      | nil =>
          rw [after_nil, skipSemicolon_bind_run] at hrun
          cases hrun
          refine ⟨c₀, rfl, ?_⟩
          by_cases hsemi : c₀.next.kind = .semicolon
          · exact .inl ⟨hsemi, if_pos hsemi⟩
          · exact .inr (if_neg hsemi)

/-- Where the list of the statements that follow is empty, the end of the
text is reached. -/
theorem ahead_eq_nil_of_no_statements {ts : List Token} (hts : ∀ t ∈ ts, t.kind ≠ .eof)
    {n steps : Nat} {c c₂ : Cursor} (hc : c.Closed) (hahead : c.ahead <:+ ts)
    (hrun : statements false (statement (readExpr n)) steps c = .done [] c₂ []) :
    c.ahead = [] := by
  have hfaithful := faithful_statements (sound_readExpr n) false steps hc
  rw [hrun] at hfaithful
  obtain ⟨hfinal, hends, us, hus, hnone⟩ := hfaithful rfl
  -- A program of no statements is written with no tokens.
  cases hnone
  rw [List.nil_append] at hus
  have htext : (c.ahead).takeWhile (·.kind != .eof) = [] ++ c₂.ahead := by
    rw [List.nil_append, ← hus]
    exact takeWhile_ne_eof fun t ht => hts t (hahead.mem ht)
  rw [hus]
  exact ahead_eq_nil_of_endsStatements htext hends

namespace IsExpr

variable {ts : List Token} {e : Expr}

/-- The text of an expression has a token. -/
theorem ne_nil (h : IsExpr ts e) : ts ≠ [] := by
  rintro rfl
  obtain ⟨t, hread⟩ := h.read
  cases hread

/-- The first token is one that an expression can start with. -/
theorem startsExpr {t : Token} (h : IsExpr (t :: ts) e) : t.kind.startsExpr = true := by
  obtain ⟨u, hread⟩ := h.read
  have hderives := derives_of_clean h.eof (congrArg Parsed.errors hread)
  rw [hread] at hderives
  -- The text may end in a semicolon, so the statement is some front of it.
  have hfront : ∃ us vs, t :: ts = us ++ vs ∧ Derives false (.stmt (.expr u e)) us := by
    generalize hbody : [Stmt.expr u e] = body, t :: ts = us at hderives
    cases hderives with
    | noStmts => cases hbody
    | semicolon _ hs _ | noSemicolon _ hs _ => cases hbody; exact ⟨_, _, rfl, hs⟩
  obtain ⟨us, vs, heq, hs⟩ := hfront
  cases hs with
  | expr he =>
      obtain ⟨v, ws, hus, hstarts⟩ := he.startsExpr
      rw [hus] at heq
      cases heq
      exact hstarts

/-- The first turn of the loop over statements reads the expression, and
nothing is left for another one. -/
theorem turn (h : IsExpr ts e) :
    ∃ n final t c₁, final.kind = .eof ∧
      statement (readExpr n) ⟨ts, final⟩ = .done (.expr t e) c₁ [] ∧ c₁.advance.ahead = [] := by
  obtain ⟨t, hread⟩ := h.read
  obtain ⟨c₂, hrun⟩ := parseTokens_run ts
  rw [ofTokens_eq h.eof, hread] at hrun
  have hfinal : (Cursor.finalOf ts).kind = .eof := Cursor.closed_ofTokens ts
  have hclosed : Cursor.Closed ⟨ts, Cursor.finalOf ts⟩ := hfinal
  have hends : endsStatements false (Cursor.current ⟨ts, Cursor.finalOf ts⟩).kind = false := by
    obtain ⟨u, us, rfl⟩ := List.exists_cons_of_ne_nil h.ne_nil
    simp [endsStatements, h.eof u List.mem_cons_self]
  obtain ⟨k, hturn⟩ := turn_of_statements hrun hends
  obtain ⟨s, ss, c₁, hprogram, hstmt, hrest⟩ := hturn.clean (sound_readExpr _) hclosed
  cases hprogram
  have hfaithful := faithful_statement (sound_readExpr (ts.length + 1)) hclosed
  rw [hstmt] at hfaithful
  obtain ⟨us, tail, hspan, -, -⟩ := hfaithful rfl
  have hbehind : ts = us ++ tail ++ c₁.advance.ahead := hspan.ahead_eq
  -- There is no second statement, so nothing is left behind the first.
  refine ⟨_, _, t, c₁, hfinal, hstmt, ?_⟩
  exact ahead_eq_nil_of_no_statements h.eof (hspan.closed hclosed) ⟨_, hbehind.symm⟩ hrest

/-- The expression is read up to the end of its tokens. -/
theorem run (h : IsExpr ts e) :
    ∃ n final c, final.kind = .eof ∧ readExpr n .lowest ⟨ts, final⟩ = .done e c [] ∧
      c.advance.ahead = [] := by
  obtain ⟨n, final, t, c₁, hfinal, hstmt, hend⟩ := h.turn
  have hclosed : Cursor.Closed ⟨ts, final⟩ := hfinal
  -- An expression starts neither with `let` nor with `return`.
  have hexpr : ∃ c₀, readExpr n .lowest ⟨ts, final⟩ = .done e c₀ [] ∧
      (c₀.next.kind = .semicolon ∧ c₁ = c₀.advance ∨ c₁ = c₀) := by
    obtain ⟨u, us, rfl⟩ := List.exists_cons_of_ne_nil h.ne_nil
    have hstarts := h.startsExpr
    rw [statement_run, Cursor.current_cons] at hstmt
    cases hkind : u.kind with
    | letWord | returnWord => rw [hkind] at hstarts; cases hstarts
    | _ => rw [hkind] at hstmt; exact exprStmt_inv hstmt
  obtain ⟨c₀, hexpr, hsemi⟩ := hexpr
  refine ⟨n, final, c₀, hfinal, hexpr, ?_⟩
  rcases hsemi with ⟨hsemi, rfl⟩ | rfl
  · -- The semicolon would be the last token.
    have hsound := sound_readExpr n .lowest _ hclosed
    rw [hexpr] at hsound
    obtain ⟨-, us, hspan, -⟩ := hsound rfl
    have hnext := Cursor.tail_ahead_eq_of_next (hspan.closed hclosed) (by rw [hsemi]; decide)
    have hts : ts = us ++ c₀.ahead.tail := hspan.ahead_eq
    have hlast : c₀.ahead.tail.tail = [] := hend
    rw [hnext, hlast] at hts
    refine absurd hsemi (h.last c₀.next ?_)
    rw [hts, List.getLast?_concat]
  · exact hend

variable {rest : List Token} {semi final : Token}

/-- Behind its start, a `let` takes the tokens of its value and the
semicolon. -/
theorem letValue (h : IsExpr ts e) (hsemi : semi.kind = .semicolon) (hfinal : final.kind = .eof)
    {n : Nat} (hn : (ts ++ semi :: rest).length < n) (token : Token) (name : String) :
    letValue (readExpr n) token name ⟨ts ++ semi :: rest, final⟩
      = .done (.letIn token name e) ⟨semi :: rest, final⟩ [] := by
  obtain ⟨n₀, final₀, c, hfinal₀, hrun, hend⟩ := h.run
  obtain ⟨last, hexpr⟩ := readExpr_semicolon hfinal₀ hfinal hsemi hrun hend hn
  unfold Reader.letValue
  rw [bind_of_done hexpr, skipSemicolon_bind_run]
  have hnext : (⟨last :: semi :: rest, final⟩ : Cursor).next.kind = .semicolon := hsemi
  rw [if_pos hnext]
  rfl

end IsExpr

/-! ### Malformed `let`s -/

section Starts

variable {expr : Level → Reader Expr} {letToken x assign t final : Token} {us : List Token}

/-- No expression starts with `=`. -/
theorem TokenKind.ne_assign_of_startsExpr {kind : TokenKind} (h : kind.startsExpr = true) :
    kind ≠ .assign := by
  rintro rfl
  cases h

/-- Without a name, the value is read behind the `=`. -/
theorem letStatement_without_name (hassign : assign.kind = .assign)
    (ht : t.kind.startsExpr = true) :
    letStatement expr ⟨letToken :: assign :: t :: us, final⟩
      = after [.unexpectedToken .ident assign.kind assign.span]
        (Reader.letValue expr letToken "" ⟨t :: us, final⟩) := by
  have hnext : (⟨letToken :: assign :: t :: us, final⟩ : Cursor).next = assign := rfl
  have hvalue : (⟨letToken :: assign :: t :: us, final⟩ : Cursor).advance.next = t := rfl
  rw [letStatement_run, hnext, if_neg (by rw [hassign]; decide), if_pos hassign]
  dsimp only
  rw [hvalue, if_pos ht]
  rfl

/-- Without a `=`, the value is read behind the name. -/
theorem letStatement_without_assign (hx : x.kind = .ident) (ht : t.kind.startsExpr = true) :
    letStatement expr ⟨letToken :: x :: t :: us, final⟩
      = after [.unexpectedToken .assign t.kind t.span]
        (Reader.letValue expr letToken x.literal ⟨t :: us, final⟩) := by
  have hnext : (⟨letToken :: x :: t :: us, final⟩ : Cursor).next = x := rfl
  have hvalue : (⟨letToken :: x :: t :: us, final⟩ : Cursor).advance.next = t := rfl
  rw [letStatement_run, hnext, if_pos hx, hvalue,
    if_neg (TokenKind.ne_assign_of_startsExpr ht), if_pos ht]
  rfl

/-- Without both, the value is read behind the keyword. -/
theorem letStatement_without_both (hident : t.kind ≠ .ident) (ht : t.kind.startsExpr = true) :
    letStatement expr ⟨letToken :: t :: us, final⟩
      = after [.unexpectedToken .ident t.kind t.span]
        (Reader.letValue expr letToken "" ⟨t :: us, final⟩) := by
  have hnext : (⟨letToken :: t :: us, final⟩ : Cursor).next = t := rfl
  rw [letStatement_run, hnext, if_neg hident, if_neg (TokenKind.ne_assign_of_startsExpr ht)]
  dsimp only
  rw [hnext, if_pos ht]
  rfl

end Starts

/-- A `let` that reports an error at its start and goes on with its value
takes the tokens up to the semicolon. -/
theorem parseTokens_let {letToken semi : Token} (start : List Token) {ts : List Token} {e : Expr}
    {name : String} {d : Diagnostic} (hlet : letToken.kind = .letWord)
    (hstart : ∀ t ∈ start, t.kind ≠ .eof) (he : IsExpr ts e) (hsemi : semi.kind = .semicolon)
    (hrun : ∀ expr behind final, letStatement expr ⟨letToken :: start ++ ts ++ behind, final⟩
      = after [d] (letValue expr letToken name ⟨ts ++ behind, final⟩)) (rest : List Token) :
    parseTokens (letToken :: start ++ ts ++ semi :: rest)
      = ⟨.letIn letToken name e :: (parseTokens rest).program,
        d :: (parseTokens rest).errors⟩ := by
  have htokens : ∀ t ∈ letToken :: start ++ ts, t.kind ≠ .eof := by
    refine List.forall_mem_append.mpr ⟨List.forall_mem_cons.mpr ⟨?_, hstart⟩, he.eof⟩
    rw [hlet]
    decide
  have hstmt (n : Nat) (rest : List Token) (final : Token) (hfinal : final.kind = .eof)
      (hn : (letToken :: start ++ ts ++ semi :: rest).length < n) :
      statement (readExpr n) ⟨letToken :: start ++ ts ++ semi :: rest, final⟩
        = .done (.letIn letToken name e) ⟨semi :: rest, final⟩ [d] := by
    have hcurrent : (⟨letToken :: start ++ ts ++ semi :: rest, final⟩ : Cursor).current
        = letToken := rfl
    have hn : (ts ++ semi :: rest).length < n := by
      simp only [List.length_append, List.length_cons] at hn ⊢
      omega
    rw [statement_run, hcurrent, hlet]
    dsimp only
    -- Whatever was wrong in front of the value, the value is read as it stands.
    rw [hrun, he.letValue hsemi hfinal hn]
    rfl
  exact parseTokens_statement htokens hsemi hstmt rest

/-- A `let` without its name, without its `=`, or without both, in front
of a whole expression and a semicolon. It is read as a `let` with the
expression as its value, and its name is empty if there is none. One
error is reported: that another token stands where the name or the `=`
is due. The rest of the text is read as if nothing stood in front. -/
theorem malformed_let_keeps_value {letToken x assign t semi : Token} {us rest : List Token}
    {e : Expr} (hlet : letToken.kind = .letWord) (hx : x.kind = .ident)
    (hassign : assign.kind = .assign) (he : IsExpr (t :: us) e)
    (hsemi : semi.kind = .semicolon) :
    parseTokens (letToken :: assign :: (t :: us) ++ semi :: rest)
        = ⟨.letIn letToken "" e :: (parseTokens rest).program,
          .unexpectedToken .ident assign.kind assign.span :: (parseTokens rest).errors⟩ ∧
      parseTokens (letToken :: x :: (t :: us) ++ semi :: rest)
        = ⟨.letIn letToken x.literal e :: (parseTokens rest).program,
          .unexpectedToken .assign t.kind t.span :: (parseTokens rest).errors⟩ ∧
      (t.kind ≠ .ident →
        parseTokens (letToken :: (t :: us) ++ semi :: rest)
          = ⟨.letIn letToken "" e :: (parseTokens rest).program,
            .unexpectedToken .ident t.kind t.span :: (parseTokens rest).errors⟩) := by
  have ht := he.startsExpr
  refine ⟨?_, ?_, fun hident => ?_⟩
  -- In each shape the tokens in front of the value leave one error.
  · refine parseTokens_let [assign] hlet ?_ he hsemi (fun _ _ _ => ?_) rest
    · simp [hassign]
    · exact letStatement_without_name hassign ht
  · refine parseTokens_let [x] hlet ?_ he hsemi (fun _ _ _ => ?_) rest
    · simp [hx]
    · exact letStatement_without_assign hx ht
  · refine parseTokens_let [] hlet nofun he hsemi (fun _ _ _ => ?_) rest
    exact letStatement_without_both hident ht

/-- The value is the negation of a name, and behind the `let` there is an
operator without an operand. -/
theorem malformed_let_keeps_negation :
    let token (kind : TokenKind) : Token := .fixed kind {}
    let name (text : String) : Token := ⟨.ident, text, {}⟩
    let value : Expr := .unary (token .minus) .negate (.ident (name "y") "y")
    let behind := [token .minus, name "y", token .semicolon, token .asterisk]
    (parseTokens (token .letWord :: token .assign :: behind)
        = ⟨[.letIn (token .letWord) "" value],
          [.unexpectedToken .ident .assign {}, .noExpression .asterisk {}]⟩) ∧
      (parseTokens (token .letWord :: name "x" :: behind)
        = ⟨[.letIn (token .letWord) "x" value],
          [.unexpectedToken .assign .minus {}, .noExpression .asterisk {}]⟩) ∧
      parseTokens (token .letWord :: behind)
        = ⟨[.letIn (token .letWord) "" value],
          [.unexpectedToken .ident .minus {}, .noExpression .asterisk {}]⟩ := by
  intro token name value behind
  have he : IsExpr [token .minus, name "y"] value := by
    refine ⟨by decide, ?_, token .minus, rfl⟩
    rintro t ht
    cases ht
    decide
  have hlet := @malformed_let_keeps_value (token .letWord) (name "x") (token .assign)
    (token .minus) (token .semicolon) [name "y"] [token .asterisk] value rfl rfl rfl he rfl
  exact ⟨hlet.1, hlet.2.1, hlet.2.2 (by decide)⟩

end QuoteScript
