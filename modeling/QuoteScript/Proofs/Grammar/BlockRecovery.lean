import QuoteScript.Proofs.Grammar.Continuation
import QuoteScript.Proofs.Grammar.Parse

/-!
# `QuoteScript.Proofs.Grammar.BlockRecovery`: broken statements inside of blocks

A broken statement is skipped up to its semicolon, so it costs nothing but
itself. Inside a block, skipping also ends at a closing brace, which is
left for the block. Nothing tells whether it is the brace of the block: it
may as well be the one of a dict or of a function inside of the broken
statement, and it may even have been read before, if the statement was
given up there. The block then ends too early, and the statements behind
it are read outside of the function.

This is the only thing that can go wrong. Take tokens that a program can
have in front of others, up to a semicolon outside of all braces. A block
takes all of them, and finds in them what a program does; or it ends at a
closing brace among them, and what is behind is no part of it.

* `statements_of_block`, `block_of_statements`: lists of statements inside
  and outside of a block.
* `blockRest`: what a block leaves of a text.
* `blockRest_eq_nil`: nothing, if no brace closes in it.
* `function_run`: a function and its body.
* `block_keeps_statements_iff`: when a broken statement costs only itself.
* `block_ends_at_brace_of_dict`: when it costs more.
-/

set_option autoImplicit false

namespace QuoteScript

open Reader

/-! ### Lists of statements inside and outside of a block -/

/-- Inside a block, skipping a broken statement may end at a closing
brace. Else it ends where it does outside. -/
theorem behindBroken_true (ts : List Token) :
    behindBroken true ts = behindBroken false ts ∨
      ∃ t rest, behindBroken true ts = t :: rest ∧ t.kind = .rightBrace := by
  induction ts with
  | nil => exact .inl rfl
  | cons t ts ih =>
      rw [behindBroken, behindBroken]
      by_cases hsemi : t.kind = .semicolon
      · rw [if_pos hsemi, if_pos hsemi]
        exact .inl rfl
      · rw [if_neg hsemi, if_neg hsemi]
        by_cases hbrace : t.kind = .rightBrace
        · rw [if_pos (by rw [hbrace]; rfl)]
          exact .inr ⟨t, ts, rfl, hbrace⟩
        -- Apart from the brace the two ways to recover agree.
        · have hends : endsStatements true t.kind = endsStatements false t.kind := by
            simp [endsStatements, hbrace]
          rw [hends]
          split
          · exact .inl rfl
          · exact ih

section Loops

variable {stmt : Reader Stmt} {inBlock : Bool} {c c' : Cursor} {ss : List Stmt}
  {found : List Diagnostic}

/-- What ends no block ends no program. -/
theorem endsStatements_false {kind : TokenKind} (h : endsStatements true kind = false) :
    endsStatements false kind = false := by
  simp only [endsStatements, Bool.or_eq_false_iff] at h ⊢
  exact ⟨h.1, rfl⟩

/-- If no closing brace ends the list of statements in a block, they are
read like the statements of a program. -/
theorem statements_of_block {steps : Nat}
    (h : Reader.statements true stmt steps c = .done ss c' found)
    (hbrace : c'.current.kind ≠ .rightBrace) :
    Reader.statements false stmt steps c = .done ss c' found := by
  induction steps generalizing c ss found with
  | zero => cases h
  | succ steps ih =>
      cases hends : endsStatements true c.current.kind with
      | true =>
          obtain ⟨rfl, rfl, rfl⟩ := statements_of_ends hends h
          have heof : endsStatements false c'.current.kind = true := by
            simpa [endsStatements, hbrace] using hends
          rw [statements_run, if_pos heof]
      | false =>
          have hturn := Turn.of_statements h hends
          -- One turn of the block loop is one of the other loop, unless it recovers at a brace.
          refine Turn.statements ?_ (endsStatements_false hends)
          cases hturn with
          | statement hs hrest => exact .statement hs (ih hrest)
          | @broken c₁ _ found₁ found₂ _ hs hrest =>
              refine .broken hs ?_
              rcases behindBroken_true c₁.ahead with heq | ⟨t, rest, heq, ht⟩
              · have hrecovered : c₁.recovered true = c₁.recovered false := by
                  rw [Cursor.recovered, Cursor.recovered, heq]
                rw [← hrecovered]
                exact ih hrest
              · -- The loop would end at the brace.
                have hcurrent : (c₁.recovered true).current.kind = .rightBrace := by
                  rw [Cursor.recovered, heq]
                  exact ht
                obtain ⟨-, rfl, -⟩ := statements_of_ends (by rw [hcurrent]; rfl) hrest
                exact absurd hcurrent hbrace

/-- Statements with which nothing is wrong are read in a block, too. -/
theorem block_of_statements {n steps : Nat} (hc : c.Closed)
    (h : Reader.statements false (statement (readExpr n)) steps c = .done ss c' []) :
    Reader.statements true (statement (readExpr n)) steps c = .done ss c' [] := by
  induction steps generalizing c ss with
  | zero => cases h
  | succ steps ih =>
      cases hends : endsStatements false c.current.kind with
      | true =>
          obtain ⟨rfl, rfl, -⟩ := statements_of_ends hends h
          have hends' : endsStatements true c'.current.kind = true := by
            simp only [endsStatements, Bool.false_and, Bool.or_false] at hends
            simp [endsStatements, hends]
          rw [statements_run, if_pos hends']
      | false =>
          have hturn := Turn.of_statements h hends
          obtain ⟨s, ss, c₁, rfl, hstmt, hrest⟩ := hturn.clean (sound_readExpr n) hc
          have hfaithful := faithful_statement (sound_readExpr n) hc
          rw [hstmt] at hfaithful
          obtain ⟨ts, tail, hspan, -, hderives⟩ := hfaithful rfl
          -- A statement without errors starts with no closing brace, so a block takes it, too.
          obtain ⟨t, us, rfl, ht⟩ := hderives.startsStmt true
          have hcurrent : c.current = t := by
            unfold Cursor.current
            rw [hspan.ahead_eq]
            rfl
          have hturn' := Turn.statement hstmt (ih (hspan.closed hc) hrest)
          exact hturn'.statements (hcurrent ▸ ht)

end Loops

/-! ### What a block takes of a text -/

/-- The run of the statements of a block on a whole text. -/
def blockRun (ts : List Token) : Reply (List Stmt) :=
  Reader.statements true (statement (readExpr (ts.length + 1))) (ts.length + 1)
    (Cursor.ofTokens ts)

/-- The tokens that a block leaves of a text: those from the closing brace
on that ends its statements, or none. -/
def blockRest (ts : List Token) : List Token :=
  match blockRun ts with
  | .done _ c _ => c.ahead
  | .failed _ _ | .exhausted => []

section Taken

variable {ts : List Token} (hts : ∀ t ∈ ts, t.kind ≠ .eof)

include hts

/-- The block loop over tokens without an `eof`, on a cursor that holds
just these. -/
theorem blockRun_eq :
    blockRun ts = Reader.statements true (statement (readExpr (ts.length + 1))) (ts.length + 1)
      ⟨ts, Cursor.finalOf ts⟩ := by
  rw [blockRun, ofTokens_eq hts]

/-- The block takes the statements in front of the tokens that it
leaves. -/
theorem blockRun_done :
    blockRest ts <:+ ts ∧
      ∃ ss found, blockRun ts = .done ss ⟨blockRest ts, Cursor.finalOf ts⟩ found := by
  have hclosed : Cursor.Closed ⟨ts, Cursor.finalOf ts⟩ := Cursor.closed_ofTokens ts
  have hlength : ts.length < ts.length + 1 := Nat.lt_succ_self _
  have hends := statements_endsFrom (readExpr_endsFrom (ts.length + 1)) true (ts.length + 1)
    hclosed hlength hlength
  -- The steps cover the tokens, so the loop ends by itself.
  obtain ⟨ss, ⟨ahead, final⟩, found, hrun⟩ : ∃ ss c found, blockRun ts = .done ss c found := by
    rw [blockRun_eq hts]
    exact statements_done hclosed hlength hlength
  rw [← blockRun_eq hts, hrun] at hends
  obtain ⟨hsuffix, hfinal⟩ := hends
  obtain rfl : final = Cursor.finalOf ts := hfinal
  have hrest : blockRest ts = ahead := by rw [blockRest, hrun]
  rw [hrest]
  exact ⟨hsuffix, ss, found, hrun⟩

/-- If a block takes the whole text, it finds in it what a program
does. -/
theorem blockRun_of_blockRest (hrest : blockRest ts = []) :
    blockRun ts
      = .done (parseTokens ts).program ⟨[], Cursor.finalOf ts⟩ (parseTokens ts).errors := by
  obtain ⟨-, ss, found, hrun⟩ := blockRun_done hts
  rw [hrest] at hrun
  have hfinal : (Cursor.finalOf ts).kind = .eof := Cursor.closed_ofTokens ts
  have hbrace : (⟨[], Cursor.finalOf ts⟩ : Cursor).current.kind ≠ .rightBrace := by
    show (Cursor.finalOf ts).kind ≠ .rightBrace
    rw [hfinal]
    decide
  obtain ⟨c, hprogram⟩ := parseTokens_run ts
  obtain ⟨rfl, -, rfl⟩ := statements_unique (statements_of_block hrun hbrace) hprogram
  exact hrun

/-- A block takes the whole of a text with which nothing is wrong. -/
theorem blockRun_of_clean (hclean : (parseTokens ts).errors = []) :
    blockRun ts = .done (parseTokens ts).program ⟨[], Cursor.finalOf ts⟩ [] := by
  obtain ⟨hsuffix, ss, found, hrun⟩ := blockRun_done hts
  obtain ⟨c, hprogram⟩ := parseTokens_run ts
  rw [hclean] at hprogram
  have hblock := block_of_statements (Cursor.closed_ofTokens ts) hprogram
  change blockRun ts = _ at hblock
  rw [hrun] at hblock
  cases hblock
  -- A program ends with its last token.
  have hrest : blockRest ts = [] := by
    have hends := ends_of_statements hprogram
    cases hcase : blockRest ts with
    | nil => rfl
    | cons t rest =>
        rw [hcase] at hends hsuffix
        have heof := hts t (hsuffix.mem List.mem_cons_self)
        simp [endsStatements, heof] at hends
  rw [hrun, hrest]

end Taken

/-- A block takes a text of which it leaves nothing and one with which
nothing is wrong, and ends at the closing brace behind them. -/
theorem statements_of_body {ts us behind : List Token} {rb final : Token} {n steps : Nat}
    (hts : Closes 0 ts) (hrest : blockRest ts = []) (hus : Closes 0 us)
    (hclean : (parseTokens us).errors = []) (hrb : rb.kind = .rightBrace)
    (hfinal : final.kind = .eof) (hn : (ts ++ (us ++ rb :: behind)).length < n)
    (hsteps : (ts ++ (us ++ rb :: behind)).length < steps) :
    Reader.statements true (statement (readExpr n)) steps ⟨ts ++ (us ++ rb :: behind), final⟩
      = .done ((parseTokens ts).program ++ (parseTokens us).program) ⟨rb :: behind, final⟩
        (parseTokens ts).errors := by
  have hclosed : Cursor.Closed ⟨ts ++ (us ++ rb :: behind), final⟩ := hfinal
  obtain ⟨body, c, found, hrun⟩ : ∃ body c found, Reader.statements true (statement (readExpr n))
      steps ⟨ts ++ (us ++ rb :: behind), final⟩ = .done body c found :=
    statements_done hclosed hn hsteps
  -- The block takes the one text up to its end, and then the other.
  have hfirst := blockRun_of_blockRest hts.eof hrest
  rw [blockRun_eq hts.eof] at hfirst
  obtain ⟨vs, -, hvs, steps₁, ss₁, found₁, hrun₁, rfl, rfl⟩ :=
    statements_append (Cursor.closed_ofTokens ts) hts hfirst hrun
  cases hvs
  have hsecond := blockRun_of_clean hus.eof hclean
  rw [blockRun_eq hus.eof] at hsecond
  obtain ⟨vs, -, hvs, steps₂, ss₂, found₂, hrun₂, rfl, rfl⟩ :=
    statements_append (Cursor.closed_ofTokens us) hus hsecond hrun₁
  cases hvs
  -- It ends at the brace.
  have hends : endsStatements true (⟨rb :: behind, final⟩ : Cursor).current.kind = true := by
    rw [Cursor.current_cons, hrb]
    rfl
  obtain ⟨rfl, rfl, rfl⟩ := statements_of_ends hends hrun₂
  rw [hrun, List.append_nil, List.append_nil]

/-! ### A function and its body -/

section Function

variable {fnToken lp rp lb rb : Token} {ts us vs : List Token} {final : Token} {n : Nat}
  {body : List Stmt} {found : List Diagnostic}

/-- No text ends in front of the body of a function. -/
theorem function_ne_eof (hfn : fnToken.kind = .fnWord) (hlp : lp.kind = .leftParen)
    (hrp : rp.kind = .rightParen) (hlb : lb.kind = .leftBrace) (hts : ∀ t ∈ ts, t.kind ≠ .eof) :
    ∀ t ∈ fnToken :: lp :: rp :: lb :: ts, t.kind ≠ .eof := by
  simp_all

/-- A function without parameters. Its body ends at a closing brace, and
what is behind the brace may go on with suffixes. -/
theorem function_run (hfn : fnToken.kind = .fnWord) (hlp : lp.kind = .leftParen)
    (hrp : rp.kind = .rightParen) (hlb : lb.kind = .leftBrace) {c : Cursor}
    (hrun : Reader.statements true (statement (readExpr n)) n ⟨ts, final⟩ = .done body c found)
    (hbrace : c.current.kind = .rightBrace) :
    statement (readExpr (n + 1)) ⟨fnToken :: lp :: rp :: lb :: ts, final⟩
      = after found ((suffixes n (readExpr n) .lowest n
          (.lambda fnToken .function [] (.mk lb body)) >>= fun value => skipSemicolon >>= fun _ =>
            pure (.expr fnToken value)) c) := by
  have hblock : block n (readExpr n) ⟨lb :: ts, final⟩ = .done (.mk lb body) c found := by
    unfold block
    rw [current_bind_run, advance_bind_run, Cursor.advance_cons, bind_run, hrun]
    dsimp only
    rw [current_bind_run, if_neg (by rw [hbrace]; decide)]
    simp [after]
  have hparams : params n ⟨lp :: rp :: lb :: ts, final⟩ = .done [] ⟨rp :: lb :: ts, final⟩ [] := by
    have hnext : (⟨lp :: rp :: lb :: ts, final⟩ : Cursor).next.kind = .rightParen := hrp
    unfold params
    rw [nextIs_bind_of_eq hnext]
    rfl
  have hoperand : operand n (readExpr n) ⟨fnToken :: lp :: rp :: lb :: ts, final⟩
      = .done (.lambda fnToken .function [] (.mk lb body)) c found := by
    have hopen : (⟨fnToken :: lp :: rp :: lb :: ts, final⟩ : Cursor).next.kind = .leftParen := hlp
    have hbody : (⟨rp :: lb :: ts, final⟩ : Cursor).next.kind = .leftBrace := hlb
    rw [operand_run, Cursor.current_cons, hfn]
    dsimp only
    unfold lambda
    rw [expect_bind_of_eq hopen, Cursor.advance_cons, bind_of_done hparams,
      expect_bind_of_eq hbody, Cursor.advance_cons, bind_run, hblock]
    simp [after]
  have hexpr : readExpr (n + 1) .lowest ⟨fnToken :: lp :: rp :: lb :: ts, final⟩
      = after found (suffixes n (readExpr n) .lowest n
          (.lambda fnToken .function [] (.mk lb body)) c) := by
    show exprWith n (readExpr n) .lowest _ = _
    unfold exprWith
    rw [bind_run, hoperand]
  -- What is left are the suffixes of the function and the semicolon of its statement.
  rw [statement_run, Cursor.current_cons, hfn]
  dsimp only
  rw [bind_run, hexpr, bind_run]
  cases suffixes n (readExpr n) .lowest n (.lambda fnToken .function [] (.mk lb body)) c with
  | exhausted => rfl
  | failed c₁ found₁ => rfl
  | done e c₁ found₁ =>
      dsimp only [after]
      rw [skipSemicolon_bind_run]
      simp

/-- The whole function, in front of a semicolon. -/
theorem statement_of_function {semi : Token} {rest : List Token} (hfn : fnToken.kind = .fnWord)
    (hlp : lp.kind = .leftParen) (hrp : rp.kind = .rightParen) (hlb : lb.kind = .leftBrace)
    (hrb : rb.kind = .rightBrace) (hsemi : semi.kind = .semicolon) (hts : Closes 0 ts)
    (hrest : blockRest ts = []) (hus : Closes 0 us) (hclean : (parseTokens us).errors = [])
    (hfinal : final.kind = .eof)
    (hn : (fnToken :: lp :: rp :: lb :: (ts ++ us) ++ [rb] ++ semi :: rest).length < n) :
    statement (readExpr n) ⟨fnToken :: lp :: rp :: lb :: (ts ++ us) ++ [rb] ++ semi :: rest, final⟩
      = .done (.expr fnToken (.lambda fnToken .function []
          (.mk lb ((parseTokens ts).program ++ (parseTokens us).program))))
        ⟨semi :: rest, final⟩ (parseTokens ts).errors := by
  obtain ⟨n, rfl⟩ : ∃ m, n = m + 1 := Nat.exists_eq_succ_of_ne_zero (Nat.ne_zero_of_lt hn)
  have hsplit : fnToken :: lp :: rp :: lb :: (ts ++ us) ++ [rb] ++ semi :: rest
      = fnToken :: lp :: rp :: lb :: (ts ++ (us ++ rb :: semi :: rest)) := by simp
  rw [hsplit] at hn ⊢
  have hlt : (ts ++ (us ++ rb :: semi :: rest)).length < n := by
    simp only [List.length_cons] at hn
    omega
  have hbody := statements_of_body hts hrest hus hclean hrb hfinal hlt hlt
  rw [function_run hfn hlp hrp hlb hbody hrb]
  -- Behind the closing brace there is no suffix.
  obtain ⟨k, rfl⟩ : ∃ k, n = k + 1 := Nat.exists_eq_succ_of_ne_zero (Nat.ne_zero_of_lt hlt)
  have hnext : (⟨rb :: semi :: rest, final⟩ : Cursor).next.kind = .semicolon := hsemi
  rw [bind_run, suffixes_run, hnext]
  dsimp only [Suffix.ofKind?]
  rw [skipSemicolon_bind_run, if_pos hnext]
  simp [after]

end Function

/-! ### A block that ends too early -/

/-- Behind tokens with a semicolon outside of all braces, a program holds
the statements of the tokens that follow. -/
theorem statements_contain {ts us behind : List Token} {final : Token} {n steps : Nat}
    {ss : List Stmt} {c : Cursor} {found : List Diagnostic} (hts : Closes 0 ts) (hus : Closes 0 us)
    (hrun : Reader.statements false (statement (readExpr n)) steps
      ⟨ts ++ (us ++ behind), final⟩ = .done ss c found) :
    ∃ front more, ss = front ++ ((parseTokens us).program ++ more) := by
  obtain ⟨c₁, hfirst⟩ := parseTokens_run ts
  rw [ofTokens_eq hts.eof] at hfirst
  obtain ⟨vs, hvs, rfl, steps₁, ss₁, found₁, hrun₁, rfl, -⟩ :=
    statements_append (Cursor.closed_ofTokens ts) hts hfirst hrun
  -- The first run ends at the end of its tokens, so all of them are read before the others.
  obtain rfl := hvs.eq_nil_of_ends (ends_of_statements hfirst)
  obtain ⟨c₂, hsecond⟩ := parseTokens_run us
  rw [ofTokens_eq hus.eof] at hsecond
  obtain ⟨ws, hws, rfl, steps₂, ss₂, found₂, hrun₂, rfl, -⟩ :=
    statements_append (Cursor.closed_ofTokens us) hus hsecond hrun₁
  exact ⟨_, ss₂, rfl⟩

section Early

variable {fnToken lp rp lb rb semi : Token} {ts us : List Token}

/-- Behind the statement, reading goes on in front of the tokens
`behind`, with a semicolon outside of all braces in between. -/
def Resumes (behind : List Token) (final : Token) : Reply Stmt → Prop
  | .done _ c _ => ∃ ts, Closes 0 ts ∧ c.advance = ⟨ts ++ behind, final⟩
  | .failed c _ => ∃ ts, Closes 0 ts ∧ c.recovered false = ⟨ts ++ behind, final⟩
  | .exhausted => True

/-- Errors found earlier do not change where the reader resumes. -/
theorem Resumes.after {behind : List Token} {final : Token} {reply : Reply Stmt}
    (found : List Diagnostic) (h : Resumes behind final reply) :
    Resumes behind final (after found reply) := by
  cases reply <;> exact h

/-- An expression that goes on behind a closing brace, and its
statement. -/
theorem resumes_of_suffixes {t : Token} {vs behind : List Token} (ht : t.kind = .rightBrace)
    (hvs : Closes 0 (t :: vs)) (final : Token) (n : Nat) (token : Token) (e : Expr) :
    Resumes behind final ((suffixes n (readExpr n) .lowest n e >>= fun value =>
      skipSemicolon >>= fun _ => pure (.expr token value)) ⟨t :: vs ++ behind, final⟩) := by
  -- The same tokens at the end of a text.
  have hfront : ((suffixes (vs.length + 1) (readExpr (vs.length + 1)) .lowest (vs.length + 1) e
      >>= fun value => skipSemicolon >>= fun _ => pure (Stmt.expr token value))
      ⟨t :: vs, .eof 0⟩).EndsFrom ⟨t :: vs, .eof 0⟩ := by
    have hclosed : Cursor.Closed ⟨t :: vs, .eof 0⟩ := rfl
    have hlength : vs.length < vs.length + 1 := Nat.lt_succ_self _
    refine .bind (suffixes_endsFrom (readExpr_endsFrom _) .lowest _ hclosed hlength hlength e
      (.refl _)) fun value c₁ _ _ h₁ => ?_
    rw [skipSemicolon_bind_run]
    split
    · exact h₁.advance
    · exact h₁
  have hbehind : (Alignment.inFront behind (.eof 0) final).Behind 0 ⟨t :: vs, .eof 0⟩
      ⟨t :: vs ++ behind, final⟩ :=
    ⟨.mk (List.cons_ne_nil t vs) hvs,
      .mk (hvs.tail_ne_nil (by rw [ht]; decide)) (hvs.suffix_zero (List.suffix_cons t vs))⟩
  have hmatches := semicolon_aligned (.expr token) (suffixes_aligned
    (readExpr_aligned (.inFront behind (.eof 0) final) (vs.length + 1) n)
    (vs.length + 1) n .lowest (vs.length + 1) n e hbehind)
  generalize (suffixes (vs.length + 1) _ _ _ e >>= _) _ = reply at hfront hmatches
  generalize (suffixes n _ _ _ e >>= _) _ = reply' at hmatches
  cases hmatches with
  | done h =>
      obtain ⟨ts, hts, -, h'⟩ := InFront.behind_statement rfl h
      exact ⟨ts, hts, h'⟩
  | failed h =>
      obtain ⟨ts, hts, -, h'⟩ := InFront.behind_broken false h
      exact ⟨ts, hts, h'⟩
  | exhausted => exact hfront.elim
  | exhausted' => trivial

/-- A block ends at a closing brace if it leaves a part of its text. -/
theorem blockRest_eq_cons (hts : Closes 0 ts) (hrest : blockRest ts ≠ []) :
    ∃ t rest, blockRest ts = t :: rest ∧ t.kind = .rightBrace ∧ Closes 0 (blockRest ts) := by
  obtain ⟨hsuffix, ss, found, hrun⟩ := blockRun_done hts.eof
  have hends := ends_of_statements hrun
  obtain ⟨t, rest, heq⟩ := List.exists_cons_of_ne_nil hrest
  rw [heq] at hends hsuffix
  have heof := hts.eof t (hsuffix.mem List.mem_cons_self)
  refine ⟨t, rest, heq, by simpa [endsStatements, heof] using hends, ?_⟩
  rw [heq]
  exact hts.suffix_zero hsuffix

/-- A block takes the whole of a text in which no brace closes. -/
theorem blockRest_eq_nil (hts : Closes 0 ts) (hnone : closings ts = 0) : blockRest ts = [] := by
  refine Classical.byContradiction fun hrest => ?_
  obtain ⟨t, rest, heq, hbrace, -⟩ := blockRest_eq_cons hts hrest
  obtain ⟨hsuffix, -⟩ := blockRun_done hts.eof
  have hmem : t ∈ ts := hsuffix.mem (heq ▸ List.mem_cons_self)
  have hno := List.countP_eq_zero.mp hnone t hmem
  simp [hbrace] at hno

/-- The function ends at this brace, too, and its statement outside of all
braces. -/
theorem turn_of_early_end (hfn : fnToken.kind = .fnWord) (hlp : lp.kind = .leftParen)
    (hrp : rp.kind = .rightParen) (hlb : lb.kind = .leftBrace) {behind : List Token}
    {final : Token} (hfinal : final.kind = .eof) (hts : Closes 0 ts) (hrest : blockRest ts ≠ [])
    {n k : Nat} (hn : (ts ++ behind).length < n) {ss : List Stmt} {c' : Cursor}
    {found : List Diagnostic}
    (hturn : Turn false (statement (readExpr (n + 1))) k
      ⟨fnToken :: lp :: rp :: lb :: (ts ++ behind), final⟩ ss c' found) :
    ∃ ts₁ front ss₁ found₁, Closes 0 ts₁ ∧ ss = front ++ ss₁ ∧
      Reader.statements false (statement (readExpr (n + 1))) k ⟨ts₁ ++ behind, final⟩
        = .done ss₁ c' found₁ := by
  obtain ⟨t, rest, heq, ht, hvs⟩ := blockRest_eq_cons hts hrest
  -- The body of the function is read like the text on its own.
  have hclosed : Cursor.Closed ⟨ts ++ behind, final⟩ := hfinal
  obtain ⟨body, c, found₀, hrun⟩ : ∃ body c found, Reader.statements true (statement (readExpr n))
      n ⟨ts ++ behind, final⟩ = .done body c found :=
    statements_done hclosed hn hn
  obtain ⟨-, ss₀, found₁, hfirst⟩ := blockRun_done hts.eof
  rw [blockRun_eq hts.eof] at hfirst
  obtain ⟨vs, -, hcursor, steps₁, ss₁, found₂, hrun₁, -, -⟩ :=
    statements_append (Cursor.closed_ofTokens ts) hts hfirst hrun
  cases hcursor
  have hbrace : (⟨blockRest ts ++ behind, final⟩ : Cursor).current.kind = .rightBrace := by
    rw [heq, List.cons_append, Cursor.current_cons, ht]
  obtain ⟨-, rfl, -⟩ := statements_of_ends (by rw [hbrace]; rfl) hrun₁
  have hstmt := function_run hfn hlp hrp hlb hrun hbrace
  generalize Expr.lambda fnToken .function [] (.mk lb body) = e at hstmt
  rw [heq] at hvs
  have hresumes : Resumes behind final
      (statement (readExpr (n + 1)) ⟨fnToken :: lp :: rp :: lb :: (ts ++ behind), final⟩) := by
    rw [hstmt, heq]
    exact (resumes_of_suffixes ht hvs final n fnToken e).after found₀
  cases hturn with
  | statement hs hrest =>
      rw [hs] at hresumes
      obtain ⟨ts₁, hts₁, h₁⟩ := hresumes
      rw [h₁] at hrest
      exact ⟨ts₁, [_], _, _, hts₁, rfl, hrest⟩
  | broken hs hrest =>
      rw [hs] at hresumes
      obtain ⟨ts₁, hts₁, h₁⟩ := hresumes
      rw [h₁] at hrest
      exact ⟨ts₁, [], _, _, hts₁, rfl, hrest⟩

/-- If the block leaves a part of its text, the statements behind this
part stand outside of the function. -/
theorem program_of_early_end (hfn : fnToken.kind = .fnWord) (hlp : lp.kind = .leftParen)
    (hrp : rp.kind = .rightParen) (hlb : lb.kind = .leftBrace) {behind : List Token}
    (hts : Closes 0 ts) (hrest : blockRest ts ≠ []) (hus : Closes 0 us)
    (hbehind : ∀ t ∈ behind, t.kind ≠ .eof) :
    ∃ front more, (parseTokens (fnToken :: lp :: rp :: lb :: (ts ++ (us ++ behind)))).program
      = front ++ ((parseTokens us).program ++ more) := by
  have hbody := List.forall_mem_append.mpr
    ⟨hts.eof, List.forall_mem_append.mpr ⟨hus.eof, hbehind⟩⟩
  have heof : ∀ t ∈ fnToken :: lp :: rp :: lb :: (ts ++ (us ++ behind)), t.kind ≠ .eof :=
    function_ne_eof hfn hlp hrp hlb hbody
  have hfinal :
      (Cursor.finalOf (fnToken :: lp :: rp :: lb :: (ts ++ (us ++ behind)))).kind = .eof :=
    Cursor.closed_ofTokens _
  obtain ⟨c, hrun⟩ := parseTokens_run (fnToken :: lp :: rp :: lb :: (ts ++ (us ++ behind)))
  rw [ofTokens_eq heof] at hrun
  generalize Cursor.finalOf _ = final at hrun hfinal
  -- The first turn of the program is the statement of the function.
  obtain ⟨k, hturn⟩ := turn_of_statements hrun (by
    rw [Cursor.current_cons, hfn]
    rfl)
  have hn : (ts ++ (us ++ behind)).length
      < (fnToken :: lp :: rp :: lb :: (ts ++ (us ++ behind))).length := by
    simp only [List.length_cons]
    omega
  obtain ⟨ts₁, front, ss₁, found₁, hts₁, hprogram, hrun₁⟩ :=
    turn_of_early_end hfn hlp hrp hlb hfinal hts hrest hn hturn
  -- The block ended early, and what it left is read by the loop of the program.
  obtain ⟨front₁, more, rfl⟩ := statements_contain hts₁ hus hrun₁
  exact ⟨front ++ front₁, more, by rw [hprogram, List.append_assoc]⟩

end Early

/-- A function cannot stand beside the statements of its own body. -/
theorem program_ne_function {fnToken lb : Token} {ss us front more : List Stmt} (hus : us ≠ []) :
    front ++ (us ++ more) ≠ [.expr fnToken (.lambda fnToken .function [] (.mk lb (ss ++ us)))] := by
  intro heq
  obtain ⟨s, hs⟩ := List.exists_mem_of_ne_nil us hus
  have hmem : s ∈ front ++ (us ++ more) :=
    List.mem_append_right _ (List.mem_append_left _ hs)
  rw [heq, List.mem_singleton] at hmem
  have hlt : sizeOf s < sizeOf (ss ++ us) := List.sizeOf_lt_of_mem (List.mem_append_right ss hs)
  have hsize := congrArg sizeOf hmem
  simp at hsize
  omega

/-- Tokens with which nothing is wrong, up to a semicolon. -/
theorem closes_of_clean {us : List Token} (hus : ∀ t ∈ us, t.kind ≠ .eof)
    (hlast : us.getLast?.map (·.kind) = some .semicolon) (hclean : (parseTokens us).errors = []) :
    Closes 0 us ∧ (parseTokens us).program ≠ [] := by
  have hderives := derives_of_clean hus hclean
  have hbalanced := hderives.balanced
  refine ⟨⟨hus, fun t ht => ?_, hbalanced.suffix, ?_⟩, fun hnil => ?_⟩
  · rw [ht] at hlast
    exact Option.some.inj hlast
  · rw [Nat.zero_add, hbalanced.eq]
  · rw [hnil] at hderives
    cases hderives
    cases hlast

/-- A broken statement inside a block costs only that statement if no
closing brace is taken for the one of the block, and else it costs more.

Take tokens `ts` whose braces are balanced, and whose last token is a
semicolon; otherwise they may be as broken as they like. Take tokens `us`
with which nothing is wrong, up to a semicolon. The body of a function
with all these tokens holds the statements of `ts` and those of `us`, and
the errors are those of `ts`, if and only if a block takes the whole of
`ts`. -/
theorem block_keeps_statements_iff {fnToken lp rp lb rb semi : Token} {ts us : List Token}
    (hfn : fnToken.kind = .fnWord) (hlp : lp.kind = .leftParen) (hrp : rp.kind = .rightParen)
    (hlb : lb.kind = .leftBrace) (hrb : rb.kind = .rightBrace) (hsemi : semi.kind = .semicolon)
    (hts : ∀ t ∈ ts, t.kind ≠ .eof) (hbraces : ∀ vs, vs <+: ts → closings vs ≤ openings vs)
    (hbalanced : openings ts = closings ts)
    (hlast : ∀ t, ts.getLast? = some t → t.kind = .semicolon)
    (hus : ∀ t ∈ us, t.kind ≠ .eof) (hlast' : us.getLast?.map (·.kind) = some .semicolon)
    (hclean : (parseTokens us).errors = []) :
    parseTokens (fnToken :: lp :: rp :: lb :: (ts ++ us) ++ [rb, semi])
        = ⟨[.expr fnToken (.lambda fnToken .function []
            (.mk lb ((parseTokens ts).program ++ (parseTokens us).program)))],
          (parseTokens ts).errors⟩ ↔
      blockRest ts = [] := by
  have hts₀ := closes_zero hts hbraces hbalanced hlast
  obtain ⟨hus₀, hne⟩ := closes_of_clean hus hlast' hclean
  constructor
  · intro hparse
    -- Had the block ended early, the later statements would stand in the program itself.
    refine Classical.byContradiction fun hrest => ?_
    have hbehind : ∀ t ∈ [rb, semi], t.kind ≠ .eof := by simp [hrb, hsemi]
    obtain ⟨front, more, hprogram⟩ :=
      program_of_early_end hfn hlp hrp hlb hts₀ hrest hus₀ hbehind
    have hsplit : fnToken :: lp :: rp :: lb :: (ts ++ us) ++ [rb, semi]
        = fnToken :: lp :: rp :: lb :: (ts ++ (us ++ [rb, semi])) := by simp
    rw [← hsplit, hparse] at hprogram
    exact program_ne_function hne hprogram.symm
  · intro hrest
    have hbody : ∀ t ∈ ts ++ us ++ [rb], t.kind ≠ .eof :=
      List.forall_mem_append.mpr ⟨List.forall_mem_append.mpr ⟨hts, hus⟩, by simp [hrb]⟩
    have heof : ∀ t ∈ fnToken :: lp :: rp :: lb :: (ts ++ us) ++ [rb], t.kind ≠ .eof :=
      function_ne_eof hfn hlp hrp hlb hbody
    -- The loop reached the closing brace, so the function is one statement.
    have hparse := parseTokens_statement heof hsemi (fun n rest final hfinal hn =>
      statement_of_function hfn hlp hrp hlb hrb hsemi hts₀ hrest hus₀ hclean hfinal hn) []
    have hnone : parseTokens [] = ⟨[], []⟩ := rfl
    have hsplit : fnToken :: lp :: rp :: lb :: (ts ++ us) ++ [rb, semi]
        = fnToken :: lp :: rp :: lb :: (ts ++ us) ++ [rb] ++ [semi] := by simp
    rw [hsplit, hparse, hnone, List.append_nil]

/-- Behind a dict there is an operator without its operand. The block
takes both statements, and the one behind them. -/
theorem block_keeps_broken_operator :
    let token (kind : TokenKind) : Token := .fixed kind {}
    let ts := [token .leftBrace, token .rightBrace, token .semicolon, token .plus,
      token .semicolon]
    let us := [token .trueWord, token .semicolon]
    parseTokens (token .fnWord :: token .leftParen :: token .rightParen :: token .leftBrace ::
        (ts ++ us) ++ [token .rightBrace, token .semicolon])
      = ⟨[.expr (token .fnWord) (.lambda (token .fnWord) .function [] (.mk (token .leftBrace)
          [.expr (token .leftBrace) (.dict (token .leftBrace) []),
            .expr (token .trueWord) (.bool (token .trueWord) true)]))],
        [.noExpression .plus {}]⟩ := by
  intro token ts us
  have hbraces : ∀ vs ∈ ts.inits, closings vs ≤ openings vs := by decide
  have hkeeps := @block_keeps_statements_iff (token .fnWord) (token .leftParen)
    (token .rightParen) (token .leftBrace) (token .rightBrace) (token .semicolon) ts us
    rfl rfl rfl rfl rfl rfl (by decide)
    (fun vs hvs => hbraces vs ((List.mem_inits vs ts).mpr hvs)) (by decide)
    (by intro t ht; cases ht; rfl) (by decide) rfl (by decide)
  exact hkeeps.mpr (by decide)

/-- Behind a dict a group lacks its closing parenthesis. On their own the
tokens are one broken statement. In a block, the brace of the dict is
taken for the one of the block, although the dict has been read. So the
statement behind it is no part of the function, and the brace that closes
the block is reported. -/
theorem block_ends_at_brace_of_dict :
    let token (kind : TokenKind) : Token := .fixed kind {}
    let ts := [token .leftParen, token .leftBrace, token .rightBrace, token .semicolon]
    let us := [token .trueWord, token .semicolon]
    (∀ vs ∈ ts.inits, closings vs ≤ openings vs) ∧ openings ts = closings ts ∧
      parseTokens ts = ⟨[], [.unexpectedToken .rightParen .semicolon {}]⟩ ∧
      parseTokens us = ⟨[.expr (token .trueWord) (.bool (token .trueWord) true)], []⟩ ∧
      parseTokens (token .fnWord :: token .leftParen :: token .rightParen :: token .leftBrace ::
          (ts ++ us) ++ [token .rightBrace, token .semicolon])
        = ⟨[.expr (token .fnWord)
              (.lambda (token .fnWord) .function [] (.mk (token .leftBrace) [])),
            .expr (token .trueWord) (.bool (token .trueWord) true)],
          [.unexpectedToken .rightParen .semicolon {}, .noExpression .rightBrace {}]⟩ := by
  intro token ts us
  exact ⟨by decide, by decide, rfl, rfl, rfl⟩

end QuoteScript
