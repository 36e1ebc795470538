import QuoteScript.Proofs.Grammar.Derivation

/-!
# `QuoteScript.Proofs.Grammar.Soundness`: what is read is derived

When a reader finds nothing wrong, the grammar derives the tokens it
has taken from the tree it returns. No token is dropped: every way to
give up a part of a tree leaves a report behind.

An expression is read by a loop over suffixes, with one token of
look-ahead. What the loop keeps true is this: the expression so far is
derived at a level to which the next token cannot add a suffix. The
suffix that comes next is then one of that level or of a looser one,
and a looser level derives the expression as well.

* `Reply.Faithful` is what the walk over the readers establishes;
  `Faithful.bind` takes it from one reader to the next.
* `faithful_suffixes` is the loop, and `sound_readExpr` all expressions.
* `faithful_statements`: lists of statements.
-/

set_option autoImplicit false

namespace QuoteScript

variable {α β : Type}

/-! ### Faithful replies -/

namespace Reply

/-- A clean reply has the property `P`, and a failure comes with a
report. -/
def Faithful (P : α → Cursor → Prop) : Reply α → Prop
  | .done a c found => found = [] → P a c
  | .failed _ found => found ≠ []
  | .exhausted => True

namespace Faithful

variable {P : α → Cursor → Prop} {Q : β → Cursor → Prop}

/-- What a faithful reply promises may be weakened. -/
theorem mono {P' : α → Cursor → Prop} {reply : Reply α} (h : reply.Faithful P)
    (hP : ∀ a c, P a c → P' a c) : reply.Faithful P' := by
  cases reply with
  | done a c found => exact fun hnil => hP a c (h hnil)
  | failed c found => exact h
  | exhausted => exact h

/-- Behind a report, nothing is asked of a reply. -/
theorem after_cons (d : Diagnostic) (found : List Diagnostic) (reply : Reply α) :
    (Reader.after (d :: found) reply).Faithful P := by
  cases reply with
  | done a c found' => exact fun hnil => absurd hnil (List.cons_ne_nil _ _)
  | failed c found' => exact List.cons_ne_nil _ _
  | exhausted => exact trivial

/-- Two readers in a row: the second one starts from what the first one
established. -/
theorem bind {read : Reader α} {next : α → Reader β} {c : Cursor}
    (hread : (read c).Faithful P) (hnext : ∀ a c₁, P a c₁ → (next a c₁).Faithful Q) :
    ((read >>= next) c).Faithful Q := by
  rw [Reader.bind_run]
  cases hrun : read c with
  | done a c₁ found =>
      rw [hrun] at hread
      cases found with
      -- No error so far: what the second reader promises is promised of both.
      | nil =>
          dsimp only
          rw [Reader.after_nil]
          exact hnext a c₁ (hread rfl)
      | cons d found => exact after_cons d found _
  | failed c₁ found => rw [hrun] at hread; exact hread
  | exhausted => exact trivial

/-- A token that is due is there, or its absence is reported. -/
theorem expect {kind : TokenKind} {next : Unit → Reader β} {c : Cursor}
    (hnext : c.next.kind = kind → (next () c.advance).Faithful Q) :
    ((Reader.expect kind >>= next) c).Faithful Q := by
  rw [Reader.expect_bind_run]
  split
  · next hkind => exact hnext hkind
  · exact List.cons_ne_nil _ _

/-- A result that has the property. -/
theorem pure {a : α} {c : Cursor} (h : P a c) : (Reply.done a c []).Faithful P :=
  fun _ => h

end Faithful

end Reply

namespace Reader

open Reply

/-- A reader of expressions takes tokens that the grammar derives from
the expression, and stops where no suffix can follow. -/
def Sound (expr : Level → Reader Expr) : Prop :=
  ∀ (level : Level) (c : Cursor), c.Closed → (expr level c).Faithful fun e c' =>
    c'.next.kind.Stops level ∧ ∃ ts, c.Spans c' ts ∧ Derives false (.expr level.reads e) ts

variable {expr : Level → Reader Expr}

/-! ### Lists -/

/-- Expressions with a comma in front of each, from the token in front
of the first comma. -/
theorem faithful_moreItems (hexpr : Sound expr) (steps : Nat) {c : Cursor} (hc : c.Closed) :
    (moreItems expr steps c).Faithful fun es c' =>
      ∃ ts, c.advance.Spans c' ts ∧ Derives false (.moreItems es) ts := by
  induction steps generalizing c with
  | zero => trivial
  | succ steps ih =>
      unfold moreItems
      rw [nextIs_bind_run]
      split
      · next hcomma =>
          have hcomma := eq_of_beq hcomma
          rw [advance_bind_run, advance_bind_run]
          refine .bind (hexpr .lowest c.advance.advance hc) ?_
          rintro e c₁ ⟨-, ts, hspan, he⟩
          refine .bind (ih (hspan.closed hc)) ?_
          rintro es c₂ ⟨us, hspan', hes⟩
          -- What is spanned is put together in the order in which it was read.
          have hfirst := Cursor.Spans.next hc (by rw [hcomma]; decide)
          exact .pure ⟨_, (hfirst.append hspan).append hspan', .moreItems hcomma he hes⟩
      · exact .pure ⟨[], .nil c, .noMoreItems⟩

/-- Expressions between brackets, from the opening one to the closing
one. -/
theorem faithful_items (hexpr : Sound expr) (steps : Nat) (close : TokenKind) {c : Cursor}
    (hc : c.Closed) (hclose : close ≠ .eof) :
    (items steps expr close c).Faithful fun es c' =>
      ∃ ts t, c.advance.Spans c' (ts ++ [t]) ∧ t.kind = close ∧ Derives false (.items es) ts := by
  unfold items
  -- The reader looks for the closing token before it looks for an expression.
  rw [nextIs_bind_run]
  split
  · next hnext =>
      have hnext := eq_of_beq hnext
      rw [advance_bind_run]
      exact .pure ⟨[], c.next, .next hc (hnext ▸ hclose), hnext, .noItems⟩
  · rw [advance_bind_run]
    refine .bind (hexpr .lowest c.advance hc) ?_
    rintro e c₁ ⟨-, ts, hspan, he⟩
    refine .bind (faithful_moreItems hexpr steps (hspan.closed hc)) ?_
    rintro es c₂ ⟨us, hspan', hes⟩
    have hspan := hspan.append hspan'
    refine .expect fun hnext => .pure ?_
    have hlast := Cursor.Spans.next (hspan.closed hc) (hnext ▸ hclose)
    exact ⟨ts ++ us, c₂.next, hspan.append hlast, hnext, .items he hes⟩

/-- A comma, a name and the names behind them, as often as the reader
takes a turn. -/
theorem faithful_moreParams (steps : Nat) {c : Cursor} (hc : c.Closed) :
    (moreParams steps c).Faithful fun names c' =>
      ∃ ts, c.advance.Spans c' ts ∧ Derives false (.moreParams names) ts := by
  induction steps generalizing c with
  | zero => trivial
  | succ steps ih =>
      unfold moreParams
      rw [nextIs_bind_run]
      split
      · next hcomma =>
          have hcomma := eq_of_beq hcomma
          rw [advance_bind_run]
          refine .expect fun hident => ?_
          rw [current_bind_run]
          refine .bind (ih (c := c.advance.advance) hc) ?_
          rintro names c₁ ⟨ts, hspan, hnames⟩
          have hfirst := Cursor.Spans.next hc (by rw [hcomma]; decide)
          have hname := Cursor.Spans.next (c := c.advance) hc (by rw [hident]; decide)
          exact .pure ⟨_, (hfirst.append hname).append hspan, .moreParams hcomma hident hnames⟩
      -- Anything but a comma ends the names, and the reader stays where it was.
      · exact .pure ⟨[], .nil c, .noMoreParams⟩

/-- Parameters between parentheses, from the opening one to the closing
one. -/
theorem faithful_params (steps : Nat) {c : Cursor} (hc : c.Closed) :
    (params steps c).Faithful fun names c' =>
      ∃ ts t, c.advance.Spans c' (ts ++ [t]) ∧ t.kind = .rightParen ∧
        Derives false (.params names) ts := by
  unfold params
  rw [nextIs_bind_run]
  split
  · next hnext =>
      have hnext := eq_of_beq hnext
      rw [advance_bind_run]
      exact .pure ⟨[], c.next, .next hc (by rw [hnext]; decide), hnext, .noParams⟩
  · refine .expect fun hident => ?_
    rw [current_bind_run]
    refine .bind (faithful_moreParams steps (c := c.advance) hc) ?_
    rintro names c₁ ⟨ts, hspan, hnames⟩
    have hspan := (Cursor.Spans.next hc (by rw [hident]; decide)).append hspan
    -- The names are faithful only if the closing parenthesis is there.
    refine .expect fun hnext => .pure ?_
    have hlast := Cursor.Spans.next (hspan.closed hc) (by rw [hnext]; decide)
    exact ⟨_, c₁.next, hspan.append hlast, hnext, .params hident hnames⟩

/-- The pairs of a dict, from its opening brace to the last token in
front of its closing brace. -/
theorem faithful_pairs (hexpr : Sound expr) (steps : Nat) {c : Cursor} (hc : c.Closed) :
    (pairs expr steps c).Faithful fun entries c' =>
      ∃ ts, c.advance.Spans c' ts ∧ Derives false (.pairs entries) ts := by
  induction steps generalizing c with
  | zero => trivial
  | succ steps ih =>
      unfold pairs
      rw [nextIs_bind_run]
      split
      · exact .pure ⟨[], .nil c, .noPairs⟩
      · rw [advance_bind_run]
        refine .bind (hexpr .lowest c.advance hc) ?_
        rintro key c₁ ⟨-, ks, hkey, hk⟩
        refine .expect fun hcolon => ?_
        rw [advance_bind_run]
        have hc₁ := hkey.closed hc
        refine .bind (hexpr .lowest c₁.advance.advance hc₁) ?_
        rintro value c₂ ⟨-, vs, hvalue, hv⟩
        rw [nextIs_bind_run]
        have hc₂ := hvalue.closed hc₁
        have hspan := (hkey.append (Cursor.Spans.next hc₁ (by rw [hcolon]; decide))).append hvalue
        split
        · -- The closing brace follows, and no more pairs are read.
          next hbrace =>
            cases steps with
            | zero => trivial
            | succ steps =>
                refine .bind (P := fun entries c' => entries = [] ∧ c' = c₂) ?_ ?_
                · unfold pairs
                  rw [nextIs_bind_run, if_pos hbrace]
                  exact .pure ⟨rfl, rfl⟩
                · rintro entries c₃ ⟨rfl, rfl⟩
                  refine .pure ⟨_, hspan, ?_⟩
                  rw [List.append_assoc]
                  exact .lastPair hcolon hk hv
        · refine .expect fun hcomma => ?_
          have hcomma' := Cursor.Spans.next hc₂ (by rw [hcomma]; decide)
          refine .bind (ih (c := c₂.advance) hc₂) ?_
          rintro entries c₃ ⟨us, hrest, hentries⟩
          -- The grammar writes the tokens with the operators bracketed to the right.
          refine .pure ⟨_, (hspan.append hcomma').append hrest, ?_⟩
          have hder := Derives.pairs hcolon hcomma hk hv hentries
          simpa only [List.append_assoc, List.cons_append, List.nil_append] using hder

/-! ### Statements and blocks -/

/-- What may stand behind a statement: a semicolon or nothing. -/
def OptionalSemicolon (tail : List Token) : Prop :=
  tail = [] ∨ ∃ t, tail = [t] ∧ t.kind = .semicolon

/-- A value and its semicolon, as part of a statement. -/
theorem faithful_value (hexpr : Sound expr) (make : Expr → Stmt) {c : Cursor} (hc : c.Closed) :
    ((expr .lowest >>= fun value => skipSemicolon >>= fun _ =>
      pure (make value)) c).Faithful fun s c' =>
        ∃ e ts tail, s = make e ∧ c.Spans c' (ts ++ tail) ∧ OptionalSemicolon tail ∧
          Derives false (.expr .equality e) ts := by
  refine .bind (hexpr .lowest c hc) ?_
  rintro e c₁ ⟨-, ts, hspan, he⟩
  rw [skipSemicolon_bind_run]
  split
  · next hsemi =>
      have hlast := Cursor.Spans.next (hspan.closed hc) (by rw [hsemi]; decide)
      exact .pure ⟨e, ts, _, rfl, hspan.append hlast, .inr ⟨_, rfl, hsemi⟩, he⟩
  -- A missing semicolon is no error: the statement ends on the expression's last token.
  · refine .pure ⟨e, ts, [], rfl, ?_, .inl rfl, he⟩
    rw [List.append_nil]
    exact hspan

/-- A statement, from its first token to its semicolon, if it has one. -/
theorem faithful_statement (hexpr : Sound expr) {c : Cursor} (hc : c.Closed) :
    (statement expr c).Faithful fun s c' =>
      ∃ ts tail, c.Spans c' (ts ++ tail) ∧ OptionalSemicolon tail ∧
        Derives false (.stmt s) ts := by
  rw [statement_run]
  split
  · next hlet =>
      rw [letStatement_run]
      split
      · next hname =>
          split
          · next hassign =>
              refine (faithful_value hexpr (.letIn c.current c.next.literal)
                (c := c.advance.advance.advance) hc).mono ?_
              rintro s c' ⟨e, ts, tail, rfl, hspan, htail, he⟩
              have hfirst := Cursor.Spans.current hc (by rw [hlet]; decide)
              have hname' := Cursor.Spans.next hc (by rw [hname]; decide)
              have hassign' := Cursor.Spans.next (c := c.advance) hc (by rw [hassign]; decide)
              have hall := ((hfirst.append hname').append hassign').append hspan
              rw [← List.append_assoc] at hall
              exact ⟨_, tail, hall, htail, .letIn hlet hname hassign he⟩
          -- A missing `=`, and a missing name, is always reported.
          · exact .after_cons _ _ _
      · exact .after_cons _ _ _
  · next hret =>
      refine (faithful_value hexpr (.ret c.current) (c := c.advance) hc).mono ?_
      rintro s c' ⟨e, ts, tail, rfl, hspan, htail, he⟩
      have hfirst := Cursor.Spans.current hc (by rw [hret]; decide)
      have hall := hfirst.append hspan
      rw [← List.append_assoc] at hall
      exact ⟨_, tail, hall, htail, .ret hret he⟩
  · refine (faithful_value hexpr (.expr c.current) hc).mono ?_
    rintro s c' ⟨e, ts, tail, rfl, hspan, htail, he⟩
    -- The statement keeps its first token, which is the first one of the expression.
    obtain ⟨t, us, rfl, -⟩ := he.startsExpr
    have hcurrent : c.current = t := by
      unfold Cursor.current
      rw [hspan.ahead_eq]
      rfl
    rw [hcurrent]
    exact ⟨t :: us, tail, hspan, htail, .expr he⟩

/-- Statements, from the first token of the first one up to the token
that ends their list. -/
theorem faithful_statements (hexpr : Sound expr) (inBlock : Bool) (steps : Nat) {c : Cursor}
    (hc : c.Closed) :
    (statements inBlock (statement expr) steps c).Faithful fun body c' =>
      c'.final = c.final ∧ endsStatements inBlock c'.current.kind = true ∧
        ∃ ts, c.ahead = ts ++ c'.ahead ∧ Derives false (.stmts body) ts := by
  induction steps generalizing c with
  | zero => trivial
  | succ steps ih =>
      unfold statements
      rw [current_bind_run]
      cases hends : endsStatements inBlock c.current.kind with
      | true => exact .pure ⟨rfl, hends, [], rfl, .noStmts⟩
      | false =>
          have hstmt := faithful_statement hexpr hc
          simp only [Bool.false_eq_true, if_false]
          rw [bind_run]
          unfold attempt
          cases hrun : statement expr c with
          | exhausted => trivial
          | failed c₁ found =>
              rw [hrun] at hstmt
              -- A broken statement is skipped, but what broke it has been reported.
              cases found with
              | nil => exact absurd rfl hstmt
              | cons d found => exact .after_cons d found _
          | done s c₁ found =>
              rw [hrun] at hstmt
              cases found with
              | cons d found => exact .after_cons d found _
              | nil =>
                  obtain ⟨ts, tail, hspan, htail, hs⟩ := hstmt rfl
                  dsimp only
                  rw [after_nil, advance_bind_run]
                  refine .bind (ih (c := c₁.advance) (hspan.closed hc)) ?_
                  rintro body c₂ ⟨hfinal, hend, us, hahead, hbody⟩
                  refine .pure ⟨hfinal.trans hspan.final_eq, hend, ts ++ tail ++ us, ?_, ?_⟩
                  · rw [List.append_assoc, ← hahead]
                    exact hspan.ahead_eq
                  · -- The semicolon, if it is there, stands behind the tokens of the statement.
                    rcases htail with rfl | ⟨t, rfl, hsemi⟩
                    · rw [List.append_nil]
                      exact .noSemicolon (fun h => by cases h) hs hbody
                    · rw [List.append_assoc]
                      exact .semicolon hsemi hs hbody

/-- A block, from its opening brace to its closing brace. -/
theorem faithful_block (hexpr : Sound expr) (steps : Nat) {c : Cursor} (hc : c.Closed)
    (hbrace : c.current.kind = .leftBrace) :
    (block steps expr c).Faithful fun b c' =>
      ∃ ts, c.Spans c' ts ∧ Derives false (.block b) ts := by
  unfold block
  rw [current_bind_run, advance_bind_run]
  refine .bind (faithful_statements hexpr true steps (c := c.advance) hc) ?_
  rintro body c₁ ⟨hfinal, hend, ts, hahead, hbody⟩
  rw [current_bind_run]
  dsimp only
  split
  · exact List.cons_ne_nil _ _
  · next hne =>
      -- The list of statements ends here, and not at the end of the text.
      have hclose : c₁.current.kind = .rightBrace := by
        simp only [endsStatements, Bool.or_eq_true, beq_iff_eq, Bool.true_and] at hend
        exact hend.resolve_left hne
      have hc₁ : c₁.Closed := by
        rw [Cursor.Closed, hfinal]
        exact hc
      have hopen := Cursor.Spans.current hc (by rw [hbrace]; decide)
      have hspan : c.advance.Spans c₁ (ts ++ [c₁.current]) := by
        refine ⟨?_, hfinal⟩
        rw [hahead, List.append_assoc, List.singleton_append]
        exact congrArg (ts ++ ·) (Cursor.ahead_eq_of_current hc₁ hne)
      refine .pure ⟨_, hopen.append hspan, ?_⟩
      exact .block hbrace hclose hbody

/-! ### Operands and suffixes -/

/-- The branch that may follow the first one, from the last token of the
first one. -/
theorem faithful_alternative (hexpr : Sound expr) (steps : Nat) {c : Cursor} (hc : c.Closed) :
    (alternative steps expr c).Faithful fun a c' =>
      ∃ ts, c.advance.Spans c' ts ∧ Derives false (.branch a) ts := by
  unfold alternative
  rw [nextIs_bind_run]
  split
  · next helse =>
      have helse := eq_of_beq helse
      rw [advance_bind_run]
      refine .expect fun hbrace => ?_
      refine .bind (faithful_block hexpr steps (c := c.advance.advance) hc hbrace) ?_
      rintro b c₁ ⟨ts, hspan, hb⟩
      have hfirst := Cursor.Spans.next hc (by rw [helse]; decide)
      exact .pure ⟨_, hfirst.append hspan, .branch helse hb⟩
  · exact .pure ⟨[], .nil c, .noBranch⟩

/-- A function or a macro, from its keyword on. -/
theorem faithful_lambda (hexpr : Sound expr) (steps : Nat) (kind : LambdaKind) {c : Cursor}
    (hc : c.Closed) (hkind : c.current.kind = kind.tokenKind) :
    (lambda steps expr c.current kind c).Faithful fun e c' =>
      ∃ ts, c.Spans c' ts ∧ Derives false (.expr .suffix e) ts := by
  unfold lambda
  refine .expect fun hparen => ?_
  refine .bind (faithful_params steps (c := c.advance) hc) ?_
  rintro names c₁ ⟨ns, rp, hspan, hrp, hnames⟩
  have hc₁ := hspan.closed hc
  refine .expect fun hbrace => ?_
  refine .bind (faithful_block hexpr steps (c := c₁.advance) hc₁ hbrace) ?_
  rintro b c₂ ⟨bs, hspan', hb⟩
  have hfirst := Cursor.Spans.current hc (by rw [hkind]; cases kind <;> decide)
  have hopen := Cursor.Spans.next hc (by rw [hparen]; decide)
  have hall := ((hfirst.append hopen).append hspan).append hspan'
  -- The four spans meet end to end, keyword to closing brace.
  refine .pure ⟨_, hall, ?_⟩
  have hder := Derives.lambda hkind hparen hrp hnames hb
  simpa only [List.append_assoc, List.cons_append, List.nil_append] using hder

/-- An operand, from its first token to its last. No suffix that could
follow binds more tightly than the operand. -/
theorem faithful_operand (hexpr : Sound expr) (steps : Nat) {c : Cursor} (hc : c.Closed) :
    (operand steps expr c).Faithful fun e c' =>
      ∃ reached ts, c.Spans c' ts ∧ Derives false (.expr reached e) ts ∧
        c'.next.kind.Stops reached ∧ Level.unary.rank ≤ reached.rank := by
  -- Behind an atom any suffix may follow.
  have hatom : ∀ {e : Expr} {c' : Cursor} {ts : List Token}, c.Spans c' ts →
      Derives false (.expr .suffix e) ts → ∃ reached ts, c.Spans c' ts ∧
        Derives false (.expr reached e) ts ∧ c'.next.kind.Stops reached ∧
        Level.unary.rank ≤ reached.rank := fun hspan he =>
    ⟨.suffix, _, hspan, he, fun s _ => s.level.rank_le, by decide⟩
  have htoken : ∀ {kind : TokenKind}, c.current.kind = kind → kind ≠ .eof →
      c.Spans c [c.current] := fun hkind hne => .current hc (hkind ▸ hne)
  -- Behind the operand of a prefix operator no suffix is left that binds more tightly.
  have hunary : ∀ (op : UnaryOp), c.current.kind = op.tokenKind →
      ((expr .unary >>= fun right => pure (.unary c.current op right)) c.advance).Faithful
        fun e c' => ∃ reached ts, c.Spans c' ts ∧ Derives false (.expr reached e) ts ∧
          c'.next.kind.Stops reached ∧ Level.unary.rank ≤ reached.rank := by
    intro op hop
    refine .bind (hexpr .unary c.advance hc) ?_
    rintro e c₁ ⟨hstops, ts, hspan, he⟩
    have hfirst := htoken hop (by cases op <;> decide)
    exact .pure ⟨.unary, _, hfirst.append hspan, .unary hop he, hstops, Nat.le_refl _⟩
  rw [operand_run]
  split
  · next h => exact .pure (hatom (htoken h (by decide)) (.ident h))
  · next h =>
      split
      · next hn => exact .pure (hatom (htoken h (by decide)) (.int h hn))
      · exact List.cons_ne_nil _ _
  · next h => exact .pure (hatom (htoken h (by decide)) (.str h))
  · next h => exact .pure (hatom (htoken h (by decide)) (.trueWord h))
  · next h => exact .pure (hatom (htoken h (by decide)) (.falseWord h))
  · next h => exact hunary .not h
  · next h => exact hunary .negate h
  · next h =>
      refine .bind (hexpr .lowest c.advance hc) ?_
      rintro e c₁ ⟨-, ts, hspan, he⟩
      refine .expect fun hclose => .pure (hatom ?_ (.group h hclose he))
      have hlast := Cursor.Spans.next (hspan.closed hc) (by rw [hclose]; decide)
      exact ((htoken h (by decide)).append hspan).append hlast
  · next h =>
      refine .bind (hexpr .lowest c.advance hc) ?_
      rintro e c₁ ⟨-, ts, hspan, he⟩
      have hc₁ := hspan.closed hc
      refine .expect fun hbrace => ?_
      refine .bind (faithful_block hexpr steps (c := c₁.advance) hc₁ hbrace) ?_
      rintro b c₂ ⟨bs, hspan', hb⟩
      refine .bind (faithful_alternative hexpr steps (hspan'.closed hc₁)) ?_
      rintro a c₃ ⟨as, hspan'', ha⟩
      have hall := (((htoken h (by decide)).append hspan).append hspan').append hspan''
      exact .pure (hatom hall (.cond h he hb ha))
  · next h =>
      refine (faithful_lambda hexpr steps .function hc h).mono ?_
      rintro e c' ⟨ts, hspan, he⟩
      exact hatom hspan he
  · next h =>
      refine (faithful_lambda hexpr steps .macroRule hc h).mono ?_
      rintro e c' ⟨ts, hspan, he⟩
      exact hatom hspan he
  · next h =>
      refine .bind (faithful_items hexpr steps .rightBracket hc (by decide)) ?_
      rintro es c₁ ⟨ts, t, hspan, ht, hes⟩
      have hall := (htoken h (by decide)).append hspan
      rw [← List.append_assoc] at hall
      exact .pure (hatom hall (.array h ht hes))
  · next h =>
      refine .bind (faithful_pairs hexpr steps hc) ?_
      rintro entries c₁ ⟨ts, hspan, hentries⟩
      refine .expect fun hclose => .pure (hatom ?_ (.dict h hclose hentries))
      have hlast := Cursor.Spans.next (hspan.closed hc) (by rw [hclose]; decide)
      exact ((htoken h (by decide)).append hspan).append hlast
  · exact List.cons_ne_nil _ _

/-- A suffix of an expression that a level derives, from the token in
front of the suffix. The level of the suffix derives the whole. -/
theorem faithful_suffix (hexpr : Sound expr) (steps : Nat) {left : Expr} {s : Suffix}
    {c : Cursor} {ts : List Token} (hc : c.Closed) (hs : Suffix.ofKind? c.next.kind = some s)
    (hleft : Derives false (.expr s.level left) ts) :
    (suffix steps expr left s c.advance).Faithful fun e c' =>
      c'.next.kind.Stops s.level ∧ ∃ us, c.advance.Spans c' us ∧
        Derives false (.expr s.level e) (ts ++ us) := by
  have hfirst := Cursor.Spans.next hc (Suffix.ne_eof_of_ofKind? hs)
  -- Behind a closing bracket any suffix may follow.
  have hstops : ∀ c' : Cursor, c'.next.kind.Stops .suffix := fun c' s _ => s.level.rank_le
  rw [suffix_run]
  cases s with
  | operator op =>
      refine .bind (hexpr op.level c.advance.advance hc) ?_
      rintro right c₁ ⟨hstops', us, hspan, hright⟩
      -- The right operand is read one level up, so operators of one level group from the left.
      rw [Level.reads_level] at hright
      exact .pure ⟨hstops', _, hfirst.append hspan,
        .binary (Suffix.ofKind?_eq_operator hs) hleft hright⟩
  | arguments =>
      refine .bind (faithful_items hexpr steps .rightParen (c := c.advance) hc (by decide)) ?_
      rintro args c₁ ⟨us, rp, hspan, hrp, hargs⟩
      refine .pure ⟨hstops c₁, _, hfirst.append hspan, ?_⟩
      have hder := Derives.call (Suffix.ofKind?_eq_arguments hs) hrp hleft hargs
      rw [List.append_assoc] at hder
      exact hder
  | index =>
      refine .bind (hexpr .lowest c.advance.advance hc) ?_
      rintro i c₁ ⟨-, us, hspan, hi⟩
      refine .expect fun hclose => ?_
      have hlast := Cursor.Spans.next (hspan.closed hc) (by rw [hclose]; decide)
      have hder := Derives.index (Suffix.ofKind?_eq_index hs) hclose hleft hi
      rw [List.append_assoc] at hder
      exact .pure ⟨hstops _, _, (hfirst.append hspan).append hlast, hder⟩

/-- The loop over the suffixes of an expression. It starts behind an
expression that some level derives, where the next token adds no suffix
at that level, and this is what each turn keeps. -/
theorem faithful_suffixes (hexpr : Sound expr) (steps : Nat) (level : Level) (k : Nat)
    {reached : Level} {e : Expr} {c : Cursor} {ts : List Token} (hc : c.Closed)
    (he : Derives false (.expr reached e) ts) (hstops : c.next.kind.Stops reached)
    (hreached : level.reads.rank ≤ reached.rank) :
    (suffixes steps expr level k e c).Faithful fun e' c' =>
      c'.next.kind.Stops level ∧ ∃ us, c.advance.Spans c' us ∧
        Derives false (.expr level.reads e') (ts ++ us) := by
  induction k generalizing c e ts reached with
  | zero => trivial
  | succ k ih =>
      rw [suffixes_run]
      have hself : ∃ us, c.advance.Spans c us ∧ Derives false (.expr level.reads e) (ts ++ us) :=
        ⟨[], .nil c, by rw [List.append_nil]; exact he.loosen hreached⟩
      split
      · next hnone =>
          refine .pure ⟨fun s hs => ?_, hself⟩
          rw [hnone] at hs
          cases hs
      · next s hs =>
          split
          · next hlt =>
              -- The expression so far is the left side of the suffix.
              have hleft := he.loosen (hstops s hs)
              refine .bind (faithful_suffix hexpr steps hc hs hleft) ?_
              rintro e₁ c₁ ⟨hstops₁, us, hspan, he₁⟩
              have hreads := level.rank_reads_le_succ
              refine (ih (hspan.closed hc) he₁ hstops₁ (by omega)).mono ?_
              rintro e₂ c₂ ⟨hstops₂, vs, hspan', he₂⟩
              rw [List.append_assoc] at he₂
              exact ⟨hstops₂, _, hspan.append hspan', he₂⟩
          · next hge =>
              refine .pure ⟨fun s' hs' => ?_, hself⟩
              rw [hs] at hs'
              cases hs'
              exact Nat.le_of_not_lt hge

/-! ### Expressions and programs -/

/-- The reader of expressions is sound, whatever the number of steps. -/
theorem sound_readExpr (n : Nat) : Sound (readExpr n) := by
  induction n with
  | zero => exact fun _ _ _ => trivial
  | succ n ih =>
      intro level c hc
      show (exprWith n (readExpr n) level c).Faithful _
      unfold exprWith
      refine .bind (faithful_operand ih n hc) ?_
      rintro e c₁ ⟨reached, ts, hspan, he, hstops, hunary⟩
      have hreached := Nat.le_trans level.rank_reads_le hunary
      refine (faithful_suffixes ih n level n (hspan.closed hc) he hstops hreached).mono ?_
      rintro e' c₂ ⟨hstops', us, hspan', he'⟩
      exact ⟨hstops', ts ++ us, hspan.append hspan', he'⟩

end Reader

end QuoteScript
