import QuoteScript.Proofs.Grammar.Reading

/-!
# `QuoteScript.Proofs.Grammar.Ending`: every reader comes to an end

The readers count steps, and a reader that runs out of them says
nothing about its tokens. This module shows that it never happens:
as many nested steps as there are tokens, and one more, are enough,
because every expression inside another one and every turn of a loop
takes at least one token.

* `readExpr_endsFrom`: an expression, from any place in any list of
  tokens.
* `statement_endsFrom`, `statements_endsFrom`: statements.
* `program_endsFrom`: a whole program.
-/

set_option autoImplicit false

namespace QuoteScript

variable {α β : Type}

namespace Reply

/-- The reply of a reader that has come to an end, no earlier in the
tokens than `c`. -/
def EndsFrom (c : Cursor) : Reply α → Prop
  | .done _ c' _ => c.Within c'
  | .failed c' _ => c.Within c'
  | .exhausted => False

namespace EndsFrom

/-- A reply that ends within a cursor ends within any cursor around it. -/
theorem mono {c c₁ : Cursor} {reply : Reply α} (h : c.Within c₁) (hreply : reply.EndsFrom c₁) :
    reply.EndsFrom c := by
  cases reply with
  | done a c' found => exact h.trans hreply
  | failed c' found => exact h.trans hreply
  | exhausted => exact hreply

/-- What was found before does not keep a reader from ending. -/
theorem after {c : Cursor} {reply : Reply α} (found : List Diagnostic)
    (h : reply.EndsFrom c) : (Reader.after found reply).EndsFrom c := by
  cases reply <;> exact h

/-- Two readers in a row end if each of them does. -/
theorem bind {c₀ c : Cursor} {read : Reader α} {next : α → Reader β}
    (hread : (read c).EndsFrom c₀)
    (hnext : ∀ a c₁ found, read c = .done a c₁ found → c₀.Within c₁ →
      (next a c₁).EndsFrom c₀) :
    ((read >>= next) c).EndsFrom c₀ := by
  rw [Reader.bind_run]
  cases hrun : read c with
  | done a c₁ found =>
      rw [hrun] at hread
      exact (hnext a c₁ found hrun hread).after found
  | failed c₁ found => rw [hrun] at hread; exact hread
  | exhausted => rw [hrun] at hread; exact hread

/-- A reader goes on behind a token that is due. -/
theorem expect {c₀ c : Cursor} {kind : TokenKind} {next : Unit → Reader β}
    (hc : c₀.Within c) (hnext : c.next.kind = kind → (next () c.advance).EndsFrom c₀) :
    ((Reader.expect kind >>= next) c).EndsFrom c₀ := by
  rw [Reader.expect_bind_run]
  split
  · next hkind => exact hnext hkind
  · exact hc

end EndsFrom

end Reply

namespace Reader

open Reply

/-- A reader of expressions that ends wherever there are fewer than `n`
tokens ahead. -/
def Ends (n : Nat) (expr : Level → Reader Expr) : Prop :=
  ∀ (level : Level) (c : Cursor), c.Closed → c.ahead.length < n → (expr level c).EndsFrom c

variable {n : Nat} {expr : Level → Reader Expr}

/-! ### Statements and blocks -/

/-- A value and its semicolon end, wherever they start. -/
theorem value_endsFrom (hexpr : Ends n expr) (make : Expr → Stmt) {c₀ c : Cursor}
    (hc : c.Closed) (hn : c.ahead.length < n) (h₀ : c₀.Within c) :
    ((expr .lowest >>= fun value => skipSemicolon >>= fun _ =>
      pure (make value)) c).EndsFrom c₀ := by
  refine .bind ((hexpr .lowest c hc hn).mono h₀) fun value c₁ _ _ h₁ => ?_
  rw [skipSemicolon_bind_run]
  split
  · exact h₁.advance
  · exact h₁

/-- A `let` ends. -/
theorem letStatement_endsFrom (hexpr : Ends n expr) {c : Cursor} (hc : c.Closed)
    (hn : c.ahead.length < n) : (letStatement expr c).EndsFrom c := by
  have hself := Cursor.Within.refl c
  have hvalue : ∀ {c' : Cursor} (token : Token) (name : String), c.Within c' →
      (letValue expr token name c').EndsFrom c := fun token name h =>
    value_endsFrom hexpr (.letIn token name) (h.closed hc) (Nat.lt_of_le_of_lt h.length_le hn) h
  -- Without its name or its `=`, a `let` goes on only if an expression follows.
  have hbroken : ∀ {c' : Cursor} (d : Diagnostic) (name : String), c.Within c' →
      (after [d] (if c'.next.kind.startsExpr then letValue expr c.current name c'.advance
        else .failed c'.advance [])).EndsFrom c := by
    intro c' d name h
    split
    · exact .after _ (hvalue _ _ h.advance)
    · exact h.advance
  rw [letStatement_run]
  split
  · split
    · exact hvalue _ _ hself.advance.advance.advance
    · exact hbroken _ _ hself.advance
  · refine hbroken _ _ ?_
    split
    · exact hself.advance
    · exact hself

/-- Statements end. -/
theorem statement_endsFrom (hexpr : Ends n expr) {c : Cursor} (hc : c.Closed)
    (hn : c.ahead.length < n) : (statement expr c).EndsFrom c := by
  have hself := Cursor.Within.refl c
  rw [statement_run]
  split
  · exact letStatement_endsFrom hexpr hc hn
  · -- The value of a `return` starts behind the keyword.
    have hlt := Nat.lt_of_le_of_lt hself.advance.length_le hn
    exact value_endsFrom hexpr _ (c := c.advance) hc hlt hself.advance
  · exact value_endsFrom hexpr _ hc hn hself

/-- Skipping a broken statement loses only tokens in front. -/
theorem behindBroken_suffix (inBlock : Bool) (ts : List Token) :
    behindBroken inBlock ts <:+ ts := by
  induction ts with
  | nil => exact List.suffix_refl _
  | cons t ts ih =>
      unfold behindBroken
      split
      · exact List.suffix_cons t ts
      · split
        · exact List.suffix_refl _
        · exact ih.trans (List.suffix_cons t ts)

/-- Skipping a broken statement takes the token in front, unless it ends
the list of statements. -/
theorem behindBroken_length_lt {inBlock : Bool} {t : Token} {ts : List Token}
    (h : endsStatements inBlock t.kind = false) :
    (behindBroken inBlock (t :: ts)).length < (t :: ts).length := by
  have hsuffix := (behindBroken_suffix inBlock ts).length_le
  unfold behindBroken
  rw [h, List.length_cons]
  split <;> grind

/-- Where a list of statements goes on, there is a token. -/
theorem ahead_eq_of_not_endsStatements {inBlock : Bool} {c : Cursor} (hc : c.Closed)
    (h : endsStatements inBlock c.current.kind = false) :
    c.ahead = c.current :: c.ahead.tail := by
  refine Cursor.ahead_eq_of_current hc fun heof => ?_
  rw [heof] at h
  cases h

/-- Behind a broken statement there are fewer tokens than there were in
front of it. -/
theorem behindBroken_ahead_length_lt {inBlock : Bool} {c c₁ : Cursor} (hc : c.Closed)
    (h : endsStatements inBlock c.current.kind = false) (h₁ : c.Within c₁) :
    (behindBroken inBlock c₁.ahead).length < c.ahead.length := by
  have hle := (behindBroken_suffix inBlock c₁.ahead).length_le
  rcases Nat.lt_or_ge c₁.ahead.length c.ahead.length with hlt | hge
  · exact Nat.lt_of_le_of_lt hle hlt
  · -- The statement failed on its first token.
    rw [h₁.suffix.eq_of_length_le hge, ahead_eq_of_not_endsStatements hc h]
    exact behindBroken_length_lt h

/-- Lists of statements end. -/
theorem statements_endsFrom (hexpr : Ends n expr) (inBlock : Bool) (steps : Nat) {c : Cursor}
    (hc : c.Closed) (hn : c.ahead.length < n) (hsteps : c.ahead.length < steps) :
    (statements inBlock (statement expr) steps c).EndsFrom c := by
  induction steps generalizing c with
  | zero => exact absurd hsteps (Nat.not_lt_zero _)
  | succ steps ih =>
      unfold statements
      rw [current_bind_run]
      cases hends : endsStatements inBlock c.current.kind with
      | true => exact Cursor.Within.refl c
      | false =>
          have hahead := ahead_eq_of_not_endsStatements hc hends
          have hstmt := statement_endsFrom hexpr hc hn
          simp only [Bool.false_eq_true, if_false]
          rw [bind_run]
          unfold attempt
          cases hrun : statement expr c with
          | done s c₁ found =>
              rw [hrun] at hstmt
              have h₁ : c.Within c₁ := hstmt
              refine .after found ?_
              dsimp only
              rw [advance_bind_run]
              -- The loop moves on behind the statement, so it always takes a token.
              have htail : c₁.ahead.tail.length < c.ahead.length := by
                refine Nat.lt_of_le_of_lt h₁.length_tail_le ?_
                rw [hahead]
                exact Nat.lt_succ_self _
              refine .bind (.mono h₁.advance (ih (h₁.closed hc) ?_ ?_)) fun rest c₂ _ _ h₂ => h₂
              · exact Nat.lt_trans htail hn
              · exact Nat.lt_of_lt_of_le htail (Nat.le_of_lt_succ hsteps)
          | failed c₁ found =>
              rw [hrun] at hstmt
              have h₁ : c.Within c₁ := hstmt
              refine .after found ?_
              have hlt := behindBroken_ahead_length_lt hc hends h₁
              have h₂ : c.Within { c₁ with ahead := behindBroken inBlock c₁.ahead } :=
                ⟨(behindBroken_suffix inBlock c₁.ahead).trans h₁.suffix, h₁.final_eq⟩
              have hrest := ih (h₂.closed hc) (Nat.lt_trans hlt hn)
                (Nat.lt_of_lt_of_le hlt (Nat.le_of_lt_succ hsteps))
              exact .mono h₂ (.after [] hrest)
          | exhausted => rw [hrun] at hstmt; exact hstmt.elim

/-- Blocks end. -/
theorem block_endsFrom (hexpr : Ends n expr) {c₀ c : Cursor} (hc : c.Closed)
    (hn : c.ahead.tail.length < n) (h₀ : c₀.Within c) : (block n expr c).EndsFrom c₀ := by
  unfold block
  rw [current_bind_run, advance_bind_run]
  have hbody := statements_endsFrom hexpr true n (c := c.advance) hc hn hn
  refine .bind (hbody.mono h₀.advance) fun body c₁ _ _ h₁ => ?_
  rw [current_bind_run]
  dsimp only
  split
  · exact h₁
  · exact h₁

/-! ### Lists -/

/-- Behind a comma there is one token less. -/
theorem length_tail_advance_lt {c : Cursor} {kind : TokenKind} (hc : c.Closed)
    (hkind : c.next.kind = kind) (hne : kind ≠ .eof) :
    c.advance.ahead.tail.length < c.ahead.tail.length := by
  have heq := Cursor.tail_ahead_eq_of_next hc (hkind ▸ hne)
  rw [Cursor.ahead_advance, heq]
  exact Nat.lt_succ_self _

/-- Lists of expressions end. -/
theorem moreItems_endsFrom (hexpr : Ends n expr) (steps : Nat) {c₀ c : Cursor} (hc : c.Closed)
    (hn : c.ahead.tail.length < n) (hsteps : c.ahead.tail.length < steps) (h₀ : c₀.Within c) :
    (moreItems expr steps c).EndsFrom c₀ := by
  induction steps generalizing c with
  | zero => exact absurd hsteps (Nat.not_lt_zero _)
  | succ steps ih =>
      unfold moreItems
      rw [nextIs_bind_run]
      split
      · next hcomma =>
          -- The comma is one token less for the loop, and for the expression behind it.
          have hlt := length_tail_advance_lt hc (eq_of_beq hcomma) (by decide)
          rw [advance_bind_run, advance_bind_run]
          have hitem := hexpr .lowest c.advance.advance hc (Nat.lt_trans hlt hn)
          refine .bind (hitem.mono h₀.advance.advance) fun item c₁ _ hrun h₁ => ?_
          rw [hrun] at hitem
          have hitem : c.advance.advance.Within c₁ := hitem
          have hle : c₁.ahead.tail.length ≤ c.advance.ahead.tail.length :=
            Nat.le_trans (List.tail_suffix _).length_le hitem.length_le
          refine .bind (ih (hitem.closed hc) ?_ ?_ h₁) fun rest c₂ _ _ h₂ => h₂
          · omega
          · omega
      · exact h₀

/-- Expressions between brackets end. -/
theorem items_endsFrom (hexpr : Ends n expr) (close : TokenKind) {c₀ c : Cursor}
    (hc : c.Closed) (hn : c.ahead.tail.length < n) (h₀ : c₀.Within c) :
    (items n expr close c).EndsFrom c₀ := by
  unfold items
  rw [nextIs_bind_run]
  split
  · rw [advance_bind_run]
    exact h₀.advance
  · rw [advance_bind_run]
    have hfirst := hexpr .lowest c.advance hc hn
    refine .bind (hfirst.mono h₀.advance) fun first c₁ _ hrun h₁ => ?_
    rw [hrun] at hfirst
    have hfirst : c.advance.Within c₁ := hfirst
    -- What is left for the other items is shorter, so the fuel is enough for them.
    have hlt : c₁.ahead.tail.length < n :=
      Nat.lt_of_le_of_lt (Nat.le_trans (List.tail_suffix _).length_le hfirst.length_le) hn
    refine .bind (moreItems_endsFrom hexpr n (hfirst.closed hc) hlt hlt h₁)
      fun rest c₂ _ _ h₂ => ?_
    exact .expect h₂ fun _ => h₂.advance

/-- Lists of parameters end. -/
theorem moreParams_endsFrom (steps : Nat) {c₀ c : Cursor} (hc : c.Closed)
    (hsteps : c.ahead.tail.length < steps) (h₀ : c₀.Within c) :
    (moreParams steps c).EndsFrom c₀ := by
  induction steps generalizing c with
  | zero => exact absurd hsteps (Nat.not_lt_zero _)
  | succ steps ih =>
      unfold moreParams
      rw [nextIs_bind_run]
      split
      · next hcomma =>
          -- A comma and a name are read in each turn, so the steps do not run out.
          have hlt := length_tail_advance_lt hc (eq_of_beq hcomma) (by decide)
          rw [advance_bind_run]
          refine .expect h₀.advance fun hident => ?_
          rw [current_bind_run]
          have hlt' := length_tail_advance_lt (c := c.advance) hc hident (by decide)
          exact .bind (ih (c := c.advance.advance) hc (by omega) h₀.advance.advance)
            fun rest c₁ _ _ h₁ => h₁
      · exact h₀

/-- Parameters between parentheses end. -/
theorem params_endsFrom {c₀ c : Cursor} (hc : c.Closed) (hn : c.ahead.tail.length < n)
    (h₀ : c₀.Within c) : (params n c).EndsFrom c₀ := by
  unfold params
  rw [nextIs_bind_run]
  split
  · rw [advance_bind_run]
    exact h₀.advance
  · refine .expect h₀ fun hident => ?_
    rw [current_bind_run]
    have hlt := length_tail_advance_lt hc hident (by decide)
    exact .bind (moreParams_endsFrom n (c := c.advance) hc (Nat.lt_trans hlt hn) h₀.advance)
      fun rest c₁ _ _ h₁ => .expect h₁ fun _ => h₁.advance

/-- Lists of pairs end. -/
theorem pairs_endsFrom (hexpr : Ends n expr) (steps : Nat) {c₀ c : Cursor} (hc : c.Closed)
    (hn : c.ahead.tail.length < n) (hsteps : c.ahead.tail.length < steps) (h₀ : c₀.Within c) :
    (pairs expr steps c).EndsFrom c₀ := by
  induction steps generalizing c with
  | zero => exact absurd hsteps (Nat.not_lt_zero _)
  | succ steps ih =>
      unfold pairs
      rw [nextIs_bind_run]
      split
      · exact h₀
      · rw [advance_bind_run]
        have hkey := hexpr .lowest c.advance hc hn
        refine .bind (hkey.mono h₀.advance) fun key c₁ _ hrun h₁ => ?_
        rw [hrun] at hkey
        have hkey : c.advance.Within c₁ := hkey
        refine .expect h₁ fun hcolon => ?_
        rw [advance_bind_run]
        -- The colon is one of the tokens behind the key.
        have hcolon' := length_tail_advance_lt (hkey.closed hc) hcolon (by decide)
        have hkey' : c₁.ahead.tail.length ≤ c.advance.ahead.tail.length := hkey.length_tail_le
        have hbehind : c₁.advance.advance.ahead.length < c.ahead.tail.length := by
          rw [Cursor.ahead_advance]
          exact Nat.lt_of_lt_of_le hcolon'
            (Nat.le_trans hkey' (List.tail_suffix _).length_le)
        have hvalue := hexpr .lowest c₁.advance.advance (hkey.closed hc)
          (Nat.lt_trans hbehind hn)
        refine .bind (hvalue.mono h₁.advance.advance) fun value c₂ _ hrun₂ h₂ => ?_
        rw [hrun₂] at hvalue
        have hvalue : c₁.advance.advance.Within c₂ := hvalue
        rw [nextIs_bind_run]
        -- More pairs are read from here, or from behind a comma.
        have hrest : ∀ c₃ : Cursor, c₂.Within c₃ →
            ((pairs expr steps >>= fun rest => pure ((key, value) :: rest)) c₃).EndsFrom c₀ := by
          intro c₃ h₃
          have hle : c₃.ahead.tail.length < c.ahead.tail.length :=
            Nat.lt_of_le_of_lt (Nat.le_trans (List.tail_suffix _).length_le
              (hvalue.trans h₃).length_le) hbehind
          refine .bind (ih ((hvalue.trans h₃).closed (hkey.closed hc)) (Nat.lt_trans hle hn)
            (by omega) (h₂.trans h₃)) fun rest c₄ _ _ h₄ => h₄
        split
        · exact hrest c₂ (.refl c₂)
        · exact .expect h₂ fun _ => hrest _ (Cursor.Within.refl c₂).advance

/-! ### Operands and suffixes -/

/-- A branch that may be there ends. -/
theorem alternative_endsFrom (hexpr : Ends n expr) {c₀ c : Cursor} (hc : c.Closed)
    (hn : c.ahead.tail.length < n) (h₀ : c₀.Within c) : (alternative n expr c).EndsFrom c₀ := by
  unfold alternative
  rw [nextIs_bind_run]
  split
  · rw [advance_bind_run]
    refine .expect h₀.advance fun _ => ?_
    have hlt : c.advance.advance.ahead.tail.length < n :=
      Nat.lt_of_le_of_lt (Cursor.Within.refl c).advance.advance.length_tail_le hn
    exact .bind (block_endsFrom hexpr (c := c.advance.advance) hc hlt h₀.advance.advance)
      fun b c₁ _ _ h₁ => h₁
  · exact h₀

/-- Functions and macros end. -/
theorem lambda_endsFrom (hexpr : Ends n expr) {c : Cursor} (token : Token) (kind : LambdaKind)
    (hc : c.Closed) (hn : c.ahead.tail.length < n) :
    (lambda n expr token kind c).EndsFrom c := by
  have hself := Cursor.Within.refl c
  unfold lambda
  refine .expect hself fun _ => ?_
  -- Parameters and body start behind tokens that have been read.
  have hlt : c.advance.ahead.tail.length < n :=
    Nat.lt_of_le_of_lt hself.advance.length_tail_le hn
  refine .bind (params_endsFrom (c := c.advance) hc hlt hself.advance) fun ps c₁ _ _ h₁ => ?_
  refine .expect h₁ fun _ => ?_
  have hlt' : c₁.advance.ahead.tail.length < n :=
    Nat.lt_of_le_of_lt h₁.advance.length_tail_le hn
  exact .bind (block_endsFrom hexpr (h₁.advance.closed hc) hlt' h₁.advance)
    fun b c₂ _ _ h₂ => h₂

/-- Operands end. -/
theorem operand_endsFrom (hexpr : Ends n expr) {c : Cursor} (hc : c.Closed)
    (hn : c.ahead.length ≤ n) : (operand n expr c).EndsFrom c := by
  have hself := Cursor.Within.refl c
  -- Where an operand starts, there is a token, and the rest is shorter.
  have htail : ∀ {kind : TokenKind}, c.current.kind = kind → kind ≠ .eof →
      c.ahead.tail.length < n := by
    intro kind hkind hne
    refine Nat.lt_of_lt_of_le ?_ hn
    rw [Cursor.ahead_eq_of_current hc (hkind ▸ hne)]
    exact Nat.lt_succ_self _
  have hinner : ∀ (level : Level), c.ahead.tail.length < n →
      (expr level c.advance).EndsFrom c := fun level hlt =>
    (hexpr level c.advance hc hlt).mono hself.advance
  rw [operand_run]
  split
  · exact hself
  · split
    · exact hself
    · exact hself
  · exact hself
  · exact hself
  · exact hself
  · next h => exact .bind (hinner .unary (htail h (by decide))) fun _ c₁ _ _ h₁ => h₁
  · next h => exact .bind (hinner .unary (htail h (by decide))) fun _ c₁ _ _ h₁ => h₁
  · next h =>
      exact .bind (hinner .lowest (htail h (by decide))) fun _ c₁ _ _ h₁ =>
        .expect h₁ fun _ => h₁.advance
  · next h =>
      have hlt := htail h (by decide)
      refine .bind (hinner .lowest hlt) fun _ c₁ _ _ h₁ => .expect h₁ fun _ => ?_
      have hlt₁ := Nat.lt_of_le_of_lt h₁.advance.length_tail_le hlt
      refine .bind (block_endsFrom hexpr (h₁.advance.closed hc) hlt₁ h₁.advance)
        fun _ c₂ _ _ h₂ => ?_
      have hlt₂ := Nat.lt_of_le_of_lt h₂.length_tail_le hlt
      exact .bind (alternative_endsFrom hexpr (h₂.closed hc) hlt₂ h₂) fun _ c₃ _ _ h₃ => h₃
  · next h => exact lambda_endsFrom hexpr _ _ hc (htail h (by decide))
  · next h => exact lambda_endsFrom hexpr _ _ hc (htail h (by decide))
  · next h =>
      exact .bind (items_endsFrom hexpr _ hc (htail h (by decide)) hself) fun _ c₁ _ _ h₁ => h₁
  · next h =>
      have hlt := htail h (by decide)
      exact .bind (pairs_endsFrom hexpr n hc hlt hlt hself) fun _ c₁ _ _ h₁ =>
        .expect h₁ fun _ => h₁.advance
  · exact hself

/-- A suffix ends. -/
theorem suffix_endsFrom (hexpr : Ends n expr) (left : Expr) (s : Suffix) {c : Cursor}
    (hc : c.Closed) (hn : c.ahead.tail.length < n) : (suffix n expr left s c).EndsFrom c := by
  have hself := Cursor.Within.refl c
  rw [suffix_run]
  cases s with
  | operator op =>
      exact .bind ((hexpr op.level c.advance hc hn).mono hself.advance) fun _ c₁ _ _ h₁ => h₁
  | arguments => exact .bind (items_endsFrom hexpr _ hc hn hself) fun _ c₁ _ _ h₁ => h₁
  | index =>
      exact .bind ((hexpr .lowest c.advance hc hn).mono hself.advance) fun _ c₁ _ _ h₁ =>
        .expect h₁ fun _ => h₁.advance

/-- Suffixes end. -/
theorem suffixes_endsFrom (hexpr : Ends n expr) (level : Level) (steps : Nat) {c₀ c : Cursor}
    (hc : c.Closed) (hn : c.ahead.tail.length < n) (hsteps : c.ahead.tail.length < steps)
    (e : Expr) (h₀ : c₀.Within c) : (suffixes n expr level steps e c).EndsFrom c₀ := by
  induction steps generalizing c e with
  | zero => exact absurd hsteps (Nat.not_lt_zero _)
  | succ steps ih =>
      rw [suffixes_run]
      split
      · exact h₀
      · next s hs =>
          split
          · -- A suffix takes at least its own first token.
            have hlt := length_tail_advance_lt hc rfl (Suffix.ne_eof_of_ofKind? hs)
            have hsuffix := suffix_endsFrom hexpr e s (c := c.advance) hc (Nat.lt_trans hlt hn)
            refine .bind (hsuffix.mono h₀.advance) fun e₁ c₁ _ hrun h₁ => ?_
            rw [hrun] at hsuffix
            have hsuffix : c.advance.Within c₁ := hsuffix
            have hle := hsuffix.length_tail_le
            exact ih (hsuffix.closed hc) (by omega) (by omega) e₁ h₁
          · exact h₀

/-! ### Expressions and programs -/

/-- An expression ends if it is given more steps than there are tokens
ahead. -/
theorem readExpr_endsFrom (n : Nat) : Ends n (readExpr n) := by
  induction n with
  | zero => exact fun _ _ _ h => absurd h (Nat.not_lt_zero _)
  | succ n ih =>
      intro level c hc hn
      have hn : c.ahead.length ≤ n := Nat.le_of_lt_succ hn
      show (exprWith n (readExpr n) level c).EndsFrom c
      unfold exprWith
      refine .bind (operand_endsFrom ih hc hn) fun first c₁ found hrun h₁ => ?_
      -- An operand has been read, so there was a token.
      have hne : c.current.kind ≠ .eof := by
        intro heof
        rw [operand_run, heof] at hrun
        cases hrun
      have hlt : c₁.ahead.tail.length < n := by
        refine Nat.lt_of_le_of_lt h₁.length_tail_le (Nat.lt_of_lt_of_le ?_ hn)
        rw [Cursor.ahead_eq_of_current hc hne]
        exact Nat.lt_succ_self _
      exact suffixes_endsFrom ih level n (h₁.closed hc) hlt hlt first h₁

/-- A program ends, whatever its tokens are, in one more step than there
are tokens. -/
theorem program_endsFrom (tokens : List Token) :
    (program (tokens.length + 1) (Cursor.ofTokens tokens)).EndsFrom
      (Cursor.ofTokens tokens) := by
  have hlt : (Cursor.ofTokens tokens).ahead.length < tokens.length + 1 :=
    Nat.lt_succ_of_le (List.takeWhile_sublist _).length_le
  exact statements_endsFrom (readExpr_endsFrom _) false _ (Cursor.closed_ofTokens tokens) hlt hlt

end Reader

end QuoteScript
