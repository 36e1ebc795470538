import QuoteScript.Proofs.Grammar.Reading

/-!
# `QuoteScript.Proofs.Grammar.Locality`: what readers see of their tokens

A reader looks at the current token and at the next one. So two readers
that stand in two lists of tokens give the same reply as long as the two
lists look the same to them. An `Alignment` says of two places that they
do, and that they still do when both readers move on.

Readers do not move on everywhere. No reader passes the end of the text.
A semicolon is passed only by the readers of statements, and a brace that
closes only by the reader that has passed the brace that opens. An
alignment counts the braces that the readers have entered, and makes no
promise where they do not go: behind a semicolon that stands outside of
all braces it may end.

Nothing depends on how many steps the readers are given, unless one of
them is given too few.

* `Token.Resembles`: tokens that look the same.
* `Alignment`: places that look the same.
* `Reply.Matches`: the same reply at two such places.
* `readExpr_aligned`, `statement_aligned`: expressions and statements, by
  induction on the steps.
* `statements_aligned`: lists of statements, if the alignment goes on
  behind each of them.
-/

set_option autoImplicit false

namespace QuoteScript

variable {α β : Type}

/-- A kind of token that is neither a brace, nor a semicolon, nor the end
of the text. -/
def TokenKind.isPlain : TokenKind → Bool
  | .eof | .semicolon | .leftBrace | .rightBrace => false
  | _ => true

/-- The kinds that are not plain, one by one. -/
theorem TokenKind.isPlain_iff {kind : TokenKind} :
    kind.isPlain ↔
      kind ≠ .eof ∧ kind ≠ .semicolon ∧ kind ≠ .leftBrace ∧ kind ≠ .rightBrace := by
  cases kind <;> decide

/-- Two tokens that look the same to a reader. Readers look at the kind
and at the span of the end of the text, and at nothing else of it. -/
structure Token.Resembles (t t' : Token) : Prop where
  kind_eq : t'.kind = t.kind
  span_eq : t'.span = t.span
  eq_of_ne : t.kind ≠ .eof → t' = t

/-- A token resembles itself. -/
theorem Token.Resembles.refl (t : Token) : t.Resembles t :=
  ⟨rfl, rfl, fun _ => rfl⟩

/-- So does an equal one. -/
theorem Token.Resembles.of_eq {t t' : Token} (h : t' = t) : t.Resembles t' :=
  h ▸ .refl t

/-- Places in two lists of tokens that look the same to readers.
`holds depth c c'` says so of readers that have entered `depth` braces,
at least. -/
structure Alignment where
  holds (depth : Nat) (c c' : Cursor) : Prop
  current {d : Nat} {c c' : Cursor} : holds d c c' → c.current.Resembles c'.current
  loosen {d : Nat} {c c' : Cursor} : holds (d + 1) c c' → holds d c c'
  plain {d : Nat} {c c' : Cursor} : holds d c c' → c.current.kind.isPlain →
    holds d c.advance c'.advance
  opening {d : Nat} {c c' : Cursor} : holds d c c' → c.current.kind = .leftBrace →
    holds (d + 1) c.advance c'.advance
  closing {d : Nat} {c c' : Cursor} : holds (d + 1) c c' → c.current.kind = .rightBrace →
    holds d c.advance c'.advance
  semicolon {d : Nat} {c c' : Cursor} : holds (d + 1) c c' → c.current.kind = .semicolon →
    holds (d + 1) c.advance c'.advance
  recover {d : Nat} {c c' : Cursor} : holds (d + 1) c c' →
    holds (d + 1) (c.recovered true) (c'.recovered true)

namespace Alignment

variable (A : Alignment) {d : Nat} {c c' : Cursor}

/-- The two places look the same, and so do the places behind them. A
reader of an expression leaves the cursor so. -/
structure Behind (d : Nat) (c c' : Cursor) : Prop where
  here : A.holds d c c'
  ahead : A.holds d c.advance c'.advance

/-- The same for a reader of a statement, which may leave the cursor on
a semicolon. -/
inductive Ended (d : Nat) (c c' : Cursor) : Prop where
  | behind (h : A.Behind d c c')
  | semicolon (h : A.holds d c c') (hkind : c.current.kind = .semicolon)

variable {A}

/-- The next tokens resemble each other. -/
theorem Behind.next (h : A.Behind d c c') : c.next.Resembles c'.next :=
  A.current h.ahead

/-- Behind a plain token the cursors are still aligned. -/
theorem Behind.of_plain (h : A.holds d c c') (hkind : c.current.kind.isPlain) :
    A.Behind d c c' :=
  ⟨h, A.plain h hkind⟩

/-- A brace that closes is left behind together with the brace that
opens. -/
theorem Behind.of_closing (h : A.holds (d + 1) c c') (hkind : c.current.kind = .rightBrace) :
    A.Behind d c c' :=
  ⟨A.loosen h, A.closing h hkind⟩

/-- A plain token behind the current one. -/
theorem Behind.advance {kind : TokenKind} (h : A.Behind d c c') (hkind : c.next.kind = kind)
    (hplain : kind.isPlain) : A.Behind d c.advance c'.advance :=
  .of_plain h.ahead (hkind ▸ hplain)

end Alignment

/-! ### Replies -/

namespace Reply

/-- Two replies are the same up to their cursors, unless one of the
readers was given too few steps. -/
inductive Matches (done failed : Cursor → Cursor → Prop) : Reply α → Reply α → Prop where
  | done {a : α} {c c' : Cursor} {found : List Diagnostic} (h : done c c') :
      Matches done failed (.done a c found) (.done a c' found)
  | failed {c c' : Cursor} {found : List Diagnostic} (h : failed c c') :
      Matches done failed (.failed c found) (.failed c' found)
  | exhausted {reply : Reply α} : Matches done failed .exhausted reply
  | exhausted' {reply : Reply α} : Matches done failed reply .exhausted

namespace Matches

variable {done done' failed failed' : Cursor → Cursor → Prop} {reply reply' : Reply α}

/-- Errors found in front are the same on both sides. -/
theorem after (found : List Diagnostic) (h : reply.Matches done failed reply') :
    (Reader.after found reply).Matches done failed (Reader.after found reply') := by
  cases h with
  | done h => exact .done h
  | failed h => exact .failed h
  | exhausted => exact .exhausted
  | exhausted' => exact .exhausted'

/-- What is said of failures may be weakened. -/
theorem mono_failed (h : reply.Matches done failed reply')
    (hfailed : ∀ c c', failed c c' → failed' c c') : reply.Matches done failed' reply' := by
  cases h with
  | done h => exact .done h
  | failed h => exact .failed (hfailed _ _ h)
  | exhausted => exact .exhausted
  | exhausted' => exact .exhausted'

/-- Two readers in a row. -/
theorem bind {read read' : Reader α} {next next' : α → Reader β} {c c' : Cursor}
    (hread : (read c).Matches done failed (read' c'))
    (hnext : ∀ a c₁ c₁', done c₁ c₁' → (next a c₁).Matches done' failed (next' a c₁')) :
    ((read >>= next) c).Matches done' failed ((read' >>= next') c') := by
  rw [Reader.bind_run, Reader.bind_run]
  generalize read c = reply, read' c' = reply' at hread
  cases hread with
  | done h => exact (hnext _ _ _ h).after _
  | failed h => exact .failed h
  | exhausted => exact .exhausted
  | exhausted' => exact .exhausted'

end Matches

end Reply

namespace Reader

open Reply QuoteScript.Alignment

variable {A : Alignment} {d : Nat} {c c' : Cursor}

/-- The two replies are the same, and the readers have not gone where
the alignment ends. -/
abbrev Agree (A : Alignment) (d : Nat) (reply reply' : Reply α) : Prop :=
  reply.Matches (A.Behind d) (A.holds d) reply'

/-- A token that is due. -/
theorem expect_agree {post : Cursor → Cursor → Prop} {kind : TokenKind}
    {next next' : Unit → Reader β} (h : A.holds d c c') (hnext : c.next.Resembles c'.next)
    (hgo : c.next.kind = kind →
      (next () c.advance).Matches post (A.holds d) (next' () c'.advance)) :
    ((expect kind >>= next) c).Matches post (A.holds d) ((expect kind >>= next') c') := by
  rw [expect_bind_run, expect_bind_run, hnext.kind_eq, hnext.span_eq]
  split
  · next hkind => exact hgo hkind
  · exact .failed h

/-- Two readers of expressions that agree wherever the alignment
holds. -/
def Aligned (A : Alignment) (expr expr' : Level → Reader Expr) : Prop :=
  ∀ d level c c', A.holds d c c' → Agree A d (expr level c) (expr' level c')

/-- The semicolon behind a value. -/
theorem semicolon_aligned (make : Expr → Stmt) {read read' : Reader Expr}
    (hread : Agree A d (read c) (read' c')) :
    ((read >>= fun value => skipSemicolon >>= fun _ => pure (make value)) c).Matches
      (A.Ended d) (A.holds d)
      ((read' >>= fun value => skipSemicolon >>= fun _ => pure (make value)) c') := by
  refine hread.bind fun value c₁ c₁' h₁ => ?_
  rw [skipSemicolon_bind_run, skipSemicolon_bind_run, h₁.next.kind_eq]
  split
  · next hkind => exact .done (.semicolon h₁.ahead hkind)
  · exact .done (.behind h₁)

section Readers

variable {expr expr' : Level → Reader Expr} (h : Aligned A expr expr')

include h

/-! ### Statements -/

/-- A value and its semicolon. -/
theorem value_aligned (make : Expr → Stmt) (hc : A.holds d c c') :
    ((expr .lowest >>= fun value => skipSemicolon >>= fun _ => pure (make value)) c).Matches
      (A.Ended d) (A.holds d)
      ((expr' .lowest >>= fun value => skipSemicolon >>= fun _ => pure (make value)) c') :=
  semicolon_aligned make (h d .lowest c c' hc)

/-- A binding, well formed or not. -/
theorem letStatement_aligned (hc : A.holds d c c') (hlet : c.current.kind = .letWord) :
    (letStatement expr c).Matches (A.Ended d) (A.holds d) (letStatement expr' c') := by
  have hcurrent := (A.current hc).eq_of_ne (by rw [hlet]; decide)
  have h₁ : A.holds d c.advance c'.advance := A.plain hc (by rw [hlet]; rfl)
  have hnext : c.next.Resembles c'.next := A.current h₁
  have hvalue (name : String) {c₁ c₁' : Cursor} (h₁ : A.holds d c₁ c₁') :
      (letValue expr c.current name c₁).Matches (A.Ended d) (A.holds d)
        (letValue expr' c.current name c₁') := value_aligned h (.letIn c.current name) h₁
  -- A broken `let` goes on if an expression follows.
  have hbroken (e : Diagnostic) (name : String) {c₁ c₁' : Cursor}
      (h₁ : A.holds d c₁.advance c₁'.advance) :
      (after [e] (if c₁.next.kind.startsExpr then letValue expr c.current name c₁.advance
        else .failed c₁.advance [])).Matches (A.Ended d) (A.holds d)
      (after [e] (if c₁'.next.kind.startsExpr then letValue expr' c.current name c₁'.advance
        else .failed c₁'.advance [])) := by
    have hnext : c₁.next.Resembles c₁'.next := A.current h₁
    rw [hnext.kind_eq]
    refine .after _ ?_
    split
    · exact hvalue name h₁
    · exact .failed h₁
  rw [letStatement_run, letStatement_run, hcurrent, hnext.kind_eq, hnext.span_eq]
  by_cases hname : c.next.kind = .ident
  · have h₂ : A.holds d c.advance.advance c'.advance.advance :=
      A.plain h₁ (by rw [Cursor.current_advance, hname]; rfl)
    have hnext₂ : c.advance.next.Resembles c'.advance.next := A.current h₂
    rw [if_pos hname, if_pos hname, hnext.eq_of_ne (by rw [hname]; decide), hnext₂.kind_eq,
      hnext₂.span_eq]
    by_cases hassign : c.advance.next.kind = .assign
    · rw [if_pos hassign, if_pos hassign]
      exact hvalue _ (A.plain h₂ (by rw [Cursor.current_advance, hassign]; rfl))
    · have hrest := hbroken (.unexpectedToken .assign c.advance.next.kind c.advance.next.span)
        c.next.literal h₂
      rw [if_neg hassign, if_neg hassign]
      rw [hnext₂.kind_eq] at hrest
      exact hrest
  · rw [if_neg hname, if_neg hname]
    by_cases hassign : c.next.kind = .assign
    · rw [if_pos hassign, if_pos hassign]
      exact hbroken _ "" (A.plain h₁ (by rw [Cursor.current_advance, hassign]; rfl))
    · rw [if_neg hassign, if_neg hassign]
      exact hbroken _ "" h₁

/-- The current token is the same on both sides, and says what statement
is read. -/
theorem statement_aligned (hc : A.holds d c c') (hne : c.current.kind ≠ .eof) :
    (statement expr c).Matches (A.Ended d) (A.holds d) (statement expr' c') := by
  rw [statement_run, statement_run, (A.current hc).eq_of_ne hne]
  cases hkind : c.current.kind with
  | letWord => exact letStatement_aligned h hc hkind
  | returnWord => exact value_aligned h _ (A.plain hc (by rw [hkind]; rfl))
  | _ => exact value_aligned h _ hc

/-- Lists of statements, if the alignment goes on behind semicolons and
behind broken statements. -/
theorem statements_aligned {inBlock : Bool}
    (hsemicolon : ∀ c c', A.holds d c c' → c.current.kind = .semicolon →
      A.holds d c.advance c'.advance)
    (hrecover : ∀ c c', A.holds d c c' → A.holds d (c.recovered inBlock) (c'.recovered inBlock))
    (steps steps' : Nat) (hc : A.holds d c c') :
    (statements inBlock (statement expr) steps c).Matches
      (fun c c' => A.holds d c c' ∧ endsStatements inBlock c.current.kind) (A.holds d)
      (statements inBlock (statement expr') steps' c') := by
  induction steps generalizing steps' c c' with
  | zero => exact .exhausted
  | succ steps ih =>
      cases steps' with
      | zero => exact .exhausted'
      | succ steps' =>
          rw [statements_run, statements_run, (A.current hc).kind_eq]
          cases hends : endsStatements inBlock c.current.kind with
          | true => exact .done ⟨hc, hends⟩
          | false =>
              have hne : c.current.kind ≠ .eof := fun heof => by
                rw [heof] at hends
                cases hends
              have hstmt := statement_aligned h hc hne
              simp only [Bool.false_eq_true, if_false]
              generalize statement expr c = reply, statement expr' c' = reply' at hstmt
              cases hstmt with
              | @done s c₁ c₁' found h₁ =>
                  have hahead : A.holds d c₁.advance c₁'.advance := by
                    cases h₁ with
                    | behind h₁ => exact h₁.ahead
                    -- A semicolon may lie where the texts part, which is left to the caller.
                    | semicolon h₁ hkind => exact hsemicolon _ _ h₁ hkind
                  exact .after _ ((ih steps' hahead).bind fun _ _ _ hrest => .done hrest)
              -- Both readers recover, and behind what they skip they are aligned again.
              | failed h₁ => exact .after _ (ih steps' (hrecover _ _ h₁))
              | exhausted => exact .exhausted
              | exhausted' => exact .exhausted'

/-! ### Blocks and lists -/

/-- A block is read one level deeper, and closed on the level it was
opened on. -/
theorem block_aligned (n n' : Nat) (hc : A.holds d c c') (hbrace : c.current.kind = .leftBrace) :
    Agree A d (block n expr c) (block n' expr' c') := by
  unfold block
  rw [current_bind_run, current_bind_run, advance_bind_run, advance_bind_run,
    (A.current hc).eq_of_ne (by rw [hbrace]; decide)]
  have hrecover (c c' : Cursor) (hc : A.holds (d + 1) c c') :
      A.holds (d + 1) (c.recovered true) (c'.recovered true) := A.recover hc
  have hbody := statements_aligned h (fun _ _ => A.semicolon) hrecover n n' (A.opening hc hbrace)
  refine (hbody.mono_failed fun _ _ => A.loosen).bind fun body c₁ c₁' ⟨h₁, hends⟩ => ?_
  rw [current_bind_run, current_bind_run]
  dsimp only
  rw [(A.current h₁).kind_eq, (A.current h₁).span_eq]
  -- Only a closing brace leads back to the level outside.
  by_cases heof : c₁.current.kind = .eof
  · simp only [if_pos heof]
    exact .failed (A.loosen h₁)
  · simp only [if_neg heof]
    refine .done (.of_closing h₁ ?_)
    simpa [endsStatements, heof] using hends

/-- The expressions behind the first one, each after a comma. -/
theorem moreItems_aligned (n n' : Nat) (hc : A.Behind d c c') :
    Agree A d (moreItems expr n c) (moreItems expr' n' c') := by
  induction n generalizing n' c c' with
  | zero => exact .exhausted
  | succ n ih =>
      cases n' with
      | zero => exact .exhausted'
      | succ n' =>
          unfold moreItems
          rw [nextIs_bind_run, nextIs_bind_run, hc.next.kind_eq]
          cases hcomma : c.next.kind == .comma with
          | false => exact .done hc
          | true =>
              -- A comma is plain, so both cursors move over it together.
              have hitem := (hc.advance (eq_of_beq hcomma) rfl).ahead
              simp only [if_true]
              rw [advance_bind_run, advance_bind_run, advance_bind_run, advance_bind_run]
              refine (h d .lowest _ _ hitem).bind fun item c₁ c₁' h₁ => ?_
              exact (ih n' h₁).bind fun rest c₂ c₂' h₂ => .done h₂

/-- A list of expressions up to its closing token, which is a plain one. -/
theorem items_aligned (n n' : Nat) (close : TokenKind) (hclose : close.isPlain)
    (hc : A.Behind d c c') :
    Agree A d (items n expr close c) (items n' expr' close c') := by
  unfold items
  rw [nextIs_bind_run, nextIs_bind_run, hc.next.kind_eq]
  cases hnone : c.next.kind == close with
  | true =>
      simp only [if_true]
      rw [advance_bind_run, advance_bind_run]
      exact .done (hc.advance (eq_of_beq hnone) hclose)
  | false =>
      simp only [Bool.false_eq_true, if_false]
      rw [advance_bind_run, advance_bind_run]
      refine (h d .lowest _ _ hc.ahead).bind fun first c₁ c₁' h₁ => ?_
      refine (moreItems_aligned h n n' h₁).bind fun rest c₂ c₂' h₂ => ?_
      exact expect_agree h₂.here h₂.next fun hkind => .done (h₂.advance hkind hclose)

omit h in
/-- The names behind the first one. -/
theorem moreParams_aligned (n n' : Nat) (hc : A.Behind d c c') :
    Agree A d (moreParams n c) (moreParams n' c') := by
  induction n generalizing n' c c' with
  | zero => exact .exhausted
  | succ n ih =>
      cases n' with
      | zero => exact .exhausted'
      | succ n' =>
          unfold moreParams
          rw [nextIs_bind_run, nextIs_bind_run, hc.next.kind_eq]
          cases hcomma : c.next.kind == .comma with
          | false => exact .done hc
          | true =>
              have h₁ := hc.advance (eq_of_beq hcomma) rfl
              simp only [if_true]
              rw [advance_bind_run, advance_bind_run]
              refine expect_agree h₁.here h₁.next fun hident => ?_
              have h₂ := h₁.advance hident rfl
              -- The name is copied from a token that is the same on both sides.
              have hparam : c'.advance.advance.current = c.advance.advance.current :=
                h₁.next.eq_of_ne (by rw [hident]; decide)
              rw [current_bind_run, current_bind_run, hparam]
              exact (ih n' h₂).bind fun rest c₃ c₃' h₃ => .done h₃

omit h in
/-- A list of parameters up to its parenthesis. -/
theorem params_aligned (n n' : Nat) (hc : A.Behind d c c') :
    Agree A d (params n c) (params n' c') := by
  unfold params
  rw [nextIs_bind_run, nextIs_bind_run, hc.next.kind_eq]
  cases hnone : c.next.kind == .rightParen with
  | true =>
      simp only [if_true]
      rw [advance_bind_run, advance_bind_run]
      exact .done (hc.advance (eq_of_beq hnone) rfl)
  | false =>
      simp only [Bool.false_eq_true, if_false]
      refine expect_agree hc.here hc.next fun hident => ?_
      have h₁ := hc.advance hident rfl
      rw [current_bind_run, current_bind_run, Cursor.current_advance, Cursor.current_advance,
        hc.next.eq_of_ne (by rw [hident]; decide)]
      refine (moreParams_aligned n n' h₁).bind fun rest c₂ c₂' h₂ => ?_
      exact expect_agree h₂.here h₂.next fun hkind => .done (h₂.advance hkind rfl)

/-- The pairs of a dict are inside of its brace. The cursor may still
stand on the brace itself. -/
theorem pairs_aligned (n n' : Nat) (hc : A.holds d c c')
    (hahead : A.holds (d + 1) c.advance c'.advance) :
    (pairs expr n c).Matches
      (fun c c' => A.holds d c c' ∧ A.holds (d + 1) c.advance c'.advance) (A.holds d)
      (pairs expr' n' c') := by
  induction n generalizing n' c c' with
  | zero => exact .exhausted
  | succ n ih =>
      cases n' with
      | zero => exact .exhausted'
      | succ n' =>
          have hnext : c.next.Resembles c'.next := A.current hahead
          unfold pairs
          rw [nextIs_bind_run, nextIs_bind_run, hnext.kind_eq]
          cases hnone : c.next.kind == .rightBrace with
          | true => exact .done ⟨hc, hahead⟩
          | false =>
              simp only [Bool.false_eq_true, if_false]
              rw [advance_bind_run, advance_bind_run]
              -- The brace has opened a level, and a failure falls back to the one outside.
              have hkey := (h (d + 1) .lowest _ _ hahead).mono_failed fun _ _ => A.loosen
              refine hkey.bind fun key c₁ c₁' h₁ => ?_
              refine expect_agree (A.loosen h₁.here) h₁.next fun hcolon => ?_
              rw [advance_bind_run, advance_bind_run]
              have hvalue := (h (d + 1) .lowest _ _ (h₁.advance hcolon rfl).ahead).mono_failed
                fun _ _ => A.loosen
              refine hvalue.bind fun value c₂ c₂' h₂ => ?_
              rw [nextIs_bind_run, nextIs_bind_run, h₂.next.kind_eq]
              cases hlast : c₂.next.kind == .rightBrace with
              | true =>
                  exact (ih n' (A.loosen h₂.here) h₂.ahead).bind fun rest c₃ c₃' h₃ => .done h₃
              | false =>
                  refine expect_agree (A.loosen h₂.here) h₂.next fun hcomma => ?_
                  have h₃ := h₂.advance hcomma rfl
                  exact (ih n' (A.loosen h₃.here) h₃.ahead).bind fun rest c₄ c₄' h₄ => .done h₄

/-! ### Operands and suffixes -/

/-- What stands behind `else`, if it does. -/
theorem alternative_aligned (n n' : Nat) (hc : A.Behind d c c') :
    Agree A d (alternative n expr c) (alternative n' expr' c') := by
  unfold alternative
  rw [nextIs_bind_run, nextIs_bind_run, hc.next.kind_eq]
  cases helse : c.next.kind == .elseWord with
  | false => exact .done hc
  | true =>
      have h₁ := hc.advance (eq_of_beq helse) rfl
      simp only [if_true]
      rw [advance_bind_run, advance_bind_run]
      refine expect_agree h₁.here h₁.next fun hbrace => ?_
      exact (block_aligned h n n' h₁.ahead hbrace).bind fun b c₂ c₂' h₂ => .done h₂

/-- A function or a macro. -/
theorem lambda_aligned (n n' : Nat) (token : Token) (kind : LambdaKind) (hc : A.Behind d c c') :
    Agree A d (lambda n expr token kind c) (lambda n' expr' token kind c') := by
  unfold lambda
  refine expect_agree hc.here hc.next fun hparen => ?_
  refine (params_aligned n n' (hc.advance hparen rfl)).bind fun ps c₁ c₁' h₁ => ?_
  refine expect_agree h₁.here h₁.next fun hbrace => ?_
  exact (block_aligned h n n' h₁.ahead hbrace).bind fun body c₂ c₂' h₂ => .done h₂

/-- An operand: the current token is the same on both sides unless the
text ends there. -/
theorem operand_aligned (n n' : Nat) (hc : A.holds d c c') :
    Agree A d (operand n expr c) (operand n' expr' c') := by
  by_cases heof : c.current.kind = .eof
  -- At the end of the text there is no operand on either side.
  · rw [operand_run, operand_run, (A.current hc).kind_eq, (A.current hc).span_eq, heof]
    exact .failed hc
  rw [operand_run, operand_run, (A.current hc).eq_of_ne heof]
  cases hkind : c.current.kind with
  | ident | string | trueWord | falseWord => exact .done (.of_plain hc (by rw [hkind]; rfl))
  | int =>
      cases Text.readInt? c.current.literal with
      | some value => exact .done (.of_plain hc (by rw [hkind]; rfl))
      | none => exact .failed hc
  | bang | minus =>
      have h₁ := A.plain hc (by rw [hkind]; rfl)
      exact (h d .unary _ _ h₁).bind fun right c₂ c₂' h₂ => .done h₂
  | leftParen =>
      have h₁ := A.plain hc (by rw [hkind]; rfl)
      refine (h d .lowest _ _ h₁).bind fun inner c₂ c₂' h₂ => ?_
      exact expect_agree h₂.here h₂.next fun hclose => .done (h₂.advance hclose rfl)
  | ifWord =>
      have h₁ := A.plain hc (by rw [hkind]; rfl)
      refine (h d .lowest _ _ h₁).bind fun condition c₂ c₂' h₂ => ?_
      refine expect_agree h₂.here h₂.next fun hbrace => ?_
      refine (block_aligned h n n' h₂.ahead hbrace).bind fun consequence c₃ c₃' h₃ => ?_
      exact (alternative_aligned h n n' h₃).bind fun alternative c₄ c₄' h₄ => .done h₄
  | fnWord | macroWord =>
      exact lambda_aligned h n n' _ _ (.of_plain hc (by rw [hkind]; rfl))
  | leftBracket =>
      have hself := Behind.of_plain hc (by rw [hkind]; rfl)
      exact (items_aligned h n n' _ rfl hself).bind fun elements c₂ c₂' h₂ => .done h₂
  | leftBrace =>
      refine (pairs_aligned h n n' hc (A.opening hc hkind)).bind fun entries c₂ c₂' ⟨h₂, hahead⟩ =>
        ?_
      exact expect_agree h₂ (A.current hahead) fun hclose => .done (.of_closing hahead hclose)
  | _ => exact .failed hc

/-- One suffix of an expression. -/
theorem suffix_aligned (n n' : Nat) (left : Expr) (s : Suffix) (hc : A.Behind d c c')
    (hne : c.current.kind ≠ .eof) :
    Agree A d (suffix n expr left s c) (suffix n' expr' left s c') := by
  rw [suffix_run, suffix_run, (A.current hc.here).eq_of_ne hne]
  cases s with
  | operator op => exact (h d op.level _ _ hc.ahead).bind fun right c₁ c₁' h₁ => .done h₁
  | arguments => exact (items_aligned h n n' _ rfl hc).bind fun args c₁ c₁' h₁ => .done h₁
  | index =>
      refine (h d .lowest _ _ hc.ahead).bind fun i c₁ c₁' h₁ => ?_
      exact expect_agree h₁.here h₁.next fun hclose => .done (h₁.advance hclose rfl)

/-- Suffixes are taken as long as the next token is one that binds
tightly enough. -/
theorem suffixes_aligned (n n' : Nat) (level : Level) (steps steps' : Nat) (e : Expr)
    (hc : A.Behind d c c') :
    Agree A d (suffixes n expr level steps e c) (suffixes n' expr' level steps' e c') := by
  induction steps generalizing steps' e c c' with
  | zero => exact .exhausted
  | succ steps ih =>
      cases steps' with
      | zero => exact .exhausted'
      | succ steps' =>
          rw [suffixes_run, suffixes_run, hc.next.kind_eq]
          cases hs : Suffix.ofKind? c.next.kind with
          | none => exact .done hc
          | some s =>
              by_cases hlt : level.rank < s.level.rank
              · simp only [if_pos hlt]
                -- No suffix starts with a brace or a semicolon.
                have hplain : c.next.kind.isPlain := by
                  cases hkind : c.next.kind <;> rw [hkind] at hs <;> first | rfl | cases hs
                have h₁ := hc.advance rfl hplain
                have hne : c.advance.current.kind ≠ .eof := Suffix.ne_eof_of_ofKind? hs
                refine (suffix_aligned h n n' e s h₁ hne).bind fun e₁ c₂ c₂' h₂ => ?_
                exact ih steps' e₁ h₂
              · simp only [if_neg hlt]
                exact .done hc

end Readers

/-- Expressions are read in the same way at places that look the
same. -/
theorem readExpr_aligned (A : Alignment) (n n' : Nat) : Aligned A (readExpr n) (readExpr n') := by
  induction n generalizing n' with
  | zero => exact fun _ _ _ _ _ => .exhausted
  | succ n ih =>
      cases n' with
      | zero => exact fun _ _ _ _ _ => .exhausted'
      | succ n' =>
          intro d level c c' hc
          show Agree A d (exprWith n (readExpr n) level c) (exprWith n' (readExpr n') level c')
          unfold exprWith
          refine (operand_aligned (ih n') n n' hc).bind fun first c₁ c₁' h₁ => ?_
          exact suffixes_aligned (ih n') n n' level n n' first h₁

end Reader

end QuoteScript
