import QuoteScript.Proofs.Grammar.Soundness
import QuoteScript.Proofs.Grammar.Synchronization

/-!
# `QuoteScript.Proofs.Grammar.Continuation`: a semicolon behind an expression

Where a text ends, an expression ends, and so it does where a semicolon
stands. If a reader finds nothing wrong with an expression up to the end
of a text, it finds nothing wrong with it in front of a semicolon either,
whatever follows there.

The two readings are compared step by step. The readers see the same
tokens up to the end of the first text, and there the one sees the end
and the other the semicolon. Neither of them goes on with an expression,
and neither is a token that is due. The two can be told apart only by a
reader of statements inside of a brace. But the end of the text is
reported there, so the first reading is not clean.

* `Turn.clean`: a statement with which nothing is wrong.
* `Cursor.Tracks`: the same place in the text and in the one that goes
  on.
* `Reply.Carries`: a clean reply is given in both places.
* `readExpr_carried`: expressions, by induction on the steps.
* `readExpr_semicolon`: a whole expression and its semicolon.
-/

set_option autoImplicit false

namespace QuoteScript

variable {α β : Type}

/-! ### Clean turns -/

/-- A clean turn of the loop over statements reads a statement. -/
theorem Turn.clean {inBlock : Bool} {expr : Level → Reader Expr} {steps : Nat}
    {c c' : Cursor} {ss : List Stmt} (hexpr : Reader.Sound expr) (hc : c.Closed)
    (h : Turn inBlock (Reader.statement expr) steps c ss c' []) :
    ∃ s rest c₁, ss = s :: rest ∧ Reader.statement expr c = .done s c₁ [] ∧
      Reader.statements inBlock (Reader.statement expr) steps c₁.advance = .done rest c' [] := by
  generalize hfound : ([] : List Diagnostic) = found at h
  cases h with
  | statement hstmt hrest =>
      obtain ⟨rfl, rfl⟩ := List.append_eq_nil_iff.mp hfound.symm
      exact ⟨_, _, _, rfl, hstmt, hrest⟩
  | broken hstmt _ =>
      -- What broke the statement has been reported.
      have hfaithful := Reader.faithful_statement hexpr hc
      rw [hstmt] at hfaithful
      exact absurd (List.append_eq_nil_iff.mp hfound.symm).1 hfaithful

/-! ### Two texts -/

/-- `c` stands in a text, and `c'` stands at the same place in one that
goes on with `behind`. At the end of the first text, `c'` may stand
anywhere. -/
structure Cursor.Tracks (behind : List Token) (final' : Token) (c c' : Cursor) : Prop where
  closed : c.Closed
  same : c.ahead ≠ [] → c' = ⟨c.ahead ++ behind, final'⟩

/-- The same for places that are not at the end. -/
structure Cursor.TracksOn (behind : List Token) (final' : Token) (c c' : Cursor) : Prop where
  tracks : c.Tracks behind final' c'
  ne_nil : c.ahead ≠ []

namespace Cursor

variable {semi : Token} {rest : List Token} {final' : Token} {c c' : Cursor}

/-- In a closed cursor that is not at the end of the text there is a
token ahead. -/
theorem ahead_ne_nil_of_current (hc : c.Closed) (h : c.current.kind ≠ .eof) : c.ahead ≠ [] := by
  rw [ahead_eq_of_current hc h]
  exact List.cons_ne_nil _ _

/-- On the last token of a closed cursor, the end of the text is
next. -/
theorem next_kind_of_end (hc : c.Closed) (h : c.advance.ahead = []) : c.next.kind = .eof := by
  have hnext : c.next = c.final := congrArg (List.headD · c.final) h
  rw [hnext]
  exact hc

namespace Tracks

/-- Both cursors move on by one token, while there is one. -/
theorem advance {behind : List Token} (h : c.Tracks behind final' c') :
    c.advance.Tracks behind final' c'.advance := by
  refine ⟨h.closed, fun hne => ?_⟩
  obtain ⟨ahead, final⟩ := c
  cases ahead with
  | nil => exact absurd rfl hne
  | cons t ts =>
      rw [h.same (List.cons_ne_nil t ts)]
      rfl

/-- In front of the end there is a token left. -/
theorem on {behind : List Token} (h : c.Tracks behind final' c') (hne : c.current.kind ≠ .eof) :
    c.TracksOn behind final' c' :=
  ⟨h, ahead_ne_nil_of_current h.closed hne⟩

/-- A token that both readers see. -/
theorem current {behind : List Token} (h : c.Tracks behind final' c')
    (hne : c.current.kind ≠ .eof) : c'.current = c.current := by
  have hahead := ahead_eq_of_current h.closed hne
  rw [h.same (h.on hne).ne_nil]
  show (c.ahead ++ behind).headD final' = c.current
  rw [hahead]
  rfl

/-- The same for the token behind the current one. -/
theorem next {behind : List Token} (h : c.Tracks behind final' c') (hne : c.next.kind ≠ .eof) :
    c'.next = c.next :=
  h.advance.current hne

/-- Where a token of a known kind is next, both readers move onto it. -/
theorem on_advance {behind : List Token} {kind : TokenKind} (h : c.Tracks behind final' c')
    (hkind : c.next.kind = kind) (hne : kind ≠ .eof) :
    c.advance.TracksOn behind final' c'.advance :=
  h.advance.on (hkind ▸ hne)

end Tracks

/-- Behind a token of the text both readers see the same, or the one is
at its end and the other sees the semicolon. -/
theorem TracksOn.next (h : c.TracksOn (semi :: rest) final' c') :
    c'.next = c.next ∨ c.advance.ahead = [] ∧ c'.next = semi := by
  rw [h.tracks.same h.ne_nil]
  have hne := h.ne_nil
  obtain ⟨ahead, final⟩ := c
  match ahead with
  | [] => exact absurd rfl hne
  | [t] => exact .inr ⟨rfl, rfl⟩
  | t :: u :: us => exact .inl rfl

/-- So they agree on what the next token is, if it is neither. -/
theorem TracksOn.next_kind_beq (h : c.TracksOn (semi :: rest) final' c')
    (hsemi : semi.kind = .semicolon) (kind : TokenKind) (heof : kind ≠ .eof)
    (hne : kind ≠ .semicolon) : (c'.next.kind == kind) = (c.next.kind == kind) := by
  rcases h.next with hnext | ⟨hend, hnext⟩
  · rw [hnext]
  · rw [hnext, hsemi, next_kind_of_end h.tracks.closed hend, beq_false_of_ne hne.symm,
      beq_false_of_ne heof.symm]

end Cursor

/-! ### Replies -/

/-- What comes behind a report is not clean. -/
theorem Reader.after_cons_ne_done (d : Diagnostic) (found : List Diagnostic) (reply : Reply α)
    (a : α) (c : Cursor) : after (d :: found) reply ≠ .done a c [] := by
  cases reply <;> exact nofun

namespace Reply

/-- If a reply is clean, the other one is the same up to its cursor,
unless its reader was given too few steps. -/
def Carries (post : Cursor → Cursor → Prop) (reply reply' : Reply α) : Prop :=
  ∀ a c, reply = .done a c [] → reply' = .exhausted ∨ ∃ c', reply' = .done a c' [] ∧ post c c'

namespace Carries

variable {post post' : Cursor → Cursor → Prop} {reply reply' : Reply α}

/-- A reading that ends is carried to one that ends behind it. -/
theorem done {a : α} {c c' : Cursor} (h : post c c') :
    (Reply.done a c []).Carries post (.done a c' []) := by
  intro b c₁ heq
  cases heq
  exact .inr ⟨c', rfl, h⟩

/-- Of a reading that fails nothing is promised. -/
theorem failed {c : Cursor} {found : List Diagnostic} :
    (Reply.failed c found).Carries post reply' :=
  nofun

/-- Nor of one that reports an error. -/
theorem after_cons (d : Diagnostic) (found : List Diagnostic) :
    (Reader.after (d :: found) reply).Carries post reply' := fun a c heq =>
  absurd heq (Reader.after_cons_ne_done d found reply a c)

/-- Two readers in a row. -/
theorem bind {read read' : Reader α} {next next' : α → Reader β} {c c' : Cursor}
    (hread : (read c).Carries post (read' c'))
    (hnext : ∀ a c₁ c₁', post c₁ c₁' → (next a c₁).Carries post' (next' a c₁')) :
    ((read >>= next) c).Carries post' ((read' >>= next') c') := by
  rw [Reader.bind_run, Reader.bind_run]
  cases hrun : read c with
  | failed c₁ found => exact .failed
  | exhausted => exact nofun
  | done a c₁ found =>
      cases found with
      -- Only readings without errors are carried over.
      | cons d found => exact .after_cons d found
      | nil =>
          rcases hread a c₁ hrun with hout | ⟨c₁', hrun', hpost⟩
          · rw [hout]
            exact fun _ _ _ => .inl rfl
          · rw [hrun']
            dsimp only
            rw [Reader.after_nil, Reader.after_nil]
            exact hnext a c₁ c₁' hpost

/-- A token that is due stands in both texts. -/
theorem expect {behind : List Token} {final' : Token} {kind : TokenKind}
    {next next' : Unit → Reader β} {c c' : Cursor} (hc : c.Tracks behind final' c')
    (heof : kind ≠ .eof) (hgo : c.next.kind = kind → c'.next = c.next →
      (next () c.advance).Carries post (next' () c'.advance)) :
    ((Reader.expect kind >>= next) c).Carries post ((Reader.expect kind >>= next') c') := by
  rw [Reader.expect_bind_run, Reader.expect_bind_run]
  by_cases hkind : c.next.kind = kind
  · have hnext : c'.next = c.next := hc.next (hkind ▸ heof)
    rw [if_pos hkind, if_pos (hnext ▸ hkind)]
    exact hgo hkind hnext
  · rw [if_neg hkind]
    exact .failed

end Carries

end Reply

namespace Reader

open Reply Cursor

variable {semi : Token} {rest : List Token} {final' : Token} {c c' : Cursor}

/-- A clean reply, given where the cursor stands on a token of the
text. -/
abbrev CarriesOn (semi : Token) (rest : List Token) (final' : Token) (reply reply' : Reply α) :
    Prop :=
  reply.Carries (TracksOn (semi :: rest) final') reply'

/-- A reader of expressions that gives every clean reply in front of the
semicolon, too. -/
def Carried (semi : Token) (rest : List Token) (final' : Token) (expr expr' : Level → Reader Expr) :
    Prop :=
  ∀ level c c', c.Tracks (semi :: rest) final' c' →
    CarriesOn semi rest final' (expr level c) (expr' level c')

section Readers

variable {expr expr' : Level → Reader Expr} (h : Carried semi rest final' expr expr')

include h

/-! ### Statements and blocks -/

/-- A value and its semicolon. In front of the end of the text only one
of the readers moves on, but behind it nothing is compared. -/
theorem value_carries (make : Expr → Stmt) (hc : c.Tracks (semi :: rest) final' c') :
    ((expr .lowest >>= fun value => skipSemicolon >>= fun _ => pure (make value)) c).Carries
      (fun c c' => c.advance.Tracks (semi :: rest) final' c'.advance)
      ((expr' .lowest >>= fun value => skipSemicolon >>= fun _ => pure (make value)) c') := by
  refine (h .lowest c c' hc).bind fun value c₁ c₁' h₁ => ?_
  rw [skipSemicolon_bind_run, skipSemicolon_bind_run]
  refine .done ?_
  rcases h₁.next with hnext | ⟨hend, -⟩
  · rw [hnext]
    split
    · exact h₁.tracks.advance.advance
    · exact h₁.tracks.advance
  · -- The first text is at its end, so it does not matter where the other reader stands.
    rw [if_neg (by rw [next_kind_of_end h₁.tracks.closed hend]; decide)]
    exact ⟨h₁.tracks.closed, fun hne => absurd hend hne⟩

/-- A binding without errors. -/
theorem letStatement_carries (hc : c.Tracks (semi :: rest) final' c')
    (hlet : c.current.kind = .letWord) :
    (letStatement expr c).Carries
      (fun c c' => c.advance.Tracks (semi :: rest) final' c'.advance) (letStatement expr' c') := by
  have hcurrent := hc.current (by rw [hlet]; decide)
  rw [letStatement_run, letStatement_run]
  by_cases hname : c.next.kind = .ident
  -- A name is not the end of the text, so the other reader sees it as well.
  · have hnext : c'.next = c.next := hc.next (by rw [hname]; decide)
    rw [hnext, if_pos hname, if_pos hname]
    by_cases hassign : c.advance.next.kind = .assign
    · have hnext₂ : c'.advance.next = c.advance.next := hc.advance.next (by rw [hassign]; decide)
      rw [hnext₂, if_pos hassign, if_pos hassign, hcurrent]
      exact value_carries h (.letIn c.current c.next.literal) hc.advance.advance.advance
    · rw [if_neg hassign]
      exact .after_cons _ _
  · rw [if_neg hname]
    exact .after_cons _ _

/-- A statement without errors, up to the semicolon behind it. -/
theorem statement_carries (hc : c.Tracks (semi :: rest) final' c') (hne : c.current.kind ≠ .eof) :
    (statement expr c).Carries
      (fun c c' => c.advance.Tracks (semi :: rest) final' c'.advance) (statement expr' c') := by
  rw [statement_run, statement_run, hc.current hne]
  cases hkind : c.current.kind with
  | letWord => exact letStatement_carries h hc hkind
  | returnWord => exact value_carries h _ hc.advance
  | _ => exact value_carries h _ hc

/-- The statements of a block. If they end with the text, the block is
broken, so nothing is said about this case. -/
theorem statements_carries (hexpr : Sound expr) (steps steps' : Nat)
    (hc : c.Tracks (semi :: rest) final' c') {body : List Stmt} {c₁ : Cursor}
    (hrun : statements true (statement expr) steps c = .done body c₁ [])
    (hends : c₁.current.kind ≠ .eof) :
    statements true (statement expr') steps' c' = .exhausted ∨
      ∃ c₁', statements true (statement expr') steps' c' = .done body c₁' [] ∧
        c₁.TracksOn (semi :: rest) final' c₁' := by
  induction steps generalizing steps' c c' body with
  | zero => cases hrun
  | succ steps ih =>
      cases steps' with
      | zero => exact .inl rfl
      | succ steps' =>
          cases hend : endsStatements true c.current.kind with
          | true =>
              rw [statements_run, hend] at hrun
              cases hrun
              refine .inr ⟨c', ?_, hc.on hends⟩
              rw [statements_run, hc.current hends, hend]
              rfl
          | false =>
              have hne : c.current.kind ≠ .eof := fun heof => by rw [heof] at hend; cases hend
              rw [statements_run, hc.current hne, hend]
              simp only [Bool.false_eq_true, if_false]
              -- A run without errors has no broken statement in it.
              have hturn := Turn.of_statements hrun hend
              obtain ⟨s, ss, c₂, rfl, hstmt, hrest⟩ := hturn.clean hexpr hc.closed
              rcases statement_carries h hc hne s c₂ hstmt with hout | ⟨c₂', hstmt', h₂⟩
              · rw [hout]
                exact .inl rfl
              · rw [hstmt']
                dsimp only
                rw [after_nil, bind_run]
                rcases ih steps' h₂ hrest with hout | ⟨c₁', hrest', h₁⟩
                · rw [hout]
                  exact .inl rfl
                · rw [hrest']
                  exact .inr ⟨c₁', rfl, h₁⟩

/-- A block that is closed without errors. -/
theorem block_carries (hexpr : Sound expr) (n n' : Nat) (hc : c.Tracks (semi :: rest) final' c')
    (hbrace : c.current.kind = .leftBrace) :
    CarriesOn semi rest final' (block n expr c) (block n' expr' c') := by
  intro b c₂ hrun
  unfold block at hrun ⊢
  rw [current_bind_run, advance_bind_run, bind_run] at hrun ⊢
  cases hbody : statements true (statement expr) n c.advance with
  | exhausted => rw [hbody] at hrun; cases hrun
  | failed c₁ found => rw [hbody] at hrun; cases hrun
  | done body c₁ found =>
      rw [hbody] at hrun
      dsimp only at hrun
      cases found with
      | cons d found => exact absurd hrun (after_cons_ne_done d found _ b c₂)
      | nil =>
          rw [after_nil, current_bind_run] at hrun
          -- The block has ended on a brace: at the end of the text it would be reported.
          have hends : c₁.current.kind ≠ .eof := by
            intro heof
            rw [if_pos heof] at hrun
            cases hrun
          rw [if_neg hends] at hrun
          cases hrun
          rcases statements_carries h hexpr n n' hc.advance hbody hends with
            hout | ⟨c₁', hbody', h₁⟩
          · rw [hout]
            exact .inl rfl
          · rw [hbody']
            dsimp only
            rw [after_nil, current_bind_run, h₁.tracks.current hends, if_neg hends,
              hc.current (by rw [hbrace]; decide)]
            exact .inr ⟨c₁', rfl, h₁⟩

/-! ### Lists -/

variable (hsemi : semi.kind = .semicolon)

include hsemi

/-- The expressions behind the first one. -/
theorem moreItems_carries (n n' : Nat) (hc : c.TracksOn (semi :: rest) final' c') :
    CarriesOn semi rest final' (moreItems expr n c) (moreItems expr' n' c') := by
  induction n generalizing n' c c' with
  | zero => exact nofun
  | succ n ih =>
      cases n' with
      | zero => exact fun _ _ _ => .inl rfl
      | succ n' =>
          unfold moreItems
          rw [nextIs_bind_run, nextIs_bind_run,
            -- Behind the text one reader sees the end, the other a semicolon, and none a comma.
            hc.next_kind_beq hsemi .comma (by decide) (by decide)]
          cases hcomma : c.next.kind == .comma with
          | false => exact .done hc
          | true =>
              simp only [if_true]
              rw [advance_bind_run, advance_bind_run, advance_bind_run, advance_bind_run]
              refine (h .lowest _ _ hc.tracks.advance.advance).bind fun item c₁ c₁' h₁ => ?_
              exact (ih n' h₁).bind fun more c₂ c₂' h₂ => .done h₂

/-- A list of expressions up to its closing token. -/
theorem items_carries (n n' : Nat) {close : TokenKind} (heof : close ≠ .eof)
    (hne : close ≠ .semicolon) (hc : c.TracksOn (semi :: rest) final' c') :
    CarriesOn semi rest final' (items n expr close c) (items n' expr' close c') := by
  unfold items
  rw [nextIs_bind_run, nextIs_bind_run, hc.next_kind_beq hsemi close heof hne]
  cases hnone : c.next.kind == close with
  | true =>
      simp only [if_true]
      rw [advance_bind_run, advance_bind_run]
      exact .done (hc.tracks.on_advance (eq_of_beq hnone) heof)
  | false =>
      simp only [Bool.false_eq_true, if_false]
      rw [advance_bind_run, advance_bind_run]
      refine (h .lowest _ _ hc.tracks.advance).bind fun first c₁ c₁' h₁ => ?_
      refine (moreItems_carries h hsemi n n' h₁).bind fun more c₂ c₂' h₂ => ?_
      exact .expect h₂.tracks heof fun hkind _ => .done (h₂.tracks.on_advance hkind heof)

omit h in
/-- The names behind the first one. -/
theorem moreParams_carries (n n' : Nat) (hc : c.TracksOn (semi :: rest) final' c') :
    CarriesOn semi rest final' (moreParams n c) (moreParams n' c') := by
  induction n generalizing n' c c' with
  | zero => exact nofun
  | succ n ih =>
      cases n' with
      | zero => exact fun _ _ _ => .inl rfl
      | succ n' =>
          unfold moreParams
          rw [nextIs_bind_run, nextIs_bind_run,
            hc.next_kind_beq hsemi .comma (by decide) (by decide)]
          cases hcomma : c.next.kind == .comma with
          | false => exact .done hc
          | true =>
              have h₁ := hc.tracks.on_advance (eq_of_beq hcomma) (by decide)
              simp only [if_true]
              rw [advance_bind_run, advance_bind_run]
              refine .expect h₁.tracks (by decide) fun hident hnext => ?_
              have h₂ := h₁.tracks.on_advance hident (by decide)
              -- The name was there to be expected, so both readers copy the same token.
              rw [current_bind_run, current_bind_run, Cursor.current_advance,
                Cursor.current_advance, hnext]
              exact (ih n' h₂).bind fun more c₃ c₃' h₃ => .done h₃

omit h in
/-- A list of parameters. -/
theorem params_carries (n n' : Nat) (hc : c.TracksOn (semi :: rest) final' c') :
    CarriesOn semi rest final' (params n c) (params n' c') := by
  unfold params
  rw [nextIs_bind_run, nextIs_bind_run,
    hc.next_kind_beq hsemi .rightParen (by decide) (by decide)]
  cases hnone : c.next.kind == .rightParen with
  | true =>
      simp only [if_true]
      rw [advance_bind_run, advance_bind_run]
      exact .done (hc.tracks.on_advance (eq_of_beq hnone) (by decide))
  | false =>
      simp only [Bool.false_eq_true, if_false]
      refine .expect hc.tracks (by decide) fun hident hnext => ?_
      have h₁ := hc.tracks.on_advance hident (by decide)
      rw [current_bind_run, current_bind_run, Cursor.current_advance, Cursor.current_advance,
        hnext]
      refine (moreParams_carries hsemi n n' h₁).bind fun more c₂ c₂' h₂ => ?_
      exact .expect h₂.tracks (by decide) fun hkind _ =>
        .done (h₂.tracks.on_advance hkind (by decide))

/-- The pairs of a dict. -/
theorem pairs_carries (n n' : Nat) (hc : c.TracksOn (semi :: rest) final' c') :
    CarriesOn semi rest final' (pairs expr n c) (pairs expr' n' c') := by
  induction n generalizing n' c c' with
  | zero => exact nofun
  | succ n ih =>
      cases n' with
      | zero => exact fun _ _ _ => .inl rfl
      | succ n' =>
          unfold pairs
          rw [nextIs_bind_run, nextIs_bind_run,
            hc.next_kind_beq hsemi .rightBrace (by decide) (by decide)]
          cases hnone : c.next.kind == .rightBrace with
          | true => exact .done hc
          | false =>
              simp only [Bool.false_eq_true, if_false]
              rw [advance_bind_run, advance_bind_run]
              refine (h .lowest _ _ hc.tracks.advance).bind fun key c₁ c₁' h₁ => ?_
              refine .expect h₁.tracks (by decide) fun _ _ => ?_
              rw [advance_bind_run, advance_bind_run]
              refine (h .lowest _ _ h₁.tracks.advance.advance).bind fun value c₂ c₂' h₂ => ?_
              rw [nextIs_bind_run, nextIs_bind_run,
                h₂.next_kind_beq hsemi .rightBrace (by decide) (by decide)]
              cases hlast : c₂.next.kind == .rightBrace with
              -- The loop ends on the brace in its next turn.
              | true => exact (ih n' h₂).bind fun more c₃ c₃' h₃ => .done h₃
              | false =>
                  refine .expect h₂.tracks (by decide) fun hcomma _ => ?_
                  have h₃ := h₂.tracks.on_advance hcomma (by decide)
                  exact (ih n' h₃).bind fun more c₄ c₄' h₄ => .done h₄

/-! ### Operands and suffixes -/

/-- What stands behind `else`: a semicolon is no `else`, and neither is
the end. -/
theorem alternative_carries (hexpr : Sound expr) (n n' : Nat)
    (hc : c.TracksOn (semi :: rest) final' c') :
    CarriesOn semi rest final' (alternative n expr c) (alternative n' expr' c') := by
  unfold alternative
  rw [nextIs_bind_run, nextIs_bind_run,
    hc.next_kind_beq hsemi .elseWord (by decide) (by decide)]
  cases helse : c.next.kind == .elseWord with
  | false => exact .done hc
  | true =>
      simp only [if_true]
      rw [advance_bind_run, advance_bind_run]
      refine .expect hc.tracks.advance (by decide) fun hbrace _ => ?_
      exact (block_carries h hexpr n n' hc.tracks.advance.advance hbrace).bind
        fun b c₂ c₂' h₂ => .done h₂

/-- A function or a macro. -/
theorem lambda_carries (hexpr : Sound expr) (n n' : Nat) (token : Token) (kind : LambdaKind)
    (hc : c.Tracks (semi :: rest) final' c') :
    CarriesOn semi rest final' (lambda n expr token kind c) (lambda n' expr' token kind c') := by
  unfold lambda
  refine .expect hc (by decide) fun hparen _ => ?_
  refine (params_carries hsemi n n' (hc.on_advance hparen (by decide))).bind fun ps c₁ c₁' h₁ => ?_
  refine .expect h₁.tracks (by decide) fun hbrace _ => ?_
  exact (block_carries h hexpr n n' h₁.tracks.advance hbrace).bind fun body c₂ c₂' h₂ => .done h₂

/-- An operand. -/
theorem operand_carries (hexpr : Sound expr) (n n' : Nat)
    (hc : c.Tracks (semi :: rest) final' c') :
    CarriesOn semi rest final' (operand n expr c) (operand n' expr' c') := by
  by_cases heof : c.current.kind = .eof
  · rw [operand_run, heof]
    exact .failed
  rw [operand_run, operand_run, hc.current heof]
  -- The current token belongs to the text, so it is the same for both readers.
  have hself := hc.on heof
  cases hkind : c.current.kind with
  | ident | string | trueWord | falseWord => exact .done hself
  | int =>
      cases Text.readInt? c.current.literal with
      | some value => exact .done hself
      | none => exact .failed
  | bang | minus => exact (h .unary _ _ hc.advance).bind fun right c₂ c₂' h₂ => .done h₂
  | leftParen =>
      refine (h .lowest _ _ hc.advance).bind fun inner c₂ c₂' h₂ => ?_
      exact .expect h₂.tracks (by decide) fun hclose _ =>
        .done (h₂.tracks.on_advance hclose (by decide))
  | ifWord =>
      refine (h .lowest _ _ hc.advance).bind fun condition c₂ c₂' h₂ => ?_
      refine .expect h₂.tracks (by decide) fun hbrace _ => ?_
      refine (block_carries h hexpr n n' h₂.tracks.advance hbrace).bind
        fun consequence c₃ c₃' h₃ => ?_
      exact (alternative_carries h hsemi hexpr n n' h₃).bind fun alternative c₄ c₄' h₄ => .done h₄
  | fnWord | macroWord => exact lambda_carries h hsemi hexpr n n' _ _ hc
  | leftBracket =>
      exact (items_carries h hsemi n n' (by decide) (by decide) hself).bind
        fun elements c₂ c₂' h₂ => .done h₂
  | leftBrace =>
      refine (pairs_carries h hsemi n n' hself).bind fun entries c₂ c₂' h₂ => ?_
      exact .expect h₂.tracks (by decide) fun hclose _ =>
        .done (h₂.tracks.on_advance hclose (by decide))
  | _ => exact .failed

/-- One suffix of an expression. -/
theorem suffix_carries (n n' : Nat) (left : Expr) (s : Suffix)
    (hc : c.TracksOn (semi :: rest) final' c') (hne : c.current.kind ≠ .eof) :
    CarriesOn semi rest final' (suffix n expr left s c) (suffix n' expr' left s c') := by
  rw [suffix_run, suffix_run, hc.tracks.current hne]
  cases s with
  | operator op => exact (h op.level _ _ hc.tracks.advance).bind fun right c₁ c₁' h₁ => .done h₁
  | arguments =>
      exact (items_carries h hsemi n n' (by decide) (by decide) hc).bind
        fun args c₁ c₁' h₁ => .done h₁
  | index =>
      refine (h .lowest _ _ hc.tracks.advance).bind fun i c₁ c₁' h₁ => ?_
      exact .expect h₁.tracks (by decide) fun hclose _ =>
        .done (h₁.tracks.on_advance hclose (by decide))

/-- Neither the end of the text nor a semicolon adds a suffix. -/
theorem suffixes_carries (n n' : Nat) (level : Level) (steps steps' : Nat) (e : Expr)
    (hc : c.TracksOn (semi :: rest) final' c') :
    CarriesOn semi rest final' (suffixes n expr level steps e c)
      (suffixes n' expr' level steps' e c') := by
  induction steps generalizing steps' e c c' with
  | zero => exact nofun
  | succ steps ih =>
      cases steps' with
      | zero => exact fun _ _ _ => .inl rfl
      | succ steps' =>
          -- At the end one reader sees a semicolon, which starts no suffix either.
          have hkind : Suffix.ofKind? c'.next.kind = Suffix.ofKind? c.next.kind := by
            rcases hc.next with hnext | ⟨hend, hnext⟩
            · rw [hnext]
            · rw [hnext, hsemi, next_kind_of_end hc.tracks.closed hend]
              rfl
          rw [suffixes_run, suffixes_run, hkind]
          cases hs : Suffix.ofKind? c.next.kind with
          | none => exact .done hc
          | some s =>
              by_cases hlt : level.rank < s.level.rank
              · simp only [if_pos hlt]
                have hne : c.next.kind ≠ .eof := Suffix.ne_eof_of_ofKind? hs
                have h₁ := hc.tracks.on_advance rfl hne
                refine (suffix_carries h hsemi n n' e s h₁ hne).bind fun e₁ c₂ c₂' h₂ => ?_
                exact ih steps' e₁ h₂
              · simp only [if_neg hlt]
                exact .done hc

end Readers

/-- A clean expression is read in the same way in front of a
semicolon. -/
theorem readExpr_carried (hsemi : semi.kind = .semicolon) (n n' : Nat) :
    Carried semi rest final' (readExpr n) (readExpr n') := by
  induction n generalizing n' with
  | zero => exact fun _ _ _ _ => nofun
  | succ n ih =>
      cases n' with
      | zero => exact fun _ _ _ _ _ _ _ => .inl rfl
      | succ n' =>
          intro level c c' hc
          show CarriesOn semi rest final' (exprWith n (readExpr n) level c)
            (exprWith n' (readExpr n') level c')
          unfold exprWith
          refine (operand_carries (ih n') hsemi (sound_readExpr n) n n' hc).bind
            fun first c₁ c₁' h₁ => ?_
          exact suffixes_carries (ih n') hsemi n n' level n n' first h₁

/-- An expression that ends on the last token of its text ends there in
front of a semicolon, too. -/
theorem readExpr_semicolon {n n' : Nat} {level : Level} {ts : List Token} {final : Token}
    {e : Expr} {c : Cursor} (hfinal : final.kind = .eof) (hfinal' : final'.kind = .eof)
    (hsemi : semi.kind = .semicolon) (hrun : readExpr n level ⟨ts, final⟩ = .done e c [])
    (hend : c.advance.ahead = []) (hn : (ts ++ semi :: rest).length < n') :
    ∃ last, readExpr n' level ⟨ts ++ semi :: rest, final'⟩
      = .done e ⟨last :: semi :: rest, final'⟩ [] := by
  have hc : Tracks (semi :: rest) final' ⟨ts, final⟩ ⟨ts ++ semi :: rest, final'⟩ :=
    ⟨hfinal, fun _ => rfl⟩
  rcases readExpr_carried hsemi n n' level _ _ hc e c hrun with hout | ⟨c', hrun', h₁⟩
  · have hends := readExpr_endsFrom n' level ⟨ts ++ semi :: rest, final'⟩ hfinal' hn
    -- There are steps enough for the longer text, so the reader does not run out.
    rw [hout] at hends
    exact hends.elim
  · rw [hrun', h₁.tracks.same h₁.ne_nil]
    have hne := h₁.ne_nil
    obtain ⟨ahead, final⟩ := c
    cases ahead with
    | nil => exact absurd rfl hne
    | cons last ahead =>
        obtain rfl : ahead = [] := hend
        exact ⟨last, rfl⟩

end Reader

end QuoteScript
