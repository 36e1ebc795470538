import QuoteScript.Proofs.Grammar.Derivation

/-!
# `QuoteScript.Proofs.Grammar.Completeness`: what is derived is read

The tokens that the grammar derives from a phrase are read as that
phrase, if what follows them cannot go on with it.

The grammar groups operators from the left, and the reader meets the
innermost left operand first. So the statement about an expression is
about all that the reader does: to read the tokens of an expression,
at some level, comes to the same as to go on with the loop over
suffixes, at that level, behind the expression. An operator, a call or
an index then takes one more turn of the loop.

* `Phrase.Read` is the statement, one clause for each kind of phrase.
* `Derives.read` proves it, by induction on the derivation.
* `Phrase.Read.expr_done` says what it means for a whole expression.
-/

set_option autoImplicit false

namespace QuoteScript

open Reader

/-! ### What may follow a phrase -/

/-- An expression of a level does not go on with a token of this
kind. -/
structure TokenKind.Follows (kind : TokenKind) (level : Level) : Prop where
  stops : kind.Stops level
  ne_else : kind ≠ .elseWord

/-- A token that closes a list of expressions. -/
structure TokenKind.Closes (kind : TokenKind) : Prop where
  starts_nothing : kind.startsExpr = false
  ofKind?_eq_none : Suffix.ofKind? kind = none
  ne_comma : kind ≠ .comma
  ne_else : kind ≠ .elseWord

namespace TokenKind

/-- What starts no suffix follows an expression of any level, unless it
is `else`. -/
theorem follows_of_ofKind?_eq_none {kind : TokenKind} (level : Level)
    (h : Suffix.ofKind? kind = none) (helse : kind ≠ .elseWord) : kind.Follows level := by
  refine ⟨fun s hs => ?_, helse⟩
  rw [h] at hs
  cases hs

/-- The same when the kind is known. -/
theorem follows_of_eq {kind kind' : TokenKind} (h : kind = kind') (level : Level)
    (hnone : Suffix.ofKind? kind' = none) (helse : kind' ≠ .elseWord) : kind.Follows level := by
  subst h
  exact follows_of_ofKind?_eq_none level hnone helse

/-- What closes a list goes on with no expression, at any level. -/
theorem Closes.follows {kind : TokenKind} (h : kind.Closes) (level : Level) :
    kind.Follows level :=
  follows_of_ofKind?_eq_none level h.ofKind?_eq_none h.ne_else

/-- A closing parenthesis closes a list. -/
theorem closes_rightParen : Closes .rightParen := by constructor <;> decide

/-- So does a closing bracket. -/
theorem closes_rightBracket : Closes .rightBracket := by constructor <;> decide

/-- What follows an expression of a level follows one of a tighter
level. -/
theorem Follows.mono {kind : TokenKind} {level level' : Level} (h : kind.Follows level)
    (hrank : level.rank ≤ level'.rank) : kind.Follows level' :=
  ⟨fun s hs => Nat.le_trans (h.stops s hs) hrank, h.ne_else⟩

/-- A suffix follows an expression of its level. -/
theorem follows_of_ofKind? {kind : TokenKind} {s : Suffix} (h : Suffix.ofKind? kind = some s) :
    kind.Follows s.level := by
  refine ⟨fun s' hs' => ?_, fun helse => ?_⟩
  · rw [h] at hs'
    cases hs'
    exact Nat.le_refl _
  · rw [helse] at h
    cases h

/-- What ends a list of statements follows any expression, and is no
semicolon. -/
theorem follows_of_endsStatements {inBlock : Bool} {kind : TokenKind} (level : Level)
    (h : endsStatements inBlock kind = true) : kind.Follows level ∧ kind ≠ .semicolon := by
  have hkind : kind = .eof ∨ kind = .rightBrace := by
    simp only [endsStatements, Bool.or_eq_true, Bool.and_eq_true, beq_iff_eq] at h
    exact h.imp_right And.right
  rcases hkind with rfl | rfl
  · exact ⟨follows_of_ofKind?_eq_none level rfl (by decide), by decide⟩
  · exact ⟨follows_of_ofKind?_eq_none level rfl (by decide), by decide⟩

end TokenKind

/-- A reading level that admits a level binds less tightly than its
operators do. -/
theorem Level.rank_lt_of_reads {at' level : Level} (h : at'.reads.rank ≤ level.rank)
    (hsuffix : at' ≠ .suffix) (hunary : level ≠ .unary) : at'.rank < level.rank := by
  cases at' <;> first | exact absurd rfl hsuffix | skip
  -- Both levels are closed: the ranks are compared one pair at a time.
  all_goals cases level <;> first | exact absurd rfl hunary | skip
  all_goals first | decide | exact absurd h (by decide)

/-- A reading level admits only levels that bind at least as tightly as
itself. -/
theorem Level.rank_le_reads {at' : Level} (hsuffix : at' ≠ .suffix) :
    at'.rank ≤ at'.reads.rank := by
  cases at' <;> first | exact absurd rfl hsuffix | decide

/-! ### First tokens -/

namespace Derives

variable {ended : Bool}

/-- No expression is written with no tokens. -/
theorem ne_nil {level : Level} {e : Expr} {ts : List Token}
    (h : Derives ended (.expr level e) ts) : ts ≠ [] := by
  obtain ⟨t, us, rfl, -⟩ := h.startsExpr
  exact List.cons_ne_nil t us

/-- An expression does not start like the end of a dict. -/
theorem head_ne_rightBrace {level : Level} {e : Expr} {ts : List Token}
    (h : Derives ended (.expr level e) ts) (rest : List Token) (final : Token) :
    ((ts ++ rest).headD final).kind ≠ .rightBrace := by
  obtain ⟨t, us, rfl, hstarts⟩ := h.startsExpr
  show t.kind ≠ .rightBrace
  intro hbrace
  rw [hbrace] at hstarts
  cases hstarts

/-- A block is written from its opening brace on. -/
theorem startsBlock {b : Block} {ts : List Token} (h : Derives ended (.block b) ts) :
    ∃ t us, ts = t :: us ∧ t.kind = .leftBrace := by
  cases h with
  -- The only rule for a block starts with the brace.
  | block hlb _ _ => exact ⟨_, _, rfl, hlb⟩

/-- No statement starts with a token that ends a list of statements. -/
theorem startsStmt {s : Stmt} {ts : List Token} (h : Derives ended (.stmt s) ts)
    (inBlock : Bool) : ∃ t us, ts = t :: us ∧ endsStatements inBlock t.kind = false := by
  cases h with
  | letIn ht _ _ _ => exact ⟨_, _, rfl, by rw [ht]; cases inBlock <;> rfl⟩
  | ret ht _ => exact ⟨_, _, rfl, by rw [ht]; cases inBlock <;> rfl⟩
  | @expr t _ _ he =>
      obtain ⟨t', us, heq, hstarts⟩ := he.startsExpr
      cases heq
      refine ⟨t, _, rfl, ?_⟩
      revert hstarts
      cases t.kind <;> cases inBlock <;> decide

/-- Behind an expression of a list comes a comma, or what closes the
list. -/
theorem follows_of_moreItems {es : List Expr} {us : List Token}
    (h : Derives ended (.moreItems es) us) (level : Level) {close : Token}
    (hclose : close.kind.Closes) (rest : List Token) (final : Token) :
    ((us ++ close :: rest).headD final).kind.Follows level := by
  cases h with
  | noMoreItems => exact hclose.follows level
  | @moreItems comma _ _ ts us hcomma _ _ =>
      show comma.kind.Follows level
      exact TokenKind.follows_of_eq hcomma level rfl (by decide)

end Derives

/-! ### The statement -/

/-- The tokens `ts` are read as a phrase, whatever follows them that
does not go on with it. A token in front of the first one, or on which
the reader ends, is quantified over: it does not count. -/
def Phrase.Read (final : Token) : Phrase → List Token → Prop
  -- The suffixes are left to read: a looser reader may go on behind the expression.
  | .expr level e, ts =>
    ∀ (n : Nat) (at' : Level) (rest : List Token), at'.reads.rank ≤ level.rank →
      at' ≠ .suffix → (ts ++ rest).length ≤ n → (rest.headD final).kind.Follows level →
      ∃ last k, rest.length < k ∧
        readExpr (n + 1) at' ⟨ts ++ rest, final⟩
          = suffixes n (readExpr n) at' k e ⟨last :: rest, final⟩
  -- The steps left must outlast the tokens, for the loop as for the expressions in it.
  | .items es, ts =>
    ∀ (n : Nat) (first close : Token) (rest : List Token), close.kind.Closes →
      (ts ++ close :: rest).length < n →
      Reader.items n (readExpr n) close.kind ⟨first :: (ts ++ close :: rest), final⟩
        = Reply.done es ⟨close :: rest, final⟩ []
  | .moreItems es, ts =>
    ∀ (n k : Nat) (first close : Token) (rest : List Token), close.kind.Closes →
      (ts ++ close :: rest).length < n → (ts ++ close :: rest).length < k →
      ∃ last, Reader.moreItems (readExpr n) k ⟨first :: (ts ++ close :: rest), final⟩
        = Reply.done es ⟨last :: close :: rest, final⟩ []
  | .pairs entries, ts =>
    ∀ (n k : Nat) (first close : Token) (rest : List Token), close.kind = .rightBrace →
      (ts ++ close :: rest).length < n → (ts ++ close :: rest).length < k →
      ∃ last, Reader.pairs (readExpr n) k ⟨first :: (ts ++ close :: rest), final⟩
        = Reply.done entries ⟨last :: close :: rest, final⟩ []
  | .params names, ts =>
    ∀ (n : Nat) (first close : Token) (rest : List Token), close.kind = .rightParen →
      (ts ++ close :: rest).length < n →
      Reader.params n ⟨first :: (ts ++ close :: rest), final⟩
        = Reply.done names ⟨close :: rest, final⟩ []
  | .moreParams names, ts =>
    ∀ (k : Nat) (first close : Token) (rest : List Token), close.kind = .rightParen →
      (ts ++ close :: rest).length < k →
      ∃ last, Reader.moreParams k ⟨first :: (ts ++ close :: rest), final⟩
        = Reply.done names ⟨last :: close :: rest, final⟩ []
  | .branch alternative, ts =>
    ∀ (n : Nat) (first : Token) (rest : List Token), (rest.headD final).kind ≠ .elseWord →
      (ts ++ rest).length < n →
      ∃ last, Reader.alternative n (readExpr n) ⟨first :: (ts ++ rest), final⟩
        = Reply.done alternative ⟨last :: rest, final⟩ []
  | .block b, ts =>
    ∀ (n : Nat) (rest : List Token), (ts ++ rest).length ≤ n →
      ∃ last, Reader.block n (readExpr n) ⟨ts ++ rest, final⟩
        = Reply.done b ⟨last :: rest, final⟩ []
  -- The semicolon belongs to the list of statements, not to the statement.
  | .stmt s, ts =>
    ∀ (n : Nat) (rest : List Token), (ts ++ rest).length < n →
      (rest.headD final).kind.Follows .lowest →
      ∃ last, statement (readExpr n) ⟨ts ++ rest, final⟩
        = (skipSemicolon >>= fun _ => pure s) ⟨last :: rest, final⟩
  | .stmts body, ts =>
    ∀ (n k : Nat) (inBlock : Bool) (rest : List Token),
      endsStatements inBlock (rest.headD final).kind = true →
      (ts ++ rest).length < n → (ts ++ rest).length < k →
      statements inBlock (statement (readExpr n)) k ⟨ts ++ rest, final⟩
        = Reply.done body ⟨rest, final⟩ []

namespace Phrase.Read

variable {final : Token}

/-- The loop over suffixes stops in front of what does not go on with
the expression. -/
theorem suffixes_stop {n k : Nat} {expr : Level → Reader Expr} {level : Level} {e : Expr}
    {c : Cursor} (h : c.next.kind.Stops level) (hk : 0 < k) :
    suffixes n expr level k e c = .done e c [] := by
  obtain ⟨k, rfl⟩ := Nat.exists_eq_succ_of_ne_zero (Nat.pos_iff_ne_zero.mp hk)
  rw [suffixes_run]
  split
  · rfl
  · next s hs => exact if_neg (Nat.not_lt_of_le (h s hs))

/-- A whole expression: the reader stops behind it. -/
theorem expr_done {level : Level} {e : Expr} {ts : List Token}
    (h : Phrase.Read final (.expr level e) ts) {n : Nat} (at' : Level) {rest : List Token}
    (hat : at'.reads.rank ≤ level.rank) (hsuffix : at' ≠ .suffix)
    (hn : (ts ++ rest).length < n) (hrest : (rest.headD final).kind.Follows at') :
    ∃ last, readExpr n at' ⟨ts ++ rest, final⟩ = .done e ⟨last :: rest, final⟩ [] := by
  obtain ⟨n, rfl⟩ := Nat.exists_eq_succ_of_ne_zero (Nat.ne_zero_of_lt hn)
  have hlevel := hrest.mono (Nat.le_trans (Level.rank_le_reads hsuffix) hat)
  obtain ⟨last, k, hk, hrun⟩ := h n at' rest hat hsuffix (Nat.le_of_lt_succ hn) hlevel
  exact ⟨last, hrun.trans (suffixes_stop hrest.stops (Nat.zero_lt_of_lt hk))⟩

/-- The same at the loosest level, where most expressions are read. -/
theorem expr_done_lowest {e : Expr} {ts : List Token}
    (h : Phrase.Read final (.expr .equality e) ts) {n : Nat} (rest : List Token)
    (hn : (ts ++ rest).length < n) (hrest : (rest.headD final).kind.Follows .lowest) :
    ∃ last, readExpr n .lowest ⟨ts ++ rest, final⟩ = .done e ⟨last :: rest, final⟩ [] :=
  h.expr_done .lowest (by decide) (by decide) hn hrest

/-- What is read at a tighter level is read at the looser one: fewer
tokens may follow it there. -/
theorem tighter {level : Level} {e : Expr} {ts : List Token}
    (h : Phrase.Read final (.expr level.tighter e) ts) : Phrase.Read final (.expr level e) ts := by
  intro n at' rest hat hsuffix hn hrest
  have hrank := Level.rank_le_tighter level
  exact h n at' rest (Nat.le_trans hat hrank) hsuffix hn (hrest.mono hrank)

/-- An expression that is an operand as a whole. -/
theorem operand {level : Level} {e : Expr} {ts : List Token} (hne : ts ≠ [])
    (h : ∀ (n : Nat) (rest : List Token), (ts ++ rest).length ≤ n →
      (rest.headD final).kind.Follows level →
      ∃ last, Reader.operand n (readExpr n) ⟨ts ++ rest, final⟩
        = .done e ⟨last :: rest, final⟩ []) :
    Phrase.Read final (.expr level e) ts := by
  intro n at' rest _ _ hn hrest
  obtain ⟨last, hrun⟩ := h n rest hn hrest
  refine ⟨last, n, ?_, bind_of_done hrun⟩
  have hpos := List.length_pos_iff.mpr hne
  rw [List.length_append] at hn
  omega

/-- An expression and a suffix: one more turn of the loop. -/
theorem suffix {s : Suffix} {left e : Expr} {t : Token} {ls us : List Token}
    (hleft : Phrase.Read final (.expr s.level left) ls)
    (hs : Suffix.ofKind? t.kind = some s)
    (h : ∀ (n : Nat) (rest : List Token), (t :: us ++ rest).length < n →
      (rest.headD final).kind.Follows s.level →
      ∃ last, Reader.suffix n (readExpr n) left s ⟨t :: us ++ rest, final⟩
        = .done e ⟨last :: rest, final⟩ [])
    (hls : ls ≠ []) :
    Phrase.Read final (.expr s.level e) (ls ++ t :: us) := by
  intro n at' rest hat hsuffix hn hrest
  have hunary : s.level ≠ .unary := by
    cases s with
    | operator op => cases op <;> decide
    | _ => decide
  have hlt := Level.rank_lt_of_reads hat hsuffix hunary
  rw [List.append_assoc] at hn ⊢
  -- The left operand leaves the loop in front of the suffix, with turns to spare.
  obtain ⟨last, k, hk, hrun⟩ := hleft n at' (t :: us ++ rest) hat hsuffix hn
    (TokenKind.follows_of_ofKind? hs)
  have hlen : (t :: us ++ rest).length < n := by
    have hpos := List.length_pos_iff.mpr hls
    rw [List.length_append] at hn
    omega
  obtain ⟨last', hrun'⟩ := h n rest hlen hrest
  obtain ⟨k, rfl⟩ := Nat.exists_eq_succ_of_ne_zero (Nat.ne_zero_of_lt hk)
  refine ⟨last', k, ?_, ?_⟩
  · rw [List.cons_append, List.length_cons, List.length_append] at hk
    omega
  · rw [hrun, suffixes_run]
    have hnext : (⟨last :: (t :: us ++ rest), final⟩ : Cursor).next = t := rfl
    rw [hnext, hs]
    dsimp only
    rw [if_pos hlt]
    exact bind_of_done hrun'

/-! Lists. -/

/-- The reader of a list stops on the closing token at once. -/
theorem noItems : Phrase.Read final (.items []) [] := by
  intro n first close rest _ _
  rw [Reader.items, nextIs_bind_of_eq, if_pos rfl]
  · rfl
  · rfl

/-- Where no comma follows, the list has no more expressions. -/
theorem noMoreItems : Phrase.Read final (.moreItems []) [] := by
  intro n k first close rest hclose _ hk
  obtain ⟨k, rfl⟩ := Nat.exists_eq_succ_of_ne_zero (Nat.ne_zero_of_lt hk)
  refine ⟨first, ?_⟩
  rw [Reader.moreItems, nextIs_bind_of_ne, if_neg Bool.false_ne_true]
  · rfl
  · exact hclose.ne_comma

/-- The reader of parameters stops on the closing parenthesis at once. -/
theorem noParams : Phrase.Read final (.params []) [] := by
  intro n first close rest hclose _
  rw [Reader.params, nextIs_bind_of_eq, if_pos rfl]
  · rfl
  · exact hclose

/-- Where no comma follows, there are no more parameters. -/
theorem noMoreParams : Phrase.Read final (.moreParams []) [] := by
  intro k first close rest hclose hk
  obtain ⟨k, rfl⟩ := Nat.exists_eq_succ_of_ne_zero (Nat.ne_zero_of_lt hk)
  have hne : close.kind ≠ .comma := hclose ▸ by decide
  refine ⟨first, ?_⟩
  rw [Reader.moreParams, nextIs_bind_of_ne, if_neg Bool.false_ne_true]
  · rfl
  · exact hne

/-- The first expression of a list is read, then those behind it, then
the closing token. -/
theorem items {e : Expr} {es : List Expr} {ts us : List Token}
    (he : Derives true (.expr .equality e) ts) (hes : Derives true (.moreItems es) us)
    (ihe : Phrase.Read final (.expr .equality e) ts) (ihes : Phrase.Read final (.moreItems es) us) :
    Phrase.Read final (.items (e :: es)) (ts ++ us) := by
  intro n first close rest hclose hn
  have hfollows := hes.follows_of_moreItems .lowest hclose rest final
  -- An expression does not start like the end of the list, so the list is not empty.
  obtain ⟨t, ts, rfl, hstarts⟩ := he.startsExpr
  have hne : t.kind ≠ close.kind := by
    intro h
    rw [h, hclose.starts_nothing] at hstarts
    cases hstarts
  rw [List.append_assoc] at hn ⊢
  have hlen : (us ++ close :: rest).length < n := by
    rw [List.length_append] at hn
    omega
  obtain ⟨last, hrun⟩ := ihe.expr_done_lowest _ hn hfollows
  obtain ⟨last', hrun'⟩ := ihes n n last close rest hclose hlen hlen
  rw [Reader.items, nextIs_bind_of_ne, if_neg Bool.false_ne_true, advance_bind_run,
    Cursor.advance_cons, bind_of_done hrun, bind_of_done hrun', expect_bind_of_eq]
  · rfl
  · rfl
  · exact hne

/-- A turn of the loop takes the comma and the expression behind it. -/
theorem moreItems {comma : Token} {e : Expr} {es : List Expr} {ts us : List Token}
    (hcomma : comma.kind = .comma) (hes : Derives true (.moreItems es) us)
    (ihe : Phrase.Read final (.expr .equality e) ts) (ihes : Phrase.Read final (.moreItems es) us) :
    Phrase.Read final (.moreItems (e :: es)) (comma :: ts ++ us) := by
  intro n k first close rest hclose hn hk
  have hfollows := hes.follows_of_moreItems .lowest hclose rest final
  obtain ⟨k, rfl⟩ := Nat.exists_eq_succ_of_ne_zero (Nat.ne_zero_of_lt hk)
  simp only [List.cons_append, List.append_assoc, List.length_cons, List.length_append] at hn hk ⊢
  -- The expression stops where the next comma or the closing token stands.
  obtain ⟨last, hrun⟩ := ihe.expr_done_lowest (n := n) _ (by simp; omega) hfollows
  obtain ⟨last', hrun'⟩ := ihes n k last close rest hclose (by simp; omega) (by simp; omega)
  refine ⟨last', ?_⟩
  rw [Reader.moreItems, nextIs_bind_of_eq, if_pos rfl, advance_bind_run, advance_bind_run,
    Cursor.advance_cons, Cursor.advance_cons, bind_of_done hrun, bind_of_done hrun']
  · rfl
  · exact hcomma

/-- A pair of a dict is read, and the reader goes on behind it. -/
theorem pair_run {colon : Token} {key value : Expr} {ks vs : List Token}
    (hcolon : colon.kind = .colon) (hkey : Derives true (.expr .equality key) ks)
    (ihkey : Phrase.Read final (.expr .equality key) ks)
    (ihvalue : Phrase.Read final (.expr .equality value) vs) {n : Nat} (k : Nat) (first : Token)
    {rest : List Token} (hn : (ks ++ colon :: (vs ++ rest)).length < n)
    (hrest : (rest.headD final).kind.Follows .lowest) :
    ∃ last, Reader.pairs (readExpr n) (k + 1) ⟨first :: (ks ++ colon :: (vs ++ rest)), final⟩
      = (nextIs .rightBrace >>= fun closes =>
          if closes then do
            let entries ← Reader.pairs (readExpr n) k
            return (key, value) :: entries
          else do
            expect .comma
            let entries ← Reader.pairs (readExpr n) k
            return (key, value) :: entries) ⟨last :: rest, final⟩ := by
  -- A key never looks like the end of the dict.
  have hne := hkey.head_ne_rightBrace (colon :: (vs ++ rest)) final
  obtain ⟨last, hrun⟩ := ihkey.expr_done_lowest _ hn
    (TokenKind.follows_of_eq hcolon .lowest rfl (by decide))
  obtain ⟨last', hrun'⟩ := ihvalue.expr_done_lowest (n := n) rest
    (by simp at hn ⊢; omega) hrest
  refine ⟨last', ?_⟩
  rw [Reader.pairs, nextIs_bind_of_ne, if_neg Bool.false_ne_true, advance_bind_run,
    Cursor.advance_cons, bind_of_done hrun, expect_bind_of_eq, advance_bind_run,
    Cursor.advance_cons, Cursor.advance_cons, bind_of_done hrun']
  · exact hcolon
  · exact hne

/-- The closing brace ends the pairs of a dict. -/
theorem noPairs : Phrase.Read final (.pairs []) [] := by
  intro n k first close rest hclose _ hk
  obtain ⟨k, rfl⟩ := Nat.exists_eq_succ_of_ne_zero (Nat.ne_zero_of_lt hk)
  refine ⟨first, ?_⟩
  rw [Reader.pairs, nextIs_bind_of_eq, if_pos rfl]
  · rfl
  · exact hclose

/-- The last pair needs no comma behind it. -/
theorem lastPair {colon : Token} {key value : Expr} {ks vs : List Token}
    (hcolon : colon.kind = .colon) (hkey : Derives true (.expr .equality key) ks)
    (ihkey : Phrase.Read final (.expr .equality key) ks)
    (ihvalue : Phrase.Read final (.expr .equality value) vs) :
    Phrase.Read final (.pairs [(key, value)]) (ks ++ colon :: vs) := by
  intro n k first close rest hclose hn hk
  obtain ⟨k, rfl⟩ := Nat.exists_eq_succ_of_ne_zero (Nat.ne_zero_of_lt hk)
  simp only [List.append_assoc, List.cons_append] at hn hk ⊢
  obtain ⟨last, hrun⟩ := pair_run hcolon hkey ihkey ihvalue k first hn
    (TokenKind.follows_of_eq hclose .lowest rfl (by decide))
  have hlen : ([] ++ close :: rest).length < n ∧ ([] ++ close :: rest).length < k := by
    simp at hn hk ⊢
    omega
  -- The loop takes one more turn, which finds the closing brace.
  obtain ⟨last', hrun'⟩ := noPairs n k last close rest hclose hlen.1 hlen.2
  refine ⟨last', ?_⟩
  rw [List.nil_append] at hrun'
  rw [hrun, nextIs_bind_of_eq, if_pos rfl, bind_of_done hrun']
  · rfl
  · exact hclose

/-- A pair, the comma behind it and the pairs that follow. -/
theorem pairs {colon comma : Token} {key value : Expr} {entries : List (Expr × Expr)}
    {ks vs us : List Token} (hcolon : colon.kind = .colon) (hcomma : comma.kind = .comma)
    (hkey : Derives true (.expr .equality key) ks)
    (ihkey : Phrase.Read final (.expr .equality key) ks)
    (ihvalue : Phrase.Read final (.expr .equality value) vs)
    (ih : Phrase.Read final (.pairs entries) us) :
    Phrase.Read final (.pairs ((key, value) :: entries)) (ks ++ colon :: vs ++ comma :: us) := by
  intro n k first close rest hclose hn hk
  obtain ⟨k, rfl⟩ := Nat.exists_eq_succ_of_ne_zero (Nat.ne_zero_of_lt hk)
  simp only [List.append_assoc, List.cons_append] at hn hk ⊢
  obtain ⟨last, hrun⟩ := pair_run hcolon hkey ihkey ihvalue k first hn
    (TokenKind.follows_of_eq hcomma .lowest rfl (by decide))
  have hlen : (us ++ close :: rest).length < n ∧ (us ++ close :: rest).length < k := by
    simp at hn hk ⊢
    omega
  obtain ⟨last', hrun'⟩ := ih n k comma close rest hclose hlen.1 hlen.2
  have hne : comma.kind ≠ .rightBrace := hcomma ▸ by decide
  refine ⟨last', ?_⟩
  rw [hrun, nextIs_bind_of_ne, if_neg Bool.false_ne_true, expect_bind_of_eq, Cursor.advance_cons,
    bind_of_done hrun']
  · rfl
  · exact hcomma
  · exact hne

/-- The first parameter is a name, and the others are behind it. -/
theorem params {t : Token} {names : List String} {ts : List Token} (ht : t.kind = .ident)
    (ih : Phrase.Read final (.moreParams names) ts) :
    Phrase.Read final (.params (t.literal :: names)) (t :: ts) := by
  intro n first close rest hclose hn
  -- A name is not the end of the parameters.
  have hne : t.kind ≠ .rightParen := ht ▸ by decide
  have hlen : (ts ++ close :: rest).length < n := by
    simp at hn ⊢
    omega
  obtain ⟨last, hrun⟩ := ih n t close rest hclose hlen
  rw [List.cons_append, Reader.params, nextIs_bind_of_ne, if_neg Bool.false_ne_true,
    expect_bind_of_eq, current_bind_run, Cursor.advance_cons, bind_of_done hrun, expect_bind_of_eq]
  · rfl
  · exact hclose
  · exact ht
  · exact hne

/-- A turn of the loop takes the comma and the name behind it. -/
theorem moreParams {comma t : Token} {names : List String} {ts : List Token}
    (hcomma : comma.kind = .comma) (ht : t.kind = .ident)
    (ih : Phrase.Read final (.moreParams names) ts) :
    Phrase.Read final (.moreParams (t.literal :: names)) (comma :: t :: ts) := by
  intro k first close rest hclose hk
  obtain ⟨k, rfl⟩ := Nat.exists_eq_succ_of_ne_zero (Nat.ne_zero_of_lt hk)
  have hlen : (ts ++ close :: rest).length < k := by
    simp at hk ⊢
    omega
  -- The two tokens taken leave enough steps for the names behind them.
  obtain ⟨last, hrun⟩ := ih k t close rest hclose hlen
  refine ⟨last, ?_⟩
  rw [List.cons_append, List.cons_append, Reader.moreParams, nextIs_bind_of_eq, if_pos rfl,
    advance_bind_run, expect_bind_of_eq, current_bind_run, Cursor.advance_cons,
    Cursor.advance_cons, bind_of_done hrun]
  · rfl
  · exact ht
  · exact hcomma

/-! Blocks and statements. -/

/-- Where no `else` follows, there is no alternative. -/
theorem noBranch : Phrase.Read final (.branch none) [] := by
  intro n first rest hne _
  refine ⟨first, ?_⟩
  rw [Reader.alternative, nextIs_bind_of_ne, if_neg Bool.false_ne_true]
  · rfl
  · exact hne

/-- Behind `else` the alternative is read as a block. -/
theorem branch {t : Token} {b : Block} {bs : List Token} (ht : t.kind = .elseWord)
    (hb : Derives true (.block b) bs) (ih : Phrase.Read final (.block b) bs) :
    Phrase.Read final (.branch (some b)) (t :: bs) := by
  intro n first rest _ hn
  have hlen : (bs ++ rest).length ≤ n := by
    simp at hn ⊢
    omega
  obtain ⟨last, hrun⟩ := ih n rest hlen
  -- The reader of the block expects its brace to be the next token.
  obtain ⟨lb, us, rfl, hlb⟩ := hb.startsBlock
  refine ⟨last, ?_⟩
  rw [List.cons_append, Reader.alternative, nextIs_bind_of_eq, if_pos rfl, advance_bind_run,
    expect_bind_of_eq, Cursor.advance_cons, Cursor.advance_cons, bind_of_done hrun]
  · rfl
  · exact hlb
  · exact ht

/-- A block is read from brace to brace, and the reader ends on the
closing one. -/
theorem block {lb rb : Token} {body : List Stmt} {ts : List Token} (hrb : rb.kind = .rightBrace)
    (ih : Phrase.Read final (.stmts body) ts) :
    Phrase.Read final (.block (.mk lb body)) (lb :: ts ++ [rb]) := by
  intro n rest hn
  have hlen : (ts ++ rb :: rest).length < n := by
    simp at hn ⊢
    omega
  -- The list ends in front of the brace, and the block ends on it.
  have hend : endsStatements true rb.kind = true := by rw [hrb]; rfl
  have hrun := ih n n true (rb :: rest) hend hlen hlen
  have hne : rb.kind ≠ .eof := hrb ▸ by decide
  refine ⟨rb, ?_⟩
  rw [List.append_assoc, List.cons_append, List.singleton_append, Reader.block, current_bind_run,
    advance_bind_run, Cursor.advance_cons, bind_of_done hrun, current_bind_run, Cursor.current_cons,
    if_neg hne]
  rfl

/-- The value of a statement, with what is made of it. -/
theorem value {e : Expr} {ts : List Token} (make : Expr → Stmt)
    (ih : Phrase.Read final (.expr .equality e) ts) {n : Nat} {rest : List Token}
    (hn : (ts ++ rest).length < n) (hrest : (rest.headD final).kind.Follows .lowest) :
    ∃ last, (readExpr n .lowest >>= fun e => skipSemicolon >>= fun _ => pure (make e))
        ⟨ts ++ rest, final⟩
      = (skipSemicolon >>= fun _ => pure (make e)) ⟨last :: rest, final⟩ := by
  obtain ⟨last, hrun⟩ := ih.expr_done_lowest rest hn hrest
  exact ⟨last, bind_of_done hrun⟩

/-- A binding is read as its name and its value. -/
theorem letIn {t name assign : Token} {e : Expr} {ts : List Token} (ht : t.kind = .letWord)
    (hname : name.kind = .ident) (hassign : assign.kind = .assign)
    (ih : Phrase.Read final (.expr .equality e) ts) :
    Phrase.Read final (.stmt (.letIn t name.literal e)) (t :: name :: assign :: ts) := by
  intro n rest hn hrest
  have hlen : (ts ++ rest).length < n := by
    simp at hn ⊢
    omega
  obtain ⟨last, hrun⟩ := ih.value (.letIn t name.literal) hlen hrest
  refine ⟨last, ?_⟩
  rw [List.cons_append, List.cons_append, List.cons_append, statement_run, Cursor.current_cons, ht]
  dsimp only
  rw [letStatement_run, if_pos, if_pos]
  -- The three tokens in front of the value are the ones expected.
  · exact hrun
  · exact hassign
  · exact hname

/-- A return is read as its value. -/
theorem ret {t : Token} {e : Expr} {ts : List Token} (ht : t.kind = .returnWord)
    (ih : Phrase.Read final (.expr .equality e) ts) :
    Phrase.Read final (.stmt (.ret t e)) (t :: ts) := by
  intro n rest hn hrest
  have hlen : (ts ++ rest).length < n := by
    simp at hn ⊢
    omega
  obtain ⟨last, hrun⟩ := ih.value (.ret t) hlen hrest
  refine ⟨last, ?_⟩
  rw [List.cons_append, statement_run, Cursor.current_cons, ht]
  exact hrun

/-- What is neither a binding nor a return is read as an expression. -/
theorem exprStmt {t : Token} {e : Expr} {ts : List Token}
    (he : Derives true (.expr .equality e) (t :: ts))
    (ih : Phrase.Read final (.expr .equality e) (t :: ts)) :
    Phrase.Read final (.stmt (.expr t e)) (t :: ts) := by
  intro n rest hn hrest
  obtain ⟨last, hrun⟩ := ih.value (.expr t) hn hrest
  obtain ⟨t', us, heq, hstarts⟩ := he.startsExpr
  cases heq
  refine ⟨last, ?_⟩
  rw [List.cons_append, statement_run, Cursor.current_cons]
  rw [List.cons_append] at hrun
  -- Neither `let` nor `return` starts an expression.
  cases hkind : t.kind <;> rw [hkind] at hstarts <;> first | exact hrun | cases hstarts

/-- A statement is read, and the reader goes on behind it and behind
its semicolon. -/
theorem statements_run {s : Stmt} {ts : List Token} (hs : Derives true (.stmt s) ts)
    (ih : Phrase.Read final (.stmt s) ts) {n k : Nat} {inBlock : Bool} {rest : List Token}
    (hn : (ts ++ rest).length < n) (hrest : (rest.headD final).kind.Follows .lowest) :
    statements inBlock (statement (readExpr n)) (k + 1) ⟨ts ++ rest, final⟩
      = (statements inBlock (statement (readExpr n)) k >>= fun body => pure (s :: body))
        ⟨if (rest.headD final).kind = .semicolon then rest.tail else rest, final⟩ := by
  obtain ⟨last, hrun⟩ := ih n rest hn hrest
  obtain ⟨t, us, rfl, hends⟩ := hs.startsStmt inBlock
  rw [skipSemicolon_bind_run, pure_run] at hrun
  rw [List.cons_append, statements, current_bind_run, Cursor.current_cons, hends,
    if_neg Bool.false_ne_true, ← List.cons_append, bind_of_done (attempt_of_done hrun)]
  dsimp only
  rw [advance_bind_run]
  -- The statement ends on its semicolon, or on its last token, and the loop moves on.
  by_cases hsemi : (rest.headD final).kind = .semicolon
  · rw [if_pos hsemi, if_pos]
    · rfl
    · exact hsemi
  · rw [if_neg hsemi, if_neg]
    · rfl
    · exact hsemi

/-- Where a list of statements ends, no statement is read. -/
theorem noStmts : Phrase.Read final (.stmts []) [] := by
  intro n k inBlock rest hend _ hk
  obtain ⟨k, rfl⟩ := Nat.exists_eq_succ_of_ne_zero (Nat.ne_zero_of_lt hk)
  rw [List.nil_append, statements, current_bind_run, if_pos]
  · rfl
  · exact hend

/-- A statement takes the semicolon behind it, and the loop goes on with
the next one. -/
theorem semicolon {semi : Token} {s : Stmt} {body : List Stmt} {ts us : List Token}
    (hsemi : semi.kind = .semicolon) (hs : Derives true (.stmt s) ts)
    (ih : Phrase.Read final (.stmt s) ts) (ihbody : Phrase.Read final (.stmts body) us) :
    Phrase.Read final (.stmts (s :: body)) (ts ++ semi :: us) := by
  intro n k inBlock rest hend hn hk
  obtain ⟨k, rfl⟩ := Nat.exists_eq_succ_of_ne_zero (Nat.ne_zero_of_lt hk)
  rw [List.append_assoc, List.cons_append] at hn hk ⊢
  have hlen : (us ++ rest).length < n ∧ (us ++ rest).length < k := by
    simp at hn hk ⊢
    omega
  -- Behind the semicolon the loop is where the other statements start.
  rw [statements_run hs ih hn, List.headD_cons, if_pos hsemi, List.tail_cons,
    bind_of_done (ihbody n k inBlock rest hend hlen.1 hlen.2)]
  · rfl
  · exact TokenKind.follows_of_eq hsemi .lowest rfl (by decide)

/-- The last statement may end without a semicolon. -/
theorem lastStmt {s : Stmt} {ts : List Token} (hs : Derives true (.stmt s) ts)
    (ih : Phrase.Read final (.stmt s) ts) : Phrase.Read final (.stmts [s]) ts := by
  intro n k inBlock rest hend hn hk
  obtain ⟨k, rfl⟩ := Nat.exists_eq_succ_of_ne_zero (Nat.ne_zero_of_lt hk)
  obtain ⟨hfollows, hne⟩ := TokenKind.follows_of_endsStatements .lowest hend
  have hlen : ([] ++ rest).length < n ∧ ([] ++ rest).length < k := by
    obtain ⟨t, us, rfl, -⟩ := hs.startsStmt inBlock
    simp at hn hk ⊢
    omega
  rw [statements_run hs ih hn hfollows, if_neg hne, ← List.nil_append rest,
    bind_of_done (noStmts n k inBlock rest hend hlen.1 hlen.2)]
  rfl

/-! Operands. -/

/-- An operand of one token. -/
theorem atom {level : Level} {e : Expr} {t : Token}
    (h : ∀ (n : Nat) (expr : Level → Reader Expr) (c : Cursor), c.current = t →
      Reader.operand n expr c = .done e c []) : Phrase.Read final (.expr level e) [t] :=
  operand (List.cons_ne_nil _ _) fun n rest _ _ => ⟨t, h n _ ⟨t :: rest, final⟩ rfl⟩

/-- A prefix operator is an operand, and reads its own operand at the
unary level. -/
theorem unary {op : UnaryOp} {t : Token} {e : Expr} {ts : List Token} (ht : t.kind = op.tokenKind)
    (ih : Phrase.Read final (.expr .unary e) ts) :
    Phrase.Read final (.expr .unary (.unary t op e)) (t :: ts) := by
  refine operand (List.cons_ne_nil _ _) fun n rest hn hrest => ?_
  obtain ⟨last, hrun⟩ := ih.expr_done Level.unary (Nat.le_refl _) (by decide)
    (Nat.lt_of_lt_of_le (Nat.lt_succ_self _) hn) hrest
  refine ⟨last, ?_⟩
  rw [List.cons_append, operand_run, Cursor.current_cons, ht]
  cases op with
  | negate => exact bind_of_done hrun
  | not => exact bind_of_done hrun

/-- Parentheses are an operand and leave no node of their own. -/
theorem group {level : Level} {lp rp : Token} {e : Expr} {ts : List Token}
    (hlp : lp.kind = .leftParen) (hrp : rp.kind = .rightParen)
    (ih : Phrase.Read final (.expr .equality e) ts) :
    Phrase.Read final (.expr level e) (lp :: ts ++ [rp]) := by
  refine operand (List.cons_ne_nil _ _) fun n rest hn _ => ?_
  have hclose : rp.kind.Closes := hrp ▸ TokenKind.closes_rightParen
  rw [List.append_assoc, List.cons_append, List.singleton_append] at hn ⊢
  obtain ⟨last, hrun⟩ := ih.expr_done_lowest (rp :: rest)
    (Nat.lt_of_lt_of_le (Nat.lt_succ_self _) hn) (hclose.follows _)
  -- The reader ends on the closing parenthesis, and the expression is unchanged.
  refine ⟨rp, ?_⟩
  rw [operand_run, Cursor.current_cons, hlp]
  dsimp only
  rw [Cursor.advance_cons, bind_of_done hrun, expect_bind_of_eq]
  · rfl
  · exact hrp

/-- An array is an operand. -/
theorem array {level : Level} {lb rb : Token} {es : List Expr} {ts : List Token}
    (hlb : lb.kind = .leftBracket) (hrb : rb.kind = .rightBracket)
    (ih : Phrase.Read final (.items es) ts) :
    Phrase.Read final (.expr level (.array lb es)) (lb :: ts ++ [rb]) := by
  refine operand (List.cons_ne_nil _ _) fun n rest hn _ => ?_
  have hclose : rb.kind.Closes := hrb ▸ TokenKind.closes_rightBracket
  rw [List.append_assoc, List.cons_append, List.singleton_append] at hn ⊢
  have hrun := ih n lb rb rest hclose (Nat.lt_of_lt_of_le (Nat.lt_succ_self _) hn)
  refine ⟨rb, ?_⟩
  rw [operand_run, Cursor.current_cons, hlb]
  dsimp only
  rw [← hrb, bind_of_done hrun]
  rfl

/-- A dict is an operand. -/
theorem dict {level : Level} {lb rb : Token} {entries : List (Expr × Expr)} {ts : List Token}
    (hlb : lb.kind = .leftBrace) (hrb : rb.kind = .rightBrace)
    (ih : Phrase.Read final (.pairs entries) ts) :
    Phrase.Read final (.expr level (.dict lb entries)) (lb :: ts ++ [rb]) := by
  refine operand (List.cons_ne_nil _ _) fun n rest hn _ => ?_
  rw [List.append_assoc, List.cons_append, List.singleton_append] at hn ⊢
  have hlen := Nat.lt_of_lt_of_le (Nat.lt_succ_self _) hn
  -- The pairs are read up to the brace, which is not theirs.
  obtain ⟨last, hrun⟩ := ih n n lb rb rest hrb hlen hlen
  refine ⟨rb, ?_⟩
  rw [operand_run, Cursor.current_cons, hlb]
  dsimp only
  rw [bind_of_done hrun, expect_bind_of_eq]
  · rfl
  · exact hrb

/-- A conditional is an operand: its condition, its block and its
alternative. -/
theorem cond {level : Level} {t : Token} {c : Expr} {b : Block} {a : Option Block}
    {cs bs as : List Token} (ht : t.kind = .ifWord) (hb : Derives true (.block b) bs)
    (ihc : Phrase.Read final (.expr .equality c) cs) (ihb : Phrase.Read final (.block b) bs)
    (iha : Phrase.Read final (.branch a) as) :
    Phrase.Read final (.expr level (.cond t c b a)) (t :: cs ++ bs ++ as) := by
  refine operand (List.cons_ne_nil _ _) fun n rest hn hrest => ?_
  obtain ⟨lb, us, rfl, hlb⟩ := hb.startsBlock
  simp only [List.append_assoc, List.cons_append] at hn ihb ⊢
  obtain ⟨last, hrun⟩ := ihc.expr_done_lowest (lb :: (us ++ (as ++ rest)))
    (Nat.lt_of_lt_of_le (Nat.lt_succ_self _) hn)
    (TokenKind.follows_of_eq hlb .lowest rfl (by decide))
  have hlen : (lb :: us ++ (as ++ rest)).length ≤ n ∧ (as ++ rest).length < n := by
    simp at hn ⊢
    omega
  obtain ⟨last', hrun'⟩ := ihb n (as ++ rest) hlen.1
  -- What follows is no `else`, so a branch that is missing is not found either.
  obtain ⟨last'', hrun''⟩ := iha n last' rest hrest.ne_else hlen.2
  refine ⟨last'', ?_⟩
  rw [operand_run, Cursor.current_cons, ht]
  dsimp only
  rw [List.cons_append] at hrun'
  rw [Cursor.advance_cons, bind_of_done hrun, expect_bind_of_eq, Cursor.advance_cons,
    bind_of_done hrun', bind_of_done hrun'']
  · rfl
  · exact hlb

/-- A function or a macro is an operand: its parameters and its block. -/
theorem lambda {level : Level} {t lp rp : Token} {kind : LambdaKind} {names : List String}
    {b : Block} {ns bs : List Token} (ht : t.kind = kind.tokenKind) (hlp : lp.kind = .leftParen)
    (hrp : rp.kind = .rightParen) (hb : Derives true (.block b) bs)
    (ihnames : Phrase.Read final (.params names) ns) (ihb : Phrase.Read final (.block b) bs) :
    Phrase.Read final (.expr level (.lambda t kind names b)) (t :: lp :: ns ++ rp :: bs) := by
  refine operand (List.cons_ne_nil _ _) fun n rest hn _ => ?_
  obtain ⟨lb, us, rfl, hlb⟩ := hb.startsBlock
  simp only [List.append_assoc, List.cons_append] at hn ihb ⊢
  have hlen : (ns ++ rp :: (lb :: us ++ rest)).length < n ∧ (lb :: us ++ rest).length ≤ n := by
    simp at hn ⊢
    omega
  have hrun := ihnames n lp rp (lb :: us ++ rest) hrp hlen.1
  obtain ⟨last, hrun'⟩ := ihb n rest hlen.2
  -- Both kinds of literal are read alike behind their keyword.
  have hlambda : Reader.lambda n (readExpr n) t kind
      ⟨t :: lp :: (ns ++ rp :: lb :: (us ++ rest)), final⟩
        = .done (.lambda t kind names b) ⟨last :: rest, final⟩ [] := by
    rw [List.cons_append] at hrun hrun'
    rw [Reader.lambda, expect_bind_of_eq, Cursor.advance_cons, bind_of_done hrun,
      expect_bind_of_eq, Cursor.advance_cons, bind_of_done hrun']
    · rfl
    · exact hlb
    · exact hlp
  refine ⟨last, ?_⟩
  rw [operand_run, Cursor.current_cons, ht]
  cases kind with
  | function => exact hlambda
  | macroRule => exact hlambda

/-! Suffixes. -/

/-- An operator behind its left operand is a suffix, and reads the right
one at the next tighter level. -/
theorem binary {op : BinaryOp} {t : Token} {l r : Expr} {ls rs : List Token}
    (ht : t.kind = op.tokenKind) (hl : Derives true (.expr op.level l) ls)
    (ihl : Phrase.Read final (.expr op.level l) ls)
    (ihr : Phrase.Read final (.expr op.level.tighter r) rs) :
    Phrase.Read final (.expr op.level (.binary t op l r)) (ls ++ t :: rs) := by
  have hs : Suffix.ofKind? t.kind = some (.operator op) := by rw [ht, Suffix.ofKind?_tokenKind]
  refine ihl.suffix (s := .operator op) hs (fun n rest hn hrest => ?_) hl.ne_nil
  -- The right operand is read at the level of the operator, which admits tighter ones only.
  have hreads : op.level.reads.rank ≤ op.level.tighter.rank :=
    Nat.le_of_eq (congrArg Level.rank (Level.reads_level op))
  obtain ⟨last, hrun⟩ := ihr.expr_done (n := n) _ hreads (by cases op <;> decide)
    (Nat.lt_of_succ_lt hn) hrest
  refine ⟨last, ?_⟩
  rw [suffix_run, List.cons_append]
  exact bind_of_done hrun

/-- Arguments behind an expression are a suffix. -/
theorem call {lp rp : Token} {f : Expr} {args : List Expr} {ts us : List Token}
    (hlp : lp.kind = .leftParen) (hrp : rp.kind = .rightParen)
    (hf : Derives true (.expr .suffix f) ts) (ihf : Phrase.Read final (.expr .suffix f) ts)
    (ih : Phrase.Read final (.items args) us) :
    Phrase.Read final (.expr .suffix (.call lp f args)) (ts ++ lp :: us ++ [rp]) := by
  have hs : Suffix.ofKind? lp.kind = some .arguments := by rw [hlp]; rfl
  have hclose : rp.kind.Closes := hrp ▸ TokenKind.closes_rightParen
  rw [List.append_assoc, List.cons_append]
  refine ihf.suffix (s := .arguments) hs (fun n rest hn _ => ?_) hf.ne_nil
  rw [List.cons_append, List.append_assoc, List.singleton_append] at hn ⊢
  -- The arguments are read from the opening parenthesis, the current token.
  have hrun := ih n lp rp rest hclose (Nat.lt_of_succ_lt hn)
  refine ⟨rp, ?_⟩
  rw [suffix_run, ← hrp]
  exact bind_of_done hrun

/-- An index behind an expression is a suffix. -/
theorem index {lb rb : Token} {e i : Expr} {ts us : List Token}
    (hlb : lb.kind = .leftBracket) (hrb : rb.kind = .rightBracket)
    (he : Derives true (.expr .suffix e) ts) (ihe : Phrase.Read final (.expr .suffix e) ts)
    (ih : Phrase.Read final (.expr .equality i) us) :
    Phrase.Read final (.expr .suffix (.index lb e i)) (ts ++ lb :: us ++ [rb]) := by
  have hs : Suffix.ofKind? lb.kind = some .index := by rw [hlb]; rfl
  have hclose : rb.kind.Closes := hrb ▸ TokenKind.closes_rightBracket
  rw [List.append_assoc, List.cons_append]
  refine ihe.suffix (s := .index) hs (fun n rest hn _ => ?_) he.ne_nil
  rw [List.cons_append, List.append_assoc, List.singleton_append] at hn ⊢
  -- Any expression is admitted in the brackets, as in parentheses.
  obtain ⟨last, hrun⟩ := ih.expr_done_lowest (rb :: rest) (Nat.lt_of_succ_lt hn)
    (hclose.follows _)
  refine ⟨rb, ?_⟩
  rw [suffix_run]
  dsimp only
  rw [Cursor.advance_cons, bind_of_done hrun, expect_bind_of_eq]
  · rfl
  · exact hrb

end Phrase.Read

/-- Whatever the grammar derives from a phrase, when statements end in
semicolons, is read as that phrase. -/
theorem Derives.read {phrase : Phrase} {ts : List Token} (final : Token)
    (h : Derives true phrase ts) : Phrase.Read final phrase ts := by
  induction h with
  | tighter _ ih => exact ih.tighter
  | binary ht hl _ ihl ihr => exact .binary ht hl ihl ihr
  | unary ht _ ih => exact .unary ht ih
  | call hlp hrp hf _ ihf ih => exact .call hlp hrp hf ihf ih
  | index hlb hrb he _ ihe ih => exact .index hlb hrb he ihe ih
  | ident ht => exact .atom fun n expr c hc => by rw [operand_run, hc, ht]
  | int ht hn => exact .atom fun n expr c hc => by rw [operand_run, hc, ht]; dsimp only; rw [hn]
  | str ht => exact .atom fun n expr c hc => by rw [operand_run, hc, ht]
  | trueWord ht => exact .atom fun n expr c hc => by rw [operand_run, hc, ht]
  | falseWord ht => exact .atom fun n expr c hc => by rw [operand_run, hc, ht]
  | group hlp hrp _ ih => exact .group hlp hrp ih
  | array hlb hrb _ ih => exact .array hlb hrb ih
  | dict hlb hrb _ ih => exact .dict hlb hrb ih
  | cond ht _ hb _ ihc ihb iha => exact .cond ht hb ihc ihb iha
  | lambda ht hlp hrp _ hb ihnames ihb => exact .lambda ht hlp hrp hb ihnames ihb
  | noItems => exact .noItems
  | items he hes ihe ihes => exact .items he hes ihe ihes
  | noMoreItems => exact .noMoreItems
  | moreItems hcomma _ hes ihe ihes => exact .moreItems hcomma hes ihe ihes
  | noPairs => exact .noPairs
  | lastPair hcolon hk _ ihk ihv => exact .lastPair hcolon hk ihk ihv
  | pairs hcolon hcomma hk _ _ ihk ihv ih => exact .pairs hcolon hcomma hk ihk ihv ih
  | noParams => exact .noParams
  | params ht _ ih => exact .params ht ih
  | noMoreParams => exact .noMoreParams
  | moreParams hcomma ht _ ih => exact .moreParams hcomma ht ih
  | noBranch => exact .noBranch
  | branch ht hb ih => exact .branch ht hb ih
  | block _ hrb _ ih => exact .block hrb ih
  | letIn ht hname hassign _ ih => exact .letIn ht hname hassign ih
  | ret ht _ ih => exact .ret ht ih
  | expr he ih => exact .exprStmt he ih
  | noStmts => exact .noStmts
  | semicolon hsemi hs _ ihs ihbody => exact .semicolon hsemi hs ihs ihbody
  | noSemicolon hlast hs hbody ihs _ =>
      -- Only the last statement of a list has no semicolon.
      cases hlast rfl
      cases hbody
      rw [List.append_nil]
      exact .lastStmt hs ihs

end QuoteScript
