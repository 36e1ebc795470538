import QuoteScript.Proofs.Grammar.Reading

/-!
# `QuoteScript.Proofs.Grammar.Derivation`: the grammar of the language

The grammar is stratified: each level of operators is a nonterminal
of its own, and a derivation has no look-ahead and no loop in it. The
levels from `equality` to `suffix` are the nonterminals E0 to E5:

* E0 = E1 | E0 (`==` or `!=`) E1
* E1 = E2 | E1 (`<` or `>`) E2
* E2 = E3 | E2 (`+` or `-`) E3
* E3 = E4 | E3 (`*` or `/`) E4
* E4 = (`-` or `!`) E4 | E5
* E5 = atom | E5 `(` items `)` | E5 `[` E0 `]`

`Derives` relates a phrase, that is, a nonterminal with the tree it
stands for, to the tokens that it derives. The tokens of the tree are
those of the list: a derivation says which token each part of a tree
carries.

* `Derives.loosen`: what a tighter level derives, a looser one derives.
* `Derives.startsExpr`: an expression starts with a token that
  `TokenKind.startsExpr` accepts.
* `Derives.ne_eof`: no derivation has an end-of-text token.
-/

set_option autoImplicit false

namespace QuoteScript

/-- The next tighter level. -/
def Level.tighter : Level → Level
  | lowest => equality
  | equality => comparison
  | comparison => sum
  | sum => product
  | product => unary
  | unary => suffix
  | suffix => suffix

namespace Level

/-- One level up is one rank up, below the tightest level. -/
theorem rank_tighter {level : Level} (h : level.rank < suffix.rank) :
    level.tighter.rank = level.rank + 1 := by
  cases level with
  | suffix => exact absurd h (Nat.lt_irrefl _)
  | _ => rfl

/-- The next tighter level is no looser. -/
theorem rank_le_tighter (level : Level) : level.rank ≤ level.tighter.rank := by
  cases level <;> decide

/-- What is read at the level of an operator is its right operand. -/
theorem reads_level (op : BinaryOp) : op.level.reads = op.level.tighter := by
  cases op <;> rfl

/-- No two levels have the same rank. -/
theorem rank_injective {level level' : Level} (h : level.rank = level'.rank) :
    level = level' := by
  cases level <;> cases level' <;> first | rfl | cases h

end Level

/-- A nonterminal of the grammar, with the tree that is derived. -/
inductive Phrase where
  | expr (level : Level) (e : Expr)
  /-- Expressions with commas between them. -/
  | items (es : List Expr)
  /-- Expressions with a comma in front of each. -/
  | moreItems (es : List Expr)
  /-- Pairs with commas between them; a comma may follow the last. -/
  | pairs (entries : List (Expr × Expr))
  /-- Names with commas between them. -/
  | params (names : List String)
  /-- Names with a comma in front of each. -/
  | moreParams (names : List String)
  /-- The `else` branch, if there is one. -/
  | branch (alternative : Option Block)
  | block (b : Block)
  /-- A statement without its semicolon. -/
  | stmt (s : Stmt)
  | stmts (body : List Stmt)

/-- `Derives ended phrase tokens`: the grammar derives `tokens` from
`phrase`. Every statement may end in a semicolon. If `ended` is true,
every statement does, except possibly the last one of its list. -/
inductive Derives (ended : Bool) : Phrase → List Token → Prop where
  | tighter {level : Level} {e : Expr} {ts : List Token} :
      Derives ended (.expr level.tighter e) ts → Derives ended (.expr level e) ts
  | binary {op : BinaryOp} {t : Token} {l r : Expr} {ls rs : List Token}
      (ht : t.kind = op.tokenKind) :
      Derives ended (.expr op.level l) ls → Derives ended (.expr op.level.tighter r) rs →
        Derives ended (.expr op.level (.binary t op l r)) (ls ++ t :: rs)
  | unary {op : UnaryOp} {t : Token} {e : Expr} {ts : List Token} (ht : t.kind = op.tokenKind) :
      Derives ended (.expr .unary e) ts →
        Derives ended (.expr .unary (.unary t op e)) (t :: ts)
  | call {lp rp : Token} {f : Expr} {args : List Expr} {ts us : List Token}
      (hlp : lp.kind = .leftParen) (hrp : rp.kind = .rightParen) :
      Derives ended (.expr .suffix f) ts → Derives ended (.items args) us →
        Derives ended (.expr .suffix (.call lp f args)) (ts ++ lp :: us ++ [rp])
  | index {lb rb : Token} {e i : Expr} {ts us : List Token}
      (hlb : lb.kind = .leftBracket) (hrb : rb.kind = .rightBracket) :
      Derives ended (.expr .suffix e) ts → Derives ended (.expr .equality i) us →
        Derives ended (.expr .suffix (.index lb e i)) (ts ++ lb :: us ++ [rb])
  -- Atoms.
  | ident {t : Token} (ht : t.kind = .ident) :
      Derives ended (.expr .suffix (.ident t t.literal)) [t]
  | int {t : Token} {n : Int64} (ht : t.kind = .int) (hn : Text.readInt? t.literal = some n) :
      Derives ended (.expr .suffix (.int t n)) [t]
  | str {t : Token} (ht : t.kind = .string) :
      Derives ended (.expr .suffix (.str t t.literal)) [t]
  | trueWord {t : Token} (ht : t.kind = .trueWord) :
      Derives ended (.expr .suffix (.bool t true)) [t]
  | falseWord {t : Token} (ht : t.kind = .falseWord) :
      Derives ended (.expr .suffix (.bool t false)) [t]
  | group {lp rp : Token} {e : Expr} {ts : List Token}
      (hlp : lp.kind = .leftParen) (hrp : rp.kind = .rightParen) :
      Derives ended (.expr .equality e) ts →
        Derives ended (.expr .suffix e) (lp :: ts ++ [rp])
  | array {lb rb : Token} {es : List Expr} {ts : List Token}
      (hlb : lb.kind = .leftBracket) (hrb : rb.kind = .rightBracket) :
      Derives ended (.items es) ts →
        Derives ended (.expr .suffix (.array lb es)) (lb :: ts ++ [rb])
  | dict {lb rb : Token} {entries : List (Expr × Expr)} {ts : List Token}
      (hlb : lb.kind = .leftBrace) (hrb : rb.kind = .rightBrace) :
      Derives ended (.pairs entries) ts →
        Derives ended (.expr .suffix (.dict lb entries)) (lb :: ts ++ [rb])
  | cond {t : Token} {c : Expr} {b : Block} {a : Option Block} {cs bs as : List Token}
      (ht : t.kind = .ifWord) :
      Derives ended (.expr .equality c) cs → Derives ended (.block b) bs →
        Derives ended (.branch a) as →
        Derives ended (.expr .suffix (.cond t c b a)) (t :: cs ++ bs ++ as)
  | lambda {t lp rp : Token} {kind : LambdaKind} {names : List String} {b : Block}
      {ns bs : List Token} (ht : t.kind = kind.tokenKind)
      (hlp : lp.kind = .leftParen) (hrp : rp.kind = .rightParen) :
      Derives ended (.params names) ns → Derives ended (.block b) bs →
        Derives ended (.expr .suffix (.lambda t kind names b)) (t :: lp :: ns ++ rp :: bs)
  -- Lists.
  | noItems : Derives ended (.items []) []
  | items {e : Expr} {es : List Expr} {ts us : List Token} :
      Derives ended (.expr .equality e) ts → Derives ended (.moreItems es) us →
        Derives ended (.items (e :: es)) (ts ++ us)
  | noMoreItems : Derives ended (.moreItems []) []
  | moreItems {comma : Token} {e : Expr} {es : List Expr} {ts us : List Token}
      (hcomma : comma.kind = .comma) :
      Derives ended (.expr .equality e) ts → Derives ended (.moreItems es) us →
        Derives ended (.moreItems (e :: es)) (comma :: ts ++ us)
  | noPairs : Derives ended (.pairs []) []
  | lastPair {colon : Token} {k v : Expr} {ks vs : List Token} (hcolon : colon.kind = .colon) :
      Derives ended (.expr .equality k) ks → Derives ended (.expr .equality v) vs →
        Derives ended (.pairs [(k, v)]) (ks ++ colon :: vs)
  | pairs {colon comma : Token} {k v : Expr} {entries : List (Expr × Expr)}
      {ks vs us : List Token} (hcolon : colon.kind = .colon) (hcomma : comma.kind = .comma) :
      Derives ended (.expr .equality k) ks → Derives ended (.expr .equality v) vs →
        Derives ended (.pairs entries) us →
        Derives ended (.pairs ((k, v) :: entries)) (ks ++ colon :: vs ++ comma :: us)
  | noParams : Derives ended (.params []) []
  | params {t : Token} {names : List String} {ts : List Token} (ht : t.kind = .ident) :
      Derives ended (.moreParams names) ts →
        Derives ended (.params (t.literal :: names)) (t :: ts)
  | noMoreParams : Derives ended (.moreParams []) []
  | moreParams {comma t : Token} {names : List String} {ts : List Token}
      (hcomma : comma.kind = .comma) (ht : t.kind = .ident) :
      Derives ended (.moreParams names) ts →
        Derives ended (.moreParams (t.literal :: names)) (comma :: t :: ts)
  -- Blocks and statements.
  | noBranch : Derives ended (.branch none) []
  | branch {t : Token} {b : Block} {bs : List Token} (ht : t.kind = .elseWord) :
      Derives ended (.block b) bs → Derives ended (.branch (some b)) (t :: bs)
  | block {lb rb : Token} {body : List Stmt} {ts : List Token}
      (hlb : lb.kind = .leftBrace) (hrb : rb.kind = .rightBrace) :
      Derives ended (.stmts body) ts →
        Derives ended (.block (.mk lb body)) (lb :: ts ++ [rb])
  | letIn {t name assign : Token} {e : Expr} {ts : List Token} (ht : t.kind = .letWord)
      (hname : name.kind = .ident) (hassign : assign.kind = .assign) :
      Derives ended (.expr .equality e) ts →
        Derives ended (.stmt (.letIn t name.literal e)) (t :: name :: assign :: ts)
  | ret {t : Token} {e : Expr} {ts : List Token} (ht : t.kind = .returnWord) :
      Derives ended (.expr .equality e) ts → Derives ended (.stmt (.ret t e)) (t :: ts)
  | expr {t : Token} {e : Expr} {ts : List Token} :
      Derives ended (.expr .equality e) (t :: ts) → Derives ended (.stmt (.expr t e)) (t :: ts)
  | noStmts : Derives ended (.stmts []) []
  | semicolon {semi : Token} {s : Stmt} {body : List Stmt} {ts us : List Token}
      (hsemi : semi.kind = .semicolon) :
      Derives ended (.stmt s) ts → Derives ended (.stmts body) us →
        Derives ended (.stmts (s :: body)) (ts ++ semi :: us)
  | noSemicolon {s : Stmt} {body : List Stmt} {ts us : List Token}
      (hlast : ended = true → body = []) :
      Derives ended (.stmt s) ts → Derives ended (.stmts body) us →
        Derives ended (.stmts (s :: body)) (ts ++ us)

namespace Derives

variable {ended : Bool}

/-- What a tighter level derives, a looser one derives. -/
theorem loosen {level looser : Level} {e : Expr} {ts : List Token}
    (h : Derives ended (.expr level e) ts) (hrank : looser.rank ≤ level.rank) :
    Derives ended (.expr looser e) ts := by
  -- One step down for each level in between.
  obtain ⟨d, hd⟩ := Nat.exists_eq_add_of_le hrank
  induction d generalizing looser with
  | zero => exact Level.rank_injective hd ▸ h
  | succ d ih =>
      have hsuffix := level.rank_le
      have hstep : looser.tighter.rank = looser.rank + 1 := Level.rank_tighter (by omega)
      exact tighter (ih (by omega) (by omega))

/-- An expression starts with a token that an expression can start
with. -/
theorem startsExpr {level : Level} {e : Expr} {ts : List Token}
    (h : Derives ended (.expr level e) ts) :
    ∃ t us, ts = t :: us ∧ t.kind.startsExpr = true := by
  generalize hp : Phrase.expr level e = phrase at h
  induction h generalizing level e with
  -- An expression starts with its leftmost part, or with a token of its own.
  | tighter _ ih => exact ih rfl
  | binary _ _ _ ihl _ =>
      obtain ⟨t, us, rfl, ht⟩ := ihl rfl
      exact ⟨t, _, rfl, ht⟩
  | call _ _ _ _ ihf _ =>
      obtain ⟨t, us, rfl, ht⟩ := ihf rfl
      exact ⟨t, _, rfl, ht⟩
  | index _ _ _ _ ihe _ =>
      obtain ⟨t, us, rfl, ht⟩ := ihe rfl
      exact ⟨t, _, rfl, ht⟩
  | @unary op t _ _ ht =>
      refine ⟨t, _, rfl, ?_⟩
      rw [ht]
      cases op <;> rfl
  | @lambda t _ _ kind _ _ _ _ ht =>
      refine ⟨t, _, rfl, ?_⟩
      rw [ht]
      cases kind <;> rfl
  | ident ht | int ht _ | str ht | trueWord ht | falseWord ht => exact ⟨_, _, rfl, by rw [ht]; rfl⟩
  | group hlp _ _ | array hlp _ _ | dict hlp _ _ | cond hlp _ _ _ =>
      exact ⟨_, _, rfl, by rw [hlp]; rfl⟩
  | _ => cases hp

/-- The grammar derives no end-of-text token. -/
theorem ne_eof {phrase : Phrase} {ts : List Token} (h : Derives ended phrase ts) :
    ∀ t ∈ ts, t.kind ≠ .eof := by
  induction h with
  | @binary op _ _ _ _ _ ht _ _ ihl ihr =>
      have hop : op.tokenKind ≠ .eof := by cases op <;> decide
      simp_all [or_imp]
  | @unary op _ _ _ ht _ ih =>
      have hop : op.tokenKind ≠ .eof := by cases op <;> decide
      simp_all [or_imp]
  | @lambda _ _ _ kind _ _ _ _ ht =>
      have hkind : kind.tokenKind ≠ .eof := by cases kind <;> decide
      simp_all [or_imp]
  | _ => simp_all [or_imp]

end Derives

end QuoteScript
