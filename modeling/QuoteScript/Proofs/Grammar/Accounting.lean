import QuoteScript.Proofs.Grammar.Synchronization
import QuoteScript.Proofs.Grammar.WellFormed
import QuoteScript.Proofs.Token.Order
import QuoteScript.Proofs.Tree.Tokens

/-!
# `QuoteScript.Proofs.Grammar.Accounting`: every token and every error in its place

A reader leaves the place where it started, and never goes back. This
module keeps account of what it does on its way, also if it finds
something wrong: which tokens it takes into the tree, and at which places
it reports an error.

An error is reported at the current token or at the next one. After it
was reported at the next one, reading is taken up again at the current
token. Still no later error comes to stand in front of it. The current
token is a semicolon, and is skipped; or it ends the block, and then the
list of statements has come to its end; or it is skipped because it is
none of the two. So all that was found up to a place was found no
further on than at the token behind it, and it is this that each reader
keeps.

* `Cursor.Trail`: errors at places that follow each other.
* `Phrase.Fits`: a tree that is read off some tokens, in order.
* `Reply.Accounted`: what the walk over the readers establishes.
* `accounted_readExpr`, `accounted_statements`: expressions and lists of
  statements.
-/

set_option autoImplicit false

namespace QuoteScript

variable {α β : Type}

/-! ### Places of errors -/

/-- The errors are reported at places from `c` to `c'`, and each of them
no earlier than the one before. -/
inductive Cursor.Trail : Cursor → List Diagnostic → Cursor → Prop where
  | nil {c c' : Cursor} (h : c.Within c') : Trail c [] c'
  | cons {c p c' : Cursor} {d : Diagnostic} {found : List Diagnostic} (h : c.Within p)
      (hd : d.span = p.current.span) (hrest : Trail p found c') : Trail c (d :: found) c'

namespace Cursor

/-- The place behind the current token is no earlier. -/
theorem within_advance (c : Cursor) : c.Within c.advance :=
  (Within.refl c).advance

namespace Trail

variable {c c₀ c₁ c₂ : Cursor} {d : Diagnostic} {found found' : List Diagnostic}

/-- An earlier start. -/
theorem of_within (h₀ : c₀.Within c) (h : Trail c found c₁) : Trail c₀ found c₁ := by
  cases h with
  | nil h => exact .nil (h₀.trans h)
  | cons h hd hrest => exact .cons (h₀.trans h) hd hrest

/-- Reports on two stretches of the text, one behind the other. -/
theorem trans (h : Trail c found c₁) (h' : Trail c₁ found' c₂) : Trail c (found ++ found') c₂ := by
  induction h with
  | nil h => exact h'.of_within h
  | cons h hd _ ih => exact .cons h hd (ih h')

/-- A later end. -/
theorem within (h : Trail c found c₁) (h₁ : c₁.Within c₂) : Trail c found c₂ := by
  have htrans := h.trans (.nil h₁)
  rwa [List.append_nil] at htrans

/-- One error, where the way starts. -/
theorem single (hd : d.span = c.current.span) (h : c.Within c₁) : Trail c [d] c₁ :=
  .cons (.refl c) hd (.nil h)

end Trail

/-- The place is in front of the end of a text with the tokens of the
origin. -/
structure Inside (o : Origin) (c : Cursor) : Prop where
  closed : c.Closed
  mem : ∀ t ∈ c.ahead, t ∈ o.stream
  eof : ∀ t ∈ c.ahead, t.kind ≠ .eof

namespace Inside

variable {o : Origin} {c c' : Cursor}

/-- A cursor further on is inside the same text. -/
theorem within (h : c.Inside o) (hc : c.Within c') : c'.Inside o :=
  ⟨hc.closed h.closed, fun t ht => h.mem t (hc.suffix.mem ht),
    fun t ht => h.eof t (hc.suffix.mem ht)⟩

/-- So is the cursor one token further on. -/
theorem advance (h : c.Inside o) : c.advance.Inside o :=
  h.within c.within_advance

/-- A token that is not the end of the text is one of its tokens. -/
theorem has_current {kind : TokenKind} (h : c.Inside o) (hkind : c.current.kind = kind)
    (hne : kind ≠ .eof) : o.Has kind c.current := by
  refine ⟨h.mem _ ?_, hkind⟩
  rw [ahead_eq_of_current h.closed (hkind ▸ hne)]
  exact List.mem_cons_self

/-- The next token is one of the text, unless the text ends. -/
theorem has_next {kind : TokenKind} (h : c.Inside o) (hkind : c.next.kind = kind)
    (hne : kind ≠ .eof) : o.Has kind c.next :=
  h.advance.has_current hkind hne

/-- Nothing is ahead of the end of the text. -/
theorem advance_eq_of_eof (h : c.Inside o) (heof : c.current.kind = .eof) : c.advance = c := by
  obtain ⟨ahead, final⟩ := c
  cases ahead with
  | nil => rfl
  | cons t ts => exact absurd heof (h.eof t List.mem_cons_self)

end Inside

end Cursor

/-! ### Trees that fit their tokens -/

/-- The names and the integers of a text are as the scanner writes
them. -/
structure Origin.Lexed (o : Origin) : Prop where
  name : ∀ t, o.Has .ident t → t.literal ≠ ""
  int : ∀ t n, o.Has .int t → Text.readInt? t.literal = some n → o.Counts t n

/-- The tokens of a phrase, in source order. -/
def Phrase.tokens : Phrase → List Token
  | .expr _ e => e.tokens
  | .items es | .moreItems es => exprsTokens es
  | .pairs entries => pairsTokens entries
  | .params _ | .moreParams _ => []
  | .branch alternative => elseTokens alternative
  | .block b => b.tokens
  | .stmt s => s.tokens
  | .stmts body => bodyTokens body

/-- The phrase is read off a text. -/
def Phrase.ReadOff (o : Origin) : Phrase → Prop
  | .expr _ e => e.ReadOff o
  | .items es | .moreItems es => exprsReadOff o es
  | .pairs entries => pairsReadOff o entries
  | .params names | .moreParams names => ∀ name ∈ names, o.Names name
  | .branch alternative => elseReadOff o alternative
  | .block b => b.ReadOff o
  | .stmt s => s.ReadOff o
  | .stmts body => bodyReadOff o body

/-- The phrase is read off a text, and its tokens are some of the given
ones, in their order. -/
structure Phrase.Fits (o : Origin) (phrase : Phrase) (ts : List Token) : Prop where
  tokens : phrase.tokens.Sublist ts
  readOff : phrase.ReadOff o

namespace Phrase.Fits

variable {o : Origin} {phrase : Phrase} {ts us : List Token}

/-- There may be more tokens in between. -/
theorem sublist (h : phrase.Fits o ts) (hts : ts.Sublist us) : phrase.Fits o us :=
  ⟨h.tokens.trans hts, h.readOff⟩

/-- There may be more tokens behind. -/
theorem append (h : phrase.Fits o ts) (us : List Token) : phrase.Fits o (ts ++ us) :=
  h.sublist (List.sublist_append_left ts us)

/-- There may be one more token in front. -/
theorem cons (h : phrase.Fits o ts) (t : Token) : phrase.Fits o (t :: ts) :=
  h.sublist (List.sublist_cons_self t ts)

/-- The pairs of a dict, from a colon on. -/
theorem pair {key value : Expr} {entries : List (Expr × Expr)} {colon : Token}
    {ks vs : List Token} (hkey : (Phrase.expr .lowest key).Fits o ks)
    (hvalue : (Phrase.expr .lowest value).Fits o vs) (hentries : (Phrase.pairs entries).Fits o us) :
    (Phrase.pairs ((key, value) :: entries)).Fits o (ks ++ colon :: (vs ++ us)) := by
  refine ⟨?_, hkey.readOff, hvalue.readOff, hentries.readOff⟩
  have htokens := hkey.tokens.append ((hvalue.tokens.append hentries.tokens).cons colon)
  rwa [← List.append_assoc] at htokens

end Phrase.Fits

/-! ### Accounts -/

/-- If there is something wrong with a part, there is with the whole. -/
theorem Origin.broken_of_append {o : Origin} {found found' : List Diagnostic}
    (h : found ++ found' ≠ [] → o.broken) :
    (found ≠ [] → o.broken) ∧ (found' ≠ [] → o.broken) :=
  ⟨fun hne => h (List.append_ne_nil_of_left_ne_nil hne found'),
    fun hne => h (List.append_ne_nil_of_right_ne_nil found hne)⟩

namespace Reply

open Cursor

/-- The account of a reader that took the tokens from `start` on, and
that may stand on `base` still. What it has found lies between `start`
and the token behind its last one. If it is done, it has taken all
tokens up to there, and the result fits them. -/
def Accounted (o : Origin) (base start : Cursor) (P : α → List Token → Prop) : Reply α → Prop
  | .done a c found =>
    base.Within c ∧ start.Trail found c.advance ∧
      ∃ ts, start.Spans c ts ∧ ((found ≠ [] → o.broken) → P a ts)
  | .failed c found => base.Within c ∧ start.Trail found c.advance
  | .exhausted => True

namespace Accounted

variable {o : Origin} {base start c : Cursor} {P : α → List Token → Prop}
  {Q : β → List Token → Prop} {reply : Reply α} {d : Diagnostic}

/-- What is said of the answer may be weakened. -/
theorem mono {P' : α → List Token → Prop} (h : reply.Accounted o base start P)
    (hP : ∀ a ts, P a ts → P' a ts) : reply.Accounted o base start P' := by
  cases reply with
  | done a c found =>
      obtain ⟨hwithin, htrail, ts, hspan, hts⟩ := h
      exact ⟨hwithin, htrail, ts, hspan, fun hfound => hP a ts (hts hfound)⟩
  | failed c found => exact h
  | exhausted => trivial

/-- A reader that takes no token. -/
theorem done {a : α} (h : P a []) : (Reply.done a c []).Accounted o c c.advance P :=
  ⟨.refl c, .nil (.refl _), [], .nil c, fun _ => h⟩

/-- A reader that fails without a report. -/
theorem failed (h : base.Within c) (hstart : start.Within c.advance) :
    (Reply.failed c [] : Reply α).Accounted o base start P :=
  ⟨h, .nil hstart⟩

/-- A reader that fails on its first token. -/
theorem failed_current (hd : d.span = c.current.span) :
    (Reply.failed c [d] : Reply α).Accounted o c c P :=
  ⟨.refl c, .single hd c.within_advance⟩

/-- A reader that fails on the next token. -/
theorem failed_next (hd : d.span = c.next.span) :
    (Reply.failed c [d] : Reply α).Accounted o c c.advance P :=
  ⟨.refl c, .single hd (.refl _)⟩

/-- An error where the account starts. -/
theorem report (hd : d.span = start.current.span)
    (h : reply.Accounted o base start fun a ts => o.broken → P a ts) :
    (Reader.after [d] reply).Accounted o base start P := by
  cases reply with
  | done a c found =>
      obtain ⟨hwithin, htrail, ts, hspan, hP⟩ := h
      refine ⟨hwithin, .cons (.refl start) hd htrail, ts, hspan, fun hfound => ?_⟩
      have hbroken := hfound (List.cons_ne_nil d found)
      exact hP (fun _ => hbroken) hbroken
  | failed c found => exact ⟨h.1, .cons (.refl start) hd h.2⟩
  | exhausted => trivial

/-- The account of a reader that has moved on before. -/
theorem of_within {base' : Cursor} (hbase : base.Within base')
    (h : reply.Accounted o base' start P) : reply.Accounted o base start P := by
  cases reply with
  | done a c found => exact ⟨hbase.trans h.1, h.2⟩
  | failed c found => exact ⟨hbase.trans h.1, h.2⟩
  | exhausted => trivial

/-- The account of a reader that has taken its first token. -/
theorem of_current (hc : c.Inside o) (hne : c.current.kind ≠ .eof)
    (h : reply.Accounted o base c.advance fun a ts => P a (c.current :: ts)) :
    reply.Accounted o base c P := by
  have hfirst := Spans.current hc.closed hne
  cases reply with
  | done a c' found =>
      obtain ⟨hwithin, htrail, ts, hspan, hP⟩ := h
      exact ⟨hwithin, htrail.of_within c.within_advance, _, hfirst.append hspan, hP⟩
  | failed c' found => exact ⟨h.1, h.2.of_within c.within_advance⟩
  | exhausted => trivial

/-- The account of a reader that has moved onto the next token. -/
theorem of_next (hc : c.Inside o) (hne : c.next.kind ≠ .eof)
    (h : reply.Accounted o c.advance c.advance.advance fun a ts => P a (c.next :: ts)) :
    reply.Accounted o c c.advance P :=
  (h.of_current hc.advance hne).of_within c.within_advance

/-- Two readers in a row. The second one takes the tokens behind those of
the first one. -/
theorem bind {read : Reader α} {next : α → Reader β} (hbase : base.Inside o)
    (hread : (read c).Accounted o base start P)
    (hnext : ∀ a c₁, c₁.Inside o →
      (next a c₁).Accounted o c₁ c₁.advance fun b us => ∀ ts, P a ts → Q b (ts ++ us)) :
    ((read >>= next) c).Accounted o base start Q := by
  rw [Reader.bind_run]
  cases hrun : read c with
  | failed c₁ found => rw [hrun] at hread; exact hread
  | exhausted => trivial
  | done a c₁ found =>
      rw [hrun] at hread
      obtain ⟨hwithin, htrail, ts, hspan, hP⟩ := hread
      have hrest := hnext a c₁ (hbase.within hwithin)
      show (Reader.after found (next a c₁)).Accounted o base start Q
      cases hrun₁ : next a c₁ with
      | failed c₂ found' =>
          rw [hrun₁] at hrest
          exact ⟨hwithin.trans hrest.1, htrail.trans hrest.2⟩
      | exhausted => trivial
      | done b c₂ found' =>
          rw [hrun₁] at hrest
          obtain ⟨hwithin', htrail', us, hspan', hQ⟩ := hrest
          -- The second reader starts where the first one ended, so spans and reports line up.
          refine ⟨hwithin.trans hwithin', htrail.trans htrail', ts ++ us, hspan.append hspan',
            fun hfound => ?_⟩
          obtain ⟨hfirst, hsecond⟩ := Origin.broken_of_append hfound
          exact hQ hsecond ts (hP hfirst)

/-- A reader whose result is put into another one. -/
theorem map {read : Reader α} {f : α → β} (hread : (read c).Accounted o base start P)
    (hf : ∀ a ts, P a ts → Q (f a) ts) :
    ((read >>= fun a => pure (f a)) c).Accounted o base start Q := by
  rw [Reader.bind_run]
  cases hrun : read c with
  | failed c₁ found => rw [hrun] at hread; exact hread
  | exhausted => trivial
  | done a c₁ found =>
      rw [hrun] at hread
      obtain ⟨hwithin, htrail, ts, hspan, hP⟩ := hread
      show (Reader.after found (.done (f a) c₁ [])).Accounted o base start Q
      rw [Reader.after, List.append_nil]
      exact ⟨hwithin, htrail, ts, hspan, fun hfound => hf a ts (hP hfound)⟩

/-- A reader that starts on a token that is due. If the token is not
there, the error is reported. -/
theorem expect_onto {kind : TokenKind} {next : Unit → Reader β} (hc : c.Inside o)
    (heof : kind ≠ .eof)
    (hnext : o.Has kind c.next → (next () c.advance).Accounted o c c.advance Q) :
    ((Reader.expect kind >>= next) c).Accounted o c c.advance Q := by
  rw [Reader.expect_bind_run]
  by_cases hkind : c.next.kind = kind
  · rw [if_pos hkind]
    exact hnext (hc.has_next hkind heof)
  · rw [if_neg hkind]
    exact failed_next rfl

/-- A reader that starts behind a token that is due. -/
theorem expect {kind : TokenKind} {next : Unit → Reader β} (hc : c.Inside o) (heof : kind ≠ .eof)
    (hnext : o.Has kind c.next →
      (next () c.advance).Accounted o c.advance c.advance.advance fun b us => Q b (c.next :: us)) :
    ((Reader.expect kind >>= next) c).Accounted o c c.advance Q :=
  expect_onto hc heof fun hkind => (hnext hkind).of_next hc (hkind.2 ▸ heof)

end Accounted

end Reply

namespace Reader

open Reply Reply.Accounted

/-- A reader of expressions that accounts for its tokens and its
errors. -/
def Accounting (o : Origin) (expr : Level → Reader Expr) : Prop :=
  ∀ (level : Level) (c : Cursor), c.Inside o →
    (expr level c).Accounted o c c fun e ts => (Phrase.expr .lowest e).Fits o ts

variable {o : Origin} {expr : Level → Reader Expr} {c : Cursor}

/-- An expression that starts with the next token. -/
theorem Accounting.behind (hexpr : Accounting o expr) (level : Level) (hc : c.Inside o) :
    (expr level c.advance).Accounted o c c.advance fun e ts =>
      (Phrase.expr .lowest e).Fits o ts :=
  (hexpr level c.advance hc.advance).of_within c.within_advance

/-! ### Lists -/

/-- Expressions with a comma in front of each, from the token in front
of the first comma. -/
theorem accounted_moreItems (hexpr : Accounting o expr) (steps : Nat) (hc : c.Inside o) :
    (moreItems expr steps c).Accounted o c c.advance fun es ts =>
      (Phrase.moreItems es).Fits o ts := by
  induction steps generalizing c with
  | zero => trivial
  | succ steps ih =>
      unfold moreItems
      rw [nextIs_bind_run]
      split
      · next hcomma =>
          have hcomma := eq_of_beq hcomma
          rw [advance_bind_run, advance_bind_run]
          refine .of_next hc (by rw [hcomma]; decide) ?_
          refine .bind hc.advance (hexpr.behind .lowest hc.advance) fun e c₁ h₁ => ?_
          -- The comma is a token of the text that the tree leaves out.
          refine .map (ih h₁) fun es us hes ts he => ?_
          exact ⟨.cons _ (he.tokens.append hes.tokens), he.readOff, hes.readOff⟩
      · exact .done ⟨.slnil, trivial⟩

/-- Expressions between brackets, from the opening one to the closing
one. -/
theorem accounted_items (hexpr : Accounting o expr) (steps : Nat) {close : TokenKind}
    (hclose : close ≠ .eof) (hc : c.Inside o) :
    (items steps expr close c).Accounted o c c.advance fun es ts =>
      (Phrase.items es).Fits o ts := by
  unfold items
  rw [nextIs_bind_run]
  split
  · next hnext =>
      rw [advance_bind_run]
      exact .of_next hc (eq_of_beq hnext ▸ hclose) (.done ⟨.cons _ .slnil, trivial⟩)
  · rw [advance_bind_run]
    refine .bind hc (hexpr.behind .lowest hc) fun e c₁ h₁ => ?_
    refine .bind h₁ (accounted_moreItems hexpr steps h₁) fun es c₂ h₂ => ?_
    refine .expect h₂ hclose fun _ => .done fun us hes ts he => ?_
    -- So is the closing token.
    have hes := hes.append [c₂.next]
    exact ⟨he.tokens.append hes.tokens, he.readOff, hes.readOff⟩

/-- The names behind the first one are literals of the text. -/
theorem accounted_moreParams (steps : Nat) (hc : c.Inside o) :
    (moreParams steps c).Accounted o c c.advance fun names ts =>
      (Phrase.moreParams names).Fits o ts := by
  induction steps generalizing c with
  | zero => trivial
  | succ steps ih =>
      unfold moreParams
      rw [nextIs_bind_run]
      split
      · next hcomma =>
          have hcomma := eq_of_beq hcomma
          rw [advance_bind_run]
          refine .of_next hc (by rw [hcomma]; decide) ?_
          refine .expect hc.advance (by decide) fun hident => ?_
          rw [current_bind_run]
          refine .map (ih hc.advance.advance) fun names ts hnames => ?_
          -- Parameters are kept as names, and their tokens are not in the tree.
          exact ⟨List.nil_sublist _, List.forall_mem_cons.mpr ⟨⟨_, hident, rfl⟩, hnames.readOff⟩⟩
      · exact .done ⟨.slnil, List.forall_mem_nil _⟩

/-- Parameters between parentheses, from the opening one to the closing
one. -/
theorem accounted_params (steps : Nat) (hc : c.Inside o) :
    (params steps c).Accounted o c c.advance fun names ts =>
      (Phrase.params names).Fits o ts := by
  unfold params
  rw [nextIs_bind_run]
  split
  · next hnext =>
      rw [advance_bind_run]
      exact .of_next hc (by rw [eq_of_beq hnext]; decide)
        (.done ⟨List.nil_sublist _, List.forall_mem_nil _⟩)
  · refine .expect hc (by decide) fun hident => ?_
    rw [current_bind_run]
    refine .bind hc.advance (accounted_moreParams steps hc.advance) fun names c₁ h₁ => ?_
    refine .expect h₁ (by decide) fun _ => .done fun ts hnames => ?_
    exact ⟨List.nil_sublist _, List.forall_mem_cons.mpr ⟨⟨_, hident, rfl⟩, hnames.readOff⟩⟩

/-- The pairs of a dict, from its opening brace to the last token in
front of its closing brace. -/
theorem accounted_pairs (hexpr : Accounting o expr) (steps : Nat) (hc : c.Inside o) :
    (pairs expr steps c).Accounted o c c.advance fun entries ts =>
      (Phrase.pairs entries).Fits o ts := by
  induction steps generalizing c with
  | zero => trivial
  | succ steps ih =>
      unfold pairs
      rw [nextIs_bind_run]
      split
      · exact .done ⟨.slnil, trivial⟩
      · rw [advance_bind_run]
        refine .bind hc (hexpr.behind .lowest hc) fun key c₁ h₁ => ?_
        refine .expect h₁ (by decide) fun _ => ?_
        rw [advance_bind_run]
        refine .bind h₁.advance (hexpr.behind .lowest h₁.advance) fun value c₂ h₂ => ?_
        rw [nextIs_bind_run]
        split
        -- Behind the last pair the loop finds the brace in its next turn.
        · exact .map (ih h₂) fun entries us hentries vs hvalue ks hkey => hkey.pair hvalue hentries
        · refine .expect h₂ (by decide) fun _ => ?_
          refine .map (ih h₂.advance) fun entries us hentries vs hvalue ks hkey => ?_
          exact hkey.pair hvalue (hentries.cons c₂.next)

/-! ### Statements and blocks -/

/-- A value and its semicolon, as part of a statement. -/
theorem accounted_value (hexpr : Accounting o expr) (make : Expr → Stmt) (hc : c.Inside o) :
    ((expr .lowest >>= fun value => skipSemicolon >>= fun _ => pure (make value)) c).Accounted
      o c c fun s ts => ∃ e, s = make e ∧ (Phrase.expr .lowest e).Fits o ts := by
  refine .bind hc (hexpr .lowest c hc) fun e c₁ h₁ => ?_
  rw [skipSemicolon_bind_run]
  split
  · next hsemi =>
      refine .of_next h₁ (by rw [hsemi]; decide) (.done fun ts he => ⟨e, rfl, he.append _⟩)
  · exact .done fun ts he => ⟨e, rfl, he.append []⟩

/-- The value of a `let` that lacks a part, if an expression starts
there. -/
theorem accounted_brokenValue (hexpr : Accounting o expr) (token : Token) (name : String)
    (hc : c.Inside o) :
    (if c.next.kind.startsExpr then letValue expr token name c.advance
      else .failed c.advance []).Accounted o c c.advance fun s ts =>
        ∃ e, s = .letIn token name e ∧ (Phrase.expr .lowest e).Fits o ts := by
  split
  · exact (accounted_value hexpr (.letIn token name) hc.advance).of_within c.within_advance
  · exact .failed c.within_advance c.advance.within_advance

/-- A binding, whose name is written in the text or missing and
reported. -/
theorem accounted_letStatement (ho : o.Lexed) (hexpr : Accounting o expr) (hc : c.Inside o)
    (hlet : c.current.kind = .letWord) :
    (letStatement expr c).Accounted o c c fun s ts => (Phrase.stmt s).Fits o ts := by
  have htoken : o.Has .letWord c.current := hc.has_current hlet (by decide)
  have hfits {name : String} {s : Stmt} {ts : List Token}
      (hname : name ≠ "" ∧ o.Names name ∨ name = "" ∧ o.broken)
      (h : ∃ e, s = .letIn c.current name e ∧ (Phrase.expr .lowest e).Fits o ts) :
      (Phrase.stmt s).Fits o (c.current :: ts) := by
    obtain ⟨e, rfl, he⟩ := h
    exact ⟨he.tokens.cons_cons _, htoken, hname, he.readOff⟩
  -- A value may be found further on, behind tokens the tree leaves out.
  have hmore {name : String} {s : Stmt} {ts : List Token} (t : Token)
      (h : ∃ e, s = .letIn c.current name e ∧ (Phrase.expr .lowest e).Fits o ts) :
      ∃ e, s = .letIn c.current name e ∧ (Phrase.expr .lowest e).Fits o (t :: ts) := by
    obtain ⟨e, hs, he⟩ := h
    exact ⟨e, hs, he.cons t⟩
  refine .of_current hc (by rw [hlet]; decide) ?_
  rw [letStatement_run]
  by_cases hname : c.next.kind = .ident
  · have hident := hc.has_next hname (by decide)
    have hwritten : c.next.literal ≠ "" ∧ o.Names c.next.literal ∨ c.next.literal = "" ∧ o.broken :=
      .inl ⟨ho.name _ hident, _, hident, rfl⟩
    rw [if_pos hname]
    refine .of_next hc (by rw [hname]; decide) ?_
    split
    · next hassign =>
        refine .of_next hc.advance (by rw [hassign]; decide) ?_
        have hvalue := (accounted_value hexpr (.letIn c.current c.next.literal)
          hc.advance.advance.advance).of_within c.advance.advance.within_advance
        exact hvalue.mono fun s ts h => hfits hwritten (hmore _ (hmore _ h))
    · -- The `=` is missing. What stands in its place may start the value.
      have hvalue := accounted_brokenValue hexpr c.current c.next.literal hc.advance
      exact .report rfl (hvalue.mono fun s ts h _ => hfits hwritten (hmore _ h))
  · -- The name is missing, and this is reported before anything else is read.
    rw [if_neg hname]
    refine .report rfl ?_
    by_cases hassign : c.next.kind = .assign
    · rw [if_pos hassign]
      have hvalue := accounted_brokenValue hexpr c.current "" hc.advance
      refine .of_next hc (by rw [hassign]; decide) ?_
      exact hvalue.mono fun s ts h hbroken => hfits (.inr ⟨rfl, hbroken⟩) (hmore _ h)
    · rw [if_neg hassign]
      have hvalue := accounted_brokenValue hexpr c.current "" hc
      exact hvalue.mono fun s ts h hbroken => hfits (.inr ⟨rfl, hbroken⟩) h

/-- A statement, from its first token to its semicolon, if it has one. -/
theorem accounted_statement (ho : o.Lexed) (hexpr : Accounting o expr) (hc : c.Inside o)
    (hne : c.current.kind ≠ .eof) :
    (statement expr c).Accounted o c c fun s ts => (Phrase.stmt s).Fits o ts := by
  rw [statement_run]
  split
  · next hlet => exact accounted_letStatement ho hexpr hc hlet
  · next hret =>
      refine .of_current hc hne ?_
      have hvalue := (accounted_value hexpr (.ret c.current) hc.advance).of_within c.within_advance
      refine hvalue.mono ?_
      rintro s ts ⟨e, rfl, he⟩
      exact ⟨he.tokens.cons_cons _, hc.has_current hret (by decide), he.readOff⟩
  -- The token of the statement is the first one of its expression, and no other.
  · refine (accounted_value hexpr (.expr c.current) hc).mono ?_
    rintro s ts ⟨e, rfl, he⟩
    exact ⟨he.tokens, (hc.has_current rfl hne).1, he.readOff⟩

/-- A broken statement is skipped to behind the token on which it was
given up, or no further token is read in its list. -/
theorem recovered_cases (inBlock : Bool) (hc : c.Inside o) :
    c.advance.Within (c.recovered inBlock) ∨
      c.recovered inBlock = c ∧ endsStatements inBlock c.current.kind = true := by
  obtain ⟨ahead, final⟩ := c
  cases ahead with
  -- Without tokens left the cursor cannot move on.
  | nil =>
      exact .inr ⟨rfl, endsStatements_nil inBlock hc.closed⟩
  | cons t ts =>
      unfold Cursor.recovered behindBroken
      by_cases hsemi : t.kind = .semicolon
      · rw [if_pos hsemi]
        exact .inl (.refl _)
      · rw [if_neg hsemi]
        by_cases hends : endsStatements inBlock t.kind = true
        · rw [if_pos hends]
          exact .inr ⟨rfl, hends⟩
        · rw [if_neg hends]
          exact .inl ⟨behindBroken_suffix inBlock ts, rfl⟩

/-- The account of a list of statements, up to the token that ends it. -/
structure BodyAccount (o : Origin) (c : Cursor) (body : List Stmt) (c' : Cursor)
    (found : List Diagnostic) : Prop where
  within : c.Within c'
  trail : c.Trail found c'.advance
  fits : ∃ ts, c.ahead = ts ++ c'.ahead ∧
    ((found ≠ [] → o.broken) → (Phrase.stmts body).Fits o ts)

namespace BodyAccount

variable {s : Stmt} {body : List Stmt} {c₁ c₂ c' : Cursor} {found found' : List Diagnostic}

/-- A list of statements that has come to its end at once. -/
theorem nil : BodyAccount o c [] c [] :=
  ⟨.refl c, .nil c.within_advance, [], rfl, fun _ => ⟨.slnil, trivial⟩⟩

/-- A statement in front of others. -/
theorem statement
    (hstmt : (Reply.done s c₁ found).Accounted o c c fun s ts => (Phrase.stmt s).Fits o ts)
    (hrest : BodyAccount o c₁.advance body c' found') :
    BodyAccount o c (s :: body) c' (found ++ found') := by
  obtain ⟨hwithin, htrail, ts, hspan, hP⟩ := hstmt
  obtain ⟨us, hahead, hfits⟩ := hrest.fits
  refine ⟨hwithin.advance.trans hrest.within, htrail.trans hrest.trail, ts ++ us, ?_,
    fun hfound => ?_⟩
  · rw [List.append_assoc, ← hahead]
    exact hspan.ahead_eq
  · obtain ⟨hfirst, hsecond⟩ := Origin.broken_of_append hfound
    -- A name may be missing only if something is reported, be it in this statement or behind it.
    have hs := hP hfirst
    have hbody := hfits hsecond
    exact ⟨hs.tokens.append hbody.tokens, hs.readOff, hbody.readOff⟩

/-- A broken statement that is skipped, in front of others. -/
theorem broken {P : Stmt → List Token → Prop}
    (hstmt : (Reply.failed c₁ found : Reply Stmt).Accounted o c c P)
    (hskip : c₁.advance.Within c₂) (hrest : BodyAccount o c₂ body c' found') :
    BodyAccount o c body c' (found ++ found') := by
  obtain ⟨hwithin, htrail⟩ := hstmt
  have hwithin := hwithin.trans (c₁.within_advance.trans hskip)
  obtain ⟨us, hahead, hfits⟩ := hrest.fits
  obtain ⟨vs, hvs⟩ := hwithin.suffix
  refine ⟨hwithin.trans hrest.within, (htrail.within hskip).trans hrest.trail, vs ++ us, ?_,
    fun hfound => ?_⟩
  · rw [List.append_assoc, ← hahead, hvs]
  · have hbody := hfits (Origin.broken_of_append hfound).2
    exact hbody.sublist (List.sublist_append_right vs us)

/-- A broken statement that was given up where the list ends. -/
theorem given_up {P : Stmt → List Token → Prop}
    (hstmt : (Reply.failed c₁ found : Reply Stmt).Accounted o c c P) :
    BodyAccount o c [] c₁ found := by
  obtain ⟨hwithin, htrail⟩ := hstmt
  obtain ⟨vs, hvs⟩ := hwithin.suffix
  exact ⟨hwithin, htrail, vs, hvs.symm, fun _ => ⟨List.nil_sublist _, trivial⟩⟩

end BodyAccount

/-- A list of statements, where what belongs to a broken one is left out
of the tree. -/
theorem accounted_statements (ho : o.Lexed) (hexpr : Accounting o expr) {inBlock : Bool}
    {steps : Nat} (hc : c.Inside o) {body : List Stmt} {c' : Cursor} {found : List Diagnostic}
    (hrun : statements inBlock (statement expr) steps c = .done body c' found) :
    BodyAccount o c body c' found := by
  induction steps generalizing c body found with
  | zero => cases hrun
  | succ steps ih =>
      cases hends : endsStatements inBlock c.current.kind with
      | true =>
          obtain ⟨rfl, rfl, rfl⟩ := statements_of_ends hends hrun
          exact .nil
      | false =>
          have hne : c.current.kind ≠ .eof := fun heof => by rw [heof] at hends; cases hends
          have hstmt := accounted_statement ho hexpr hc hne
          cases Turn.of_statements hrun hends with
          | statement hs hrest =>
              rw [hs] at hstmt
              exact .statement hstmt (ih (hc.within hstmt.1).advance hrest)
          -- What was read of a broken statement has its reports, and no tokens in the tree.
          | broken hs hrest =>
              rw [hs] at hstmt
              have hbroken := hc.within hstmt.1
              rcases recovered_cases inBlock hbroken with hskip | ⟨heq, hend⟩
              · have hinside := hbroken.advance.within hskip
                exact .broken hstmt hskip (ih hinside hrest)
              · -- The token on which the statement was given up ends the list.
                rw [heq] at hrest
                obtain ⟨rfl, rfl, rfl⟩ := statements_of_ends hend hrest
                rw [List.append_nil]
                exact .given_up hstmt

/-- A block, from its opening brace to its closing brace. If there is
none, the error is reported at the end of the text. -/
theorem accounted_block (ho : o.Lexed) (hexpr : Accounting o expr) (steps : Nat) (hc : c.Inside o)
    (hbrace : o.Has .leftBrace c.current) :
    (block steps expr c).Accounted o c c fun b ts => (Phrase.block b).Fits o ts := by
  refine .of_current hc (by rw [hbrace.2]; decide) ?_
  unfold block
  rw [current_bind_run, advance_bind_run, bind_run]
  cases hrun : statements true (statement expr) steps c.advance with
  | exhausted => trivial
  | failed c₁ found => exact absurd hrun (statements_ne_failed _ _ _ _)
  | done body c₁ found =>
      obtain ⟨hwithin, htrail, ts, hahead, hfits⟩ :=
        accounted_statements ho hexpr hc.advance hrun
      have h₁ := hc.advance.within hwithin
      have hwithin := c.within_advance.trans hwithin
      dsimp only
      rw [current_bind_run]
      by_cases heof : c₁.current.kind = .eof
      · -- The end of the text has no token behind it, so nothing was found further on.
        rw [if_pos heof]
        refine ⟨hwithin, htrail.trans (.single ?_ (.refl _))⟩
        rw [h₁.advance_eq_of_eof heof]
        rfl
      · rw [if_neg heof]
        have hlast := Cursor.ahead_eq_of_current h₁.closed heof
        show (Reply.done (Block.mk c.current body) c₁ (found ++ [])).Accounted o c c.advance _
        rw [List.append_nil]
        refine ⟨hwithin, htrail, ts ++ [c₁.current], ⟨?_, hwithin.final_eq⟩, fun hfound => ?_⟩
        · rw [hahead, hlast, List.append_assoc]
          rfl
        -- The opening brace is kept as the block's token, and the closing one is left out.
        · have hbody := (hfits hfound).append [c₁.current]
          exact ⟨hbody.tokens.cons_cons _, hbrace, hbody.readOff⟩

/-- A block that starts with the next token. -/
theorem accounted_block_behind (ho : o.Lexed) (hexpr : Accounting o expr) (steps : Nat)
    (hc : c.Inside o) (hbrace : o.Has .leftBrace c.next) :
    (block steps expr c.advance).Accounted o c c.advance fun b ts => (Phrase.block b).Fits o ts :=
  (accounted_block ho hexpr steps hc.advance hbrace).of_within c.within_advance

/-! ### Operands and suffixes -/

/-- The branch that may follow the first one. -/
theorem accounted_alternative (ho : o.Lexed) (hexpr : Accounting o expr) (steps : Nat)
    (hc : c.Inside o) :
    (alternative steps expr c).Accounted o c c.advance fun a ts => (Phrase.branch a).Fits o ts := by
  unfold alternative
  rw [nextIs_bind_run]
  split
  · next helse =>
      rw [advance_bind_run]
      refine .of_next hc (by rw [eq_of_beq helse]; decide) ?_
      refine .expect_onto hc.advance (by decide) fun hbrace => ?_
      refine .map (accounted_block_behind ho hexpr steps hc.advance hbrace) fun b ts hb => ?_
      exact ⟨hb.tokens.cons _, hb.readOff⟩
  · exact .done ⟨.slnil, trivial⟩

/-- A function or a macro, from the token behind its keyword on. -/
theorem accounted_lambda (ho : o.Lexed) (hexpr : Accounting o expr) (steps : Nat) {token : Token}
    {kind : LambdaKind} (htoken : o.Has kind.tokenKind token) (hc : c.Inside o) :
    (lambda steps expr token kind c).Accounted o c c.advance fun e ts =>
      (Phrase.expr .lowest e).Fits o (token :: ts) := by
  unfold lambda
  refine .expect hc (by decide) fun _ => ?_
  refine .bind hc.advance (accounted_params steps hc.advance) fun names c₁ h₁ => ?_
  refine .expect_onto h₁ (by decide) fun hbrace => ?_
  refine .map (accounted_block_behind ho hexpr steps h₁ hbrace) fun b bs hb ns hnames => ?_
  refine ⟨List.Sublist.cons_cons _ (.cons _ ?_), htoken, hnames.readOff, hb.readOff⟩
  exact hb.tokens.trans (List.sublist_append_right ns bs)

/-- An operand, whose literal is the one of its token. -/
theorem accounted_operand (ho : o.Lexed) (hexpr : Accounting o expr) (steps : Nat)
    (hc : c.Inside o) :
    (operand steps expr c).Accounted o c c fun e ts => (Phrase.expr .lowest e).Fits o ts := by
  by_cases heof : c.current.kind = .eof
  · rw [operand_run, heof]
    exact .failed_current rfl
  have hhas {kind : TokenKind} (h : c.current.kind = kind) : o.Has kind c.current :=
    hc.has_current h (h ▸ heof)
  -- An operand of one token has nothing else to account for.
  have hself {e : Expr} (h : e.tokens = [c.current] ∧ e.ReadOff o) :
      (Reply.done e c []).Accounted o c c fun e ts => (Phrase.expr .lowest e).Fits o ts := by
    refine .of_current hc heof (.done ⟨?_, h.2⟩)
    show e.tokens.Sublist [c.current]
    rw [h.1]
  rw [operand_run]
  cases hkind : c.current.kind with
  | ident => exact hself ⟨rfl, hhas hkind, rfl⟩
  | string => exact hself ⟨rfl, hhas hkind, rfl⟩
  | trueWord => exact hself ⟨rfl, hhas hkind⟩
  | falseWord => exact hself ⟨rfl, hhas hkind⟩
  | int =>
      cases hread : Text.readInt? c.current.literal with
      | some n => exact hself ⟨rfl, ho.int _ n (hhas hkind) hread⟩
      | none => exact .failed_current rfl
  | bang | minus =>
      refine .of_current hc heof (.map (hexpr.behind .unary hc) fun right ts he => ?_)
      exact ⟨he.tokens.cons_cons _, hhas hkind, he.readOff⟩
  | leftParen =>
      refine .of_current hc heof (.bind hc (hexpr.behind .lowest hc) fun inner c₁ h₁ => ?_)
      exact .expect h₁ (by decide) fun _ => .done fun ts he => (he.append _).cons _
  | ifWord =>
      refine .of_current hc heof ?_
      refine .bind hc (hexpr.behind .lowest hc) fun condition c₁ h₁ => ?_
      refine .expect_onto h₁ (by decide) fun hbrace => ?_
      refine .bind h₁ (accounted_block_behind ho hexpr steps h₁ hbrace) fun consequence c₂ h₂ => ?_
      refine .map (accounted_alternative ho hexpr steps h₂) fun a as ha bs hb cs hcond => ?_
      have htokens := ((hcond.tokens.append (hb.tokens.append ha.tokens))).cons_cons c.current
      rw [← List.append_assoc, ← List.cons_append, ← List.cons_append] at htokens
      exact ⟨htokens, hhas hkind, hcond.readOff, hb.readOff, ha.readOff⟩
  | fnWord => exact .of_current hc heof (accounted_lambda ho hexpr steps (hhas hkind) hc)
  | macroWord => exact .of_current hc heof (accounted_lambda ho hexpr steps (hhas hkind) hc)
  | leftBracket =>
      refine .of_current hc heof ?_
      refine .map (accounted_items hexpr steps (by decide) hc) fun es ts hes => ?_
      exact ⟨hes.tokens.cons_cons _, hhas hkind, hes.readOff⟩
  | leftBrace =>
      refine .of_current hc heof ?_
      refine .bind hc (accounted_pairs hexpr steps hc) fun entries c₁ h₁ => ?_
      refine .expect h₁ (by decide) fun _ => .done fun ts hentries => ?_
      have hentries := hentries.append [c₁.next]
      exact ⟨hentries.tokens.cons_cons _, hhas hkind, hentries.readOff⟩
  | _ => exact .failed_current rfl

/-- A suffix, from its first token on. It takes the tokens behind those
of the expression in front. -/
theorem accounted_suffix (hexpr : Accounting o expr) (steps : Nat) (left : Expr) {s : Suffix}
    (hc : c.Inside o) (hs : Suffix.ofKind? c.current.kind = some s) :
    (suffix steps expr left s c).Accounted o c c fun e ts =>
      ∀ ls, (Phrase.expr .lowest left).Fits o ls → (Phrase.expr .lowest e).Fits o (ls ++ ts) := by
  have hne := Suffix.ne_eof_of_ofKind? hs
  refine .of_current hc hne ?_
  rw [suffix_run]
  cases s with
  | operator op =>
      have htoken := hc.has_current (Suffix.ofKind?_eq_operator hs)
        (Suffix.ofKind?_eq_operator hs ▸ hne)
      refine .map (hexpr.behind op.level hc) fun right ts hright ls hleft => ?_
      exact ⟨hleft.tokens.append (hright.tokens.cons_cons _), htoken, hleft.readOff,
        hright.readOff⟩
  -- The parenthesis that opens the arguments is the token of the call.
  | arguments =>
      have htoken := hc.has_current (Suffix.ofKind?_eq_arguments hs) (by decide)
      refine .map (accounted_items hexpr steps (by decide) hc) fun args ts hargs ls hleft => ?_
      exact ⟨hleft.tokens.append (hargs.tokens.cons_cons _), htoken, hleft.readOff,
        hargs.readOff⟩
  | index =>
      have htoken := hc.has_current (Suffix.ofKind?_eq_index hs) (by decide)
      refine .bind hc (hexpr.behind .lowest hc) fun i c₁ h₁ => ?_
      refine .expect h₁ (by decide) fun _ => .done fun ts hi ls hleft => ?_
      have hi := hi.append [c₁.next]
      exact ⟨hleft.tokens.append (hi.tokens.cons_cons _), htoken, hleft.readOff, hi.readOff⟩

/-- The suffixes of an expression, whose tokens follow those of the
expression. -/
theorem accounted_suffixes (hexpr : Accounting o expr) (steps : Nat) (level : Level) (k : Nat)
    (e : Expr) (hc : c.Inside o) :
    (suffixes steps expr level k e c).Accounted o c c.advance fun e' ts =>
      ∀ ls, (Phrase.expr .lowest e).Fits o ls → (Phrase.expr .lowest e').Fits o (ls ++ ts) := by
  induction k generalizing c e with
  | zero => trivial
  | succ k ih =>
      have hself : (Reply.done e c []).Accounted o c c.advance fun e' ts => ∀ ls,
          (Phrase.expr .lowest e).Fits o ls → (Phrase.expr .lowest e').Fits o (ls ++ ts) :=
        .done fun ls he => he.append []
      rw [suffixes_run]
      split
      · exact hself
      · next s hs =>
          split
          · have hsuffix := (accounted_suffix hexpr steps e hc.advance hs).of_within
              c.within_advance
            refine .bind hc hsuffix fun e₁ c₁ h₁ => (ih e₁ h₁).mono ?_
            -- The tokens of one suffix stand between the expression and the other suffixes.
            intro e₂ us he₂ ts he₁ ls he
            rw [← List.append_assoc]
            exact he₂ _ (he₁ ls he)
          · exact hself

/-! ### Expressions and programs -/

/-- Expressions, whatever the number of steps. -/
theorem accounting_readExpr (ho : o.Lexed) (n : Nat) : Accounting o (readExpr n) := by
  induction n with
  | zero => exact fun _ _ _ => trivial
  | succ n ih =>
      intro level c hc
      show (exprWith n (readExpr n) level c).Accounted o c c _
      unfold exprWith
      refine .bind hc (accounted_operand ho ih n hc) fun e c₁ h₁ => ?_
      exact (accounted_suffixes ih n level n e h₁).mono fun e' us he' ts he => he' ts he

end Reader

end QuoteScript
