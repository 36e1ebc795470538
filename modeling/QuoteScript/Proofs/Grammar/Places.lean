import QuoteScript.Proofs.Grammar.Reading
import QuoteScript.Proofs.Token.Lexemes
import QuoteScript.Proofs.Tree.Alike

/-!
# `QuoteScript.Proofs.Grammar.Places`: readers do not look at places

A reader looks at the kinds and the literals of its tokens. It copies
their places into the tree and into what it reports, and never asks for
them. So two lists of tokens that differ in nothing else are read in the
same way: the trees are the same up to tokens, and so is what is
reported up to places.

Both readings take the same steps. Each reader has one lemma here, which
goes through it once for both of them.

* `Reader.Moved`: two readers that take the same steps.
* `readExpr_moved`: expressions, by induction on the steps.
* `parseTokens_moved`: whole programs.
-/

set_option autoImplicit false

namespace QuoteScript

variable {α β γ δ : Type}

/-- What is wrong, wherever it is. -/
def Diagnostic.unplaced : Diagnostic → Diagnostic
  | unexpectedToken expected found _ => unexpectedToken expected found {}
  | noExpression found _ => noExpression found {}
  | invalidInteger literal _ => invalidInteger literal {}

/-- Tokens of the same kind and with the same literal, whatever they
stand for. -/
def TokenRelation.moved : TokenRelation :=
  fun _ t t' => t.core = t'.core

/-- Places in two lists of tokens that go on with the same kinds and
literals. -/
structure Cursor.Moved (c c' : Cursor) : Prop where
  ahead : c.ahead.map Token.core = c'.ahead.map Token.core
  final : c.final.core = c'.final.core

namespace Cursor.Moved

variable {c c' : Cursor}

/-- The same holds of their first tokens, or of the tokens that stand in
for them. -/
theorem headD {ts ts' : List Token} {t t' : Token} (h : ts.map Token.core = ts'.map Token.core)
    (ht : t.core = t'.core) : (ts.headD t).core = (ts'.headD t').core := by
  cases ts with
  | nil =>
      cases ts' with
      | nil => exact ht
      | cons u' us' => cases h
  | cons u us =>
      cases ts' with
      | nil => cases h
      | cons u' us' => exact (List.cons.inj h).1

/-- The current tokens agree up to their places. -/
theorem current (h : c.Moved c') : c.current.core = c'.current.core :=
  headD h.ahead h.final

/-- Both readings move on by one token. -/
theorem advance (h : c.Moved c') : c.advance.Moved c'.advance where
  ahead := by
    show c.ahead.tail.map _ = c'.ahead.tail.map _
    rw [List.map_tail, List.map_tail, h.ahead]
  final := h.final

/-- The next tokens agree up to their places, too. -/
theorem next (h : c.Moved c') : c.next.core = c'.next.core :=
  h.advance.current

end Cursor.Moved

/-- Replies of two readers that have taken the same steps, and whose
values have the property `P`. -/
inductive Reply.Moved (P : α → β → Prop) : Reply α → Reply β → Prop where
  | done {a : α} {b : β} {c c' : Cursor} {found found' : List Diagnostic} (h : P a b)
      (hc : c.Moved c') (hfound : found.map Diagnostic.unplaced = found'.map Diagnostic.unplaced) :
      Moved P (.done a c found) (.done b c' found')
  | failed {c c' : Cursor} {found found' : List Diagnostic} (hc : c.Moved c')
      (hfound : found.map Diagnostic.unplaced = found'.map Diagnostic.unplaced) :
      Moved P (.failed c found) (.failed c' found')
  | exhausted : Moved P .exhausted .exhausted

namespace Reader

/-- Two readers take the same steps, and their values have the property
`P`. -/
def Moved (read : Reader α) (read' : Reader β) (P : α → β → Prop) : Prop :=
  ∀ c c', c.Moved c' → (read c).Moved P (read' c')

namespace Moved

/-- Two answers that are there. -/
theorem pure {P : α → β → Prop} {a : α} {b : β} (h : P a b) :
    Moved (Pure.pure a) (Pure.pure b) P :=
  fun _ _ hc => .done h hc rfl

/-- Errors found in front agree up to places, as those behind them do. -/
theorem after {P : α → β → Prop} {found found' : List Diagnostic}
    (hfound : found.map Diagnostic.unplaced = found'.map Diagnostic.unplaced)
    {reply : Reply α} {reply' : Reply β} (h : reply.Moved P reply') :
    (Reader.after found reply).Moved P (Reader.after found' reply') := by
  cases h with
  | done h hc hmore =>
      exact .done h hc (by rw [List.map_append, List.map_append, hfound, hmore])
  | failed hc hmore => exact .failed hc (by rw [List.map_append, List.map_append, hfound, hmore])
  | exhausted => exact .exhausted

/-- Two readings in sequence, in the same steps. -/
theorem bind {P : α → β → Prop} {Q : γ → δ → Prop} {read : Reader α} {read' : Reader β}
    {next : α → Reader γ} {next' : β → Reader δ} (hread : Moved read read' P)
    (hnext : ∀ a b, P a b → Moved (next a) (next' b) Q) :
    Moved (read >>= next) (read' >>= next') Q := by
  intro c c' hc
  rw [bind_run, bind_run]
  have hreply := hread c c' hc
  generalize read c = reply, read' c' = reply' at hreply
  cases hreply with
  | done h hc₁ hfound => exact after hfound (hnext _ _ h _ _ hc₁)
  | failed hc₁ hfound => exact .failed hc₁ hfound
  | exhausted => exact .exhausted

/-- The same choice in both readings. -/
theorem ite {P : α → β → Prop} {p q : Prop} [Decidable p] [Decidable q] (hpq : p ↔ q)
    {yes no : Reader α} {yes' no' : Reader β} (hyes : Moved yes yes' P) (hno : Moved no no' P) :
    Moved (if p then yes else no) (if q then yes' else no') P := by
  by_cases hp : p
  · rw [if_pos hp, if_pos (hpq.mp hp)]
    exact hyes
  · rw [if_neg hp, if_neg fun hq => hp (hpq.mpr hq)]
    exact hno

end Moved

/-! ### Steps -/

/-- Two tokens of the same kind and with the same literal. -/
abbrev SameCore (t t' : Token) : Prop :=
  t.core = t'.core

/-- The core of a token has its kind. -/
theorem SameCore.kind {t t' : Token} (h : SameCore t t') : t.kind = t'.kind :=
  congrArg Prod.fst h

/-- It has its literal. -/
theorem SameCore.literal {t t' : Token} (h : SameCore t t') : t.literal = t'.literal :=
  congrArg Prod.snd h

/-- The current token, up to its place. -/
theorem current_moved : Moved current current SameCore :=
  fun _ _ hc => .done hc.current hc rfl

/-- The next token, up to its place. -/
theorem next_moved : Moved next next SameCore :=
  fun _ _ hc => .done hc.next hc rfl

/-- A step forward. -/
theorem advance_moved : Moved advance advance Eq :=
  fun _ _ hc => .done rfl hc.advance rfl

/-- A report of the same error, up to its place. -/
theorem report_moved {d d' : Diagnostic} (h : d.unplaced = d'.unplaced) :
    Moved (report d) (report d') Eq :=
  fun _ _ hc => .done rfl hc (congrArg ([·]) h)

/-- A failure without a report. -/
theorem fail_moved {P : α → β → Prop} : Moved fail fail P :=
  fun _ _ hc => .failed hc rfl

/-- A failure with the same report, up to its place. -/
theorem failWith_moved {P : α → β → Prop} {d d' : Diagnostic} (h : d.unplaced = d'.unplaced) :
    Moved (failWith d) (failWith d') P :=
  fun _ _ hc => .failed hc (congrArg ([·]) h)

/-- Both readers run out of steps. -/
theorem exhausted_moved {P : α → β → Prop} : Moved exhausted exhausted P :=
  fun _ _ _ => .exhausted

/-- A failure is caught on both sides. -/
theorem attempt_moved {P : α → β → Prop} {read : Reader α} {read' : Reader β}
    (h : Moved read read' P) : Moved (attempt read) (attempt read') (Option.Rel P) := by
  intro c c' hc
  have hreply := h c c' hc
  unfold attempt
  generalize read c = reply, read' c' = reply' at hreply
  cases hreply with
  | done h hc₁ hfound => exact .done (.some h) hc₁ hfound
  | failed hc₁ hfound => exact .done .none hc₁ hfound
  | exhausted => exact .exhausted

/-- An answer that is not needed. -/
theorem discard_moved {P : α → β → Prop} {read : Reader α} {read' : Reader β}
    (h : Moved read read' P) : Moved (discard read) (discard read') Eq :=
  h.bind fun _ _ _ => .pure rfl

/-- Kinds agree, so both readers see the same kind or neither does. -/
theorem nextIs_moved (kind : TokenKind) : Moved (nextIs kind) (nextIs kind) Eq :=
  next_moved.bind fun _ _ h => .pure (congrArg (fun core => core.1 == kind) h)

/-- A token is accepted on both sides, or reported on both. -/
theorem accept_moved (kind : TokenKind) : Moved (accept kind) (accept kind) Eq := by
  refine next_moved.bind fun t t' ht => ?_
  refine .ite (by rw [ht.kind]) ?_ ?_
  · exact advance_moved.bind fun _ _ _ => .pure rfl
  · refine (report_moved ?_).bind fun _ _ _ => .pure rfl
    rw [ht.kind]
    rfl

/-- The same, where a wrong token is a failure. -/
theorem expect_moved (kind : TokenKind) : Moved (expect kind) (expect kind) Eq := by
  refine (accept_moved kind).bind fun accepted _ h => ?_
  subst h
  exact .ite Iff.rfl (.pure rfl) fail_moved

/-- A choice by the kind of the next token. -/
theorem Moved.nextIs {P : α → β → Prop} {kind : TokenKind} {yes no : Reader α}
    {yes' no' : Reader β} (hyes : Moved yes yes' P) (hno : Moved no no' P) :
    Moved (Reader.nextIs kind >>= fun b => if b = true then yes else no)
      (Reader.nextIs kind >>= fun b => if b = true then yes' else no') P := by
  refine (nextIs_moved kind).bind fun b _ h => ?_
  subst h
  exact .ite Iff.rfl hyes hno

/-- A token that is due. -/
theorem Moved.expect {P : α → β → Prop} {kind : TokenKind} {next : Unit → Reader α}
    {next' : Unit → Reader β} (h : Moved (next ()) (next' ()) P) :
    Moved (Reader.expect kind >>= next) (Reader.expect kind >>= next') P :=
  (expect_moved kind).bind fun _ _ _ => h

/-- A step over a token. -/
theorem Moved.advance {P : α → β → Prop} {next : Unit → Reader α} {next' : Unit → Reader β}
    (h : Moved (next ()) (next' ()) P) :
    Moved (Reader.advance >>= next) (Reader.advance >>= next') P :=
  advance_moved.bind fun _ _ _ => h

/-! ### Statements -/

/-- Two readers of expressions that take the same steps. -/
def ExprsMoved (expr expr' : Level → Reader Expr) : Prop :=
  ∀ level, Moved (expr level) (expr' level) fun e e' => Alike .moved (.expr e) (.expr e')

/-- A semicolon is skipped on both sides, or there is none. -/
theorem skipSemicolon_moved : Moved skipSemicolon skipSemicolon Eq :=
  .nextIs advance_moved (.pure rfl)

section Readers

variable {expr expr' : Level → Reader Expr} (h : ExprsMoved expr expr')

include h

/-- A value and the semicolon that may stand behind it. -/
theorem value_moved {P : α → β → Prop} {make : Expr → α} {make' : Expr → β}
    (hmake : ∀ e e', Alike .moved (.expr e) (.expr e') → P (make e) (make' e')) :
    Moved (expr .lowest >>= fun value => skipSemicolon >>= fun _ => Pure.pure (make value))
      (expr' .lowest >>= fun value => skipSemicolon >>= fun _ => Pure.pure (make' value)) P :=
  (h .lowest).bind fun e e' he => skipSemicolon_moved.bind fun _ _ _ => .pure (hmake e e' he)

/-- A binding, well formed or not. -/
theorem letStatement_moved : Moved (letStatement expr) (letStatement expr')
    fun s s' => Alike .moved (.stmt s) (.stmt s') := by
  unfold letStatement
  dsimp only
  refine current_moved.bind fun t t' ht => ?_
  refine (accept_moved .ident).bind fun named _ hnamed => ?_
  subst hnamed
  refine current_moved.bind fun n n' hn => ?_
  rw [hn.literal]
  generalize (if named = true then n'.literal else "") = name
  -- The value is read in the same way whatever is missing in front of it.
  refine .nextIs (.advance ?rest)
    (.ite Iff.rfl ((discard_moved (accept_moved _)).bind fun _ _ _ => ?rest) ?rest)
  refine current_moved.bind fun a a' ha => .advance (current_moved.bind fun b b' hb => ?_)
  rw [ha.kind, hb.kind]
  refine .ite Iff.rfl ?value ((fail_moved (P := Eq)).bind fun _ _ _ => ?value)
  exact value_moved h fun _ _ he => .letIn ht he

/-- The kind of the first token says what statement is read. -/
theorem statement_moved : Moved (statement expr) (statement expr')
    fun s s' => Alike .moved (.stmt s) (.stmt s') := by
  refine current_moved.bind fun t t' ht => ?_
  rw [← ht.kind]
  cases t.kind with
  | letWord => exact letStatement_moved h
  | returnWord => exact .advance (value_moved h fun _ _ he => .ret ht he)
  | _ => exact value_moved h fun _ _ he => .value ht he

omit h in
/-- Broken statements are skipped in both texts. -/
theorem recover_moved (inBlock : Bool) : Moved (recover inBlock) (recover inBlock) Eq := by
  intro c c' hc
  refine .done rfl ⟨?_, hc.final⟩ rfl
  show (behindBroken inBlock c.ahead).map _ = (behindBroken inBlock c'.ahead).map _
  have hahead := hc.ahead
  generalize c.ahead = ts, c'.ahead = ts' at hahead
  induction ts generalizing ts' with
  | nil =>
      cases ts' with
      | nil => rfl
      | cons t' ts' => cases hahead
  | cons t ts ih =>
      cases ts' with
      | nil => cases hahead
      | cons t' ts' =>
          obtain ⟨ht, hts⟩ := List.cons.inj hahead
          -- Where to go on is decided by the kind of the token.
          rw [behindBroken, behindBroken, SameCore.kind ht]
          split
          · exact hts
          · split
            · exact hahead
            · exact ih ts' hts

omit h in
/-- A list of statements, with the broken ones skipped in the same
places. -/
theorem statements_moved {stmt stmt' : Reader Stmt}
    (hstmt : Moved stmt stmt' fun s s' => Alike .moved (.stmt s) (.stmt s')) (inBlock : Bool)
    (steps : Nat) :
    Moved (statements inBlock stmt steps) (statements inBlock stmt' steps)
      fun ss ss' => Alike .moved (.body ss) (.body ss') := by
  induction steps with
  | zero => exact exhausted_moved
  | succ steps ih =>
      refine current_moved.bind fun t t' ht => ?_
      refine .ite (by rw [ht.kind]) (.pure .noStmts) ?_
      refine (attempt_moved hstmt).bind fun s s' hs => ?_
      cases hs with
      | some hs =>
          exact .advance (ih.bind fun _ _ hrest => .pure (.stmts hs hrest))
      -- A broken statement is skipped up to a token of the same kind on both sides.
      | none => exact (recover_moved inBlock).bind fun _ _ _ => ih

/-! ### Blocks and lists -/

/-- A block, closed or not. -/
theorem block_moved (steps : Nat) : Moved (block steps expr) (block steps expr')
    fun b b' => Alike .moved (.block b) (.block b') := by
  refine current_moved.bind fun t t' ht => .advance ?_
  refine (statements_moved (statement_moved h) true steps).bind fun body body' hbody => ?_
  refine current_moved.bind fun u u' hu => ?_
  -- A block that is not closed is reported, and kept all the same.
  have hblock : Moved (pure (.mk t body)) (pure (.mk t' body'))
      fun b b' => Alike .moved (.block b) (.block b') := .pure (.block ht hbody)
  have hreport : (Diagnostic.unexpectedToken .rightBrace .eof u.span).unplaced
      = (Diagnostic.unexpectedToken .rightBrace .eof u'.span).unplaced := rfl
  refine .ite (by rw [hu.kind]) ?_ hblock
  exact (failWith_moved (P := Eq) hreport).bind fun _ _ _ => hblock

/-- The expressions behind the first one. -/
theorem moreItems_moved (steps : Nat) : Moved (moreItems expr steps) (moreItems expr' steps)
    fun es es' => Alike .moved (.exprs es) (.exprs es') := by
  induction steps with
  | zero => exact exhausted_moved
  | succ steps ih =>
      refine .nextIs (.advance (.advance ?_)) (.pure .noExprs)
      exact (h .lowest).bind fun _ _ he => ih.bind fun _ _ hes => .pure (.exprs he hes)

/-- A list of expressions. -/
theorem items_moved (steps : Nat) (close : TokenKind) :
    Moved (items steps expr close) (items steps expr' close)
      fun es es' => Alike .moved (.exprs es) (.exprs es') := by
  refine .nextIs (.advance (.pure .noExprs)) (.advance ?_)
  refine (h .lowest).bind fun e e' he => ?_
  exact (moreItems_moved h steps).bind fun es es' hes => .expect (.pure (.exprs he hes))

omit h in
/-- The names behind the first one: names are literals, and the same. -/
theorem moreParams_moved (steps : Nat) : Moved (moreParams steps) (moreParams steps) Eq := by
  induction steps with
  | zero => exact exhausted_moved
  | succ steps ih =>
      refine .nextIs (.advance (.expect ?_)) (.pure rfl)
      refine current_moved.bind fun t t' ht => ih.bind fun rest _ hrest => ?_
      subst hrest
      exact .pure (congrArg (fun core => core.2 :: rest) ht)

omit h in
/-- A list of parameters. -/
theorem params_moved (steps : Nat) : Moved (params steps) (params steps) Eq := by
  refine .nextIs (.advance (.pure rfl)) (.expect ?_)
  refine current_moved.bind fun t t' ht => (moreParams_moved steps).bind fun rest _ hrest => ?_
  subst hrest
  exact .expect (.pure (congrArg (fun core => core.2 :: rest) ht))

/-- The pairs of a dict. -/
theorem pairs_moved (steps : Nat) : Moved (pairs expr steps) (pairs expr' steps)
    fun ps ps' => Alike .moved (.pairs ps) (.pairs ps') := by
  induction steps with
  | zero => exact exhausted_moved
  | succ steps ih =>
      refine .nextIs (.pure .noPairs) (.advance ?_)
      refine (h .lowest).bind fun k k' hk => .expect (.advance ?_)
      refine (h .lowest).bind fun v v' hv => ?_
      refine .nextIs ?rest ((expect_moved .comma).bind fun _ _ _ => ?rest)
      exact ih.bind fun _ _ hrest => .pure (.pairs hk hv hrest)

/-- What stands behind `else`, if it does. -/
theorem alternative_moved (steps : Nat) : Moved (alternative steps expr) (alternative steps expr')
    fun b b' => Alike .moved (.branch b) (.branch b') := by
  refine .nextIs (.advance (.expect ?_)) (.pure .noBranch)
  exact (block_moved h steps).bind fun _ _ hb => .pure (.branch hb)

/-- A function or a macro. -/
theorem lambda_moved (steps : Nat) {t t' : Token} (ht : SameCore t t') (kind : LambdaKind) :
    Moved (lambda steps expr t kind) (lambda steps expr' t' kind)
      fun e e' => Alike .moved (.expr e) (.expr e') := by
  refine .expect ((params_moved steps).bind fun ps _ hps => .expect ?_)
  subst hps
  exact (block_moved h steps).bind fun _ _ hb => .pure (.lambda ht hb)

/-! ### Expressions -/

/-- The kind of the current token says what operand is read. -/
theorem operand_moved (steps : Nat) : Moved (operand steps expr) (operand steps expr')
    fun e e' => Alike .moved (.expr e) (.expr e') := by
  refine current_moved.bind fun t t' ht => ?_
  rw [← ht.kind, ← ht.literal]
  cases t.kind with
  | ident => exact .pure (.ident ht)
  | int =>
      -- Whether a literal is an integer is asked of its text, which is the same.
      dsimp only
      cases Text.readInt? t.literal with
      | some value => exact .pure (.int ht)
      | none => exact failWith_moved rfl
  | string => exact .pure (.str ht)
  | trueWord | falseWord => exact .pure (.bool ht)
  | bang | minus => exact .advance ((h .unary).bind fun _ _ he => .pure (.unary ht he))
  | leftParen => exact .advance ((h .lowest).bind fun _ _ he => .expect (.pure he))
  | ifWord =>
      refine .advance ((h .lowest).bind fun c c' hc => .expect ?_)
      refine (block_moved h steps).bind fun b b' hb => ?_
      exact (alternative_moved h steps).bind fun _ _ ha => .pure (.cond ht hc hb ha)
  | fnWord => exact lambda_moved h steps ht .function
  | macroWord => exact lambda_moved h steps ht .macroRule
  | leftBracket =>
      exact (items_moved h steps .rightBracket).bind fun _ _ hes => .pure (.array ht hes)
  | leftBrace => exact (pairs_moved h steps).bind fun _ _ hps => .expect (.pure (.dict ht hps))
  | _ => exact failWith_moved rfl

/-- One suffix of an expression. -/
theorem suffix_moved (steps : Nat) {left left' : Expr}
    (hleft : Alike .moved (.expr left) (.expr left')) (s : Suffix) :
    Moved (suffix steps expr left s) (suffix steps expr' left' s) fun e e' =>
      Alike .moved (.expr e) (.expr e') := by
  cases s with
  | operator op =>
      refine current_moved.bind fun t t' ht => .advance ?_
      exact (h op.level).bind fun _ _ he => .pure (.binary ht hleft he)
  | arguments =>
      refine current_moved.bind fun t t' ht => ?_
      exact (items_moved h steps .rightParen).bind fun _ _ hes => .pure (.call ht hleft hes)
  | index =>
      refine current_moved.bind fun t t' ht => .advance ?_
      exact (h .lowest).bind fun _ _ hi => .expect (.pure (.index ht hleft hi))

/-- Suffixes are taken as long as they bind tightly enough, which is a
matter of kinds. -/
theorem suffixes_moved (steps : Nat) (level : Level) (k : Nat) {e e' : Expr}
    (he : Alike .moved (.expr e) (.expr e')) :
    Moved (suffixes steps expr level k e) (suffixes steps expr' level k e')
      fun e e' => Alike .moved (.expr e) (.expr e') := by
  induction k generalizing e e' with
  | zero => exact exhausted_moved
  | succ k ih =>
      refine next_moved.bind fun t t' ht => ?_
      rw [← ht.kind]
      cases Suffix.ofKind? t.kind with
      | none => exact .pure he
      | some s =>
          refine .ite Iff.rfl (.advance ?_) (.pure he)
          exact (suffix_moved h steps he s).bind fun _ _ he => ih he

/-- An operand and its suffixes. -/
theorem exprWith_moved (steps : Nat) : ExprsMoved (exprWith steps expr) (exprWith steps expr') :=
  fun level => (operand_moved h steps).bind fun _ _ he => suffixes_moved h steps level steps he

end Readers

/-- An expression is read in the same steps wherever it stands. -/
theorem readExpr_moved (steps : Nat) : ExprsMoved (readExpr steps) (readExpr steps) := by
  induction steps with
  | zero => exact fun _ => exhausted_moved
  | succ steps ih => exact exprWith_moved ih steps

/-- A program is a list of statements outside of any block. -/
theorem program_moved (steps : Nat) : Moved (program steps) (program steps)
    fun p p' => Alike .moved (.body p) (.body p') :=
  statements_moved (statement_moved (readExpr_moved steps)) false steps

end Reader

/-! ### Whole programs -/

/-- Lists of tokens with the same kinds and literals start at places
that go on with the same ones. -/
theorem Cursor.ofTokens_moved {ts ts' : List Token}
    (h : ts.map Token.core = ts'.map Token.core) :
    (Cursor.ofTokens ts).Moved (Cursor.ofTokens ts') := by
  have hahead (ts : List Token) : (ofTokens ts).ahead.map Token.core
      = (ts.map Token.core).takeWhile fun core => core.1 != .eof := by
    rw [List.takeWhile_map]
    rfl
  have hfinal (ts : List Token) : (ofTokens ts).final.core
      = ((ts.map Token.core).find? fun core => core.1 == .eof).getD (.eof, "") := by
    rw [List.find?_map]
    exact (Option.getD_map Token.core _ _).symm
  exact ⟨by rw [hahead, hahead, h], by rw [hfinal, hfinal, h]⟩

/-- Lists of tokens with the same kinds and literals are parsed as
programs that are the same up to tokens, and with the same errors up to
places. -/
theorem parseTokens_moved {ts ts' : List Token} (h : ts.map Token.core = ts'.map Token.core) :
    Alike .moved (.body (parseTokens ts).program) (.body (parseTokens ts').program) ∧
      (parseTokens ts).errors.map Diagnostic.unplaced
        = (parseTokens ts').errors.map Diagnostic.unplaced := by
  have hlength : ts.length = ts'.length := by
    rw [← List.length_map Token.core, h, List.length_map]
  have hreply := Reader.program_moved (ts.length + 1) _ _ (Cursor.ofTokens_moved h)
  -- The number of steps is taken from the number of tokens.
  unfold parseTokens
  rw [← hlength]
  generalize Reader.program (ts.length + 1) (.ofTokens ts) = reply,
    Reader.program (ts.length + 1) (.ofTokens ts') = reply' at hreply
  cases hreply with
  | done halike _ hfound => exact ⟨halike, hfound⟩
  | failed _ hfound => exact ⟨.noStmts, hfound⟩
  | exhausted => exact ⟨.noStmts, rfl⟩

end QuoteScript
