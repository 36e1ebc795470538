import QuoteScript.Proofs.Tree.Lexicon
import QuoteScript.Tree.Render
import QuoteScript.Tree.Same

/-!
# `QuoteScript.Proofs.Tree.Alike`: trees that differ in tokens

Two trees are *alike* if they have the same structure, and if their
tokens are related wherever the trees correspond. What is asked of two
tokens depends on what they stand for in the tree. If they have to be
equal, the trees are equal; if nothing is asked of them, the trees are
the same up to tokens.

Trees are nested in lists, and lists in trees. `Part` has one
constructor for each kind of part, so that a proof about alike trees is
one induction.

* `Alike.nodes`: alike nodes, by what they are.
* `Alike.refl`, `Alike.eq`, `Node.eq_of_alike`: tokens that have to be
  equal.
* `Alike.of_same`, `Alike.same`: trees that are the same up to tokens.
* `Alike.texts`: alike trees are rendered in the same way.
* `Alike.preserves_over`: alike trees are over the same lexicons.
-/

set_option autoImplicit false

namespace QuoteScript

/-- A part of a tree: a node of it, or a list inside a node. -/
inductive Part where
  | expr (e : Expr)
  | exprs (es : List Expr)
  | pairs (entries : List (Expr × Expr))
  /-- The branch that may follow the first one. -/
  | branch (alternative : Option Block)
  | block (b : Block)
  | stmt (s : Stmt)
  | body (body : List Stmt)

/-- What a token stands for in a tree. -/
inductive TokenRole where
  /-- A name or a string, which has a text of its own. -/
  | text (text : String)
  /-- Any other expression. -/
  | expr
  | block
  /-- A `let` or a `return`. -/
  | keyword
  /-- A statement that is an expression. -/
  | stmt

/-- What is asked of two tokens that stand for the same thing. -/
abbrev TokenRelation : Type :=
  TokenRole → Token → Token → Prop

/-- Two parts have the same structure, and related tokens. -/
inductive Alike (R : TokenRelation) : Part → Part → Prop where
  | ident {t t' : Token} {name : String} (ht : R (.text name) t t') :
      Alike R (.expr (.ident t name)) (.expr (.ident t' name))
  | int {t t' : Token} {n : Int64} (ht : R .expr t t') :
      Alike R (.expr (.int t n)) (.expr (.int t' n))
  | str {t t' : Token} {s : String} (ht : R (.text s) t t') :
      Alike R (.expr (.str t s)) (.expr (.str t' s))
  | bool {t t' : Token} {b : Bool} (ht : R .expr t t') :
      Alike R (.expr (.bool t b)) (.expr (.bool t' b))
  | unary {t t' : Token} {op : UnaryOp} {e e' : Expr} (ht : R .expr t t') :
      Alike R (.expr e) (.expr e') →
        Alike R (.expr (.unary t op e)) (.expr (.unary t' op e'))
  | binary {t t' : Token} {op : BinaryOp} {l l' r r' : Expr} (ht : R .expr t t') :
      Alike R (.expr l) (.expr l') → Alike R (.expr r) (.expr r') →
        Alike R (.expr (.binary t op l r)) (.expr (.binary t' op l' r'))
  | cond {t t' : Token} {c c' : Expr} {b b' : Block} {a a' : Option Block}
      (ht : R .expr t t') :
      Alike R (.expr c) (.expr c') → Alike R (.block b) (.block b') →
        Alike R (.branch a) (.branch a') →
        Alike R (.expr (.cond t c b a)) (.expr (.cond t' c' b' a'))
  | lambda {t t' : Token} {kind : LambdaKind} {params : List String} {b b' : Block}
      (ht : R .expr t t') :
      Alike R (.block b) (.block b') →
        Alike R (.expr (.lambda t kind params b)) (.expr (.lambda t' kind params b'))
  | call {t t' : Token} {f f' : Expr} {args args' : List Expr} (ht : R .expr t t') :
      Alike R (.expr f) (.expr f') → Alike R (.exprs args) (.exprs args') →
        Alike R (.expr (.call t f args)) (.expr (.call t' f' args'))
  | array {t t' : Token} {items items' : List Expr} (ht : R .expr t t') :
      Alike R (.exprs items) (.exprs items') →
        Alike R (.expr (.array t items)) (.expr (.array t' items'))
  | index {t t' : Token} {l l' i i' : Expr} (ht : R .expr t t') :
      Alike R (.expr l) (.expr l') → Alike R (.expr i) (.expr i') →
        Alike R (.expr (.index t l i)) (.expr (.index t' l' i'))
  | dict {t t' : Token} {entries entries' : List (Expr × Expr)} (ht : R .expr t t') :
      Alike R (.pairs entries) (.pairs entries') →
        Alike R (.expr (.dict t entries)) (.expr (.dict t' entries'))
  -- Lists.
  | noExprs : Alike R (.exprs []) (.exprs [])
  | exprs {e e' : Expr} {es es' : List Expr} :
      Alike R (.expr e) (.expr e') → Alike R (.exprs es) (.exprs es') →
        Alike R (.exprs (e :: es)) (.exprs (e' :: es'))
  | noPairs : Alike R (.pairs []) (.pairs [])
  | pairs {k k' v v' : Expr} {entries entries' : List (Expr × Expr)} :
      Alike R (.expr k) (.expr k') → Alike R (.expr v) (.expr v') →
        Alike R (.pairs entries) (.pairs entries') →
        Alike R (.pairs ((k, v) :: entries)) (.pairs ((k', v') :: entries'))
  -- Blocks and statements.
  | noBranch : Alike R (.branch none) (.branch none)
  | branch {b b' : Block} :
      Alike R (.block b) (.block b') → Alike R (.branch (some b)) (.branch (some b'))
  | block {t t' : Token} {body body' : List Stmt} (ht : R .block t t') :
      Alike R (.body body) (.body body') →
        Alike R (.block (.mk t body)) (.block (.mk t' body'))
  | letIn {t t' : Token} {name : String} {e e' : Expr} (ht : R .keyword t t') :
      Alike R (.expr e) (.expr e') →
        Alike R (.stmt (.letIn t name e)) (.stmt (.letIn t' name e'))
  | ret {t t' : Token} {e e' : Expr} (ht : R .keyword t t') :
      Alike R (.expr e) (.expr e') → Alike R (.stmt (.ret t e)) (.stmt (.ret t' e'))
  | value {t t' : Token} {e e' : Expr} (ht : R .stmt t t') :
      Alike R (.expr e) (.expr e') → Alike R (.stmt (.expr t e)) (.stmt (.expr t' e'))
  | noStmts : Alike R (.body []) (.body [])
  | stmts {s s' : Stmt} {body body' : List Stmt} :
      Alike R (.stmt s) (.stmt s') → Alike R (.body body) (.body body') →
        Alike R (.body (s :: body)) (.body (s' :: body'))

/-- The part of a tree that a node is. -/
def Node.part : Node → Part
  | .program p => .body p
  | .stmt s => .stmt s
  | .block b => .block b
  | .expr e => .expr e

variable {R : TokenRelation}

/-- Two alike nodes, by what they are. -/
inductive NodesAlike (R : TokenRelation) : Node → Node → Prop where
  | program {p p' : Program} (h : Alike R (.body p) (.body p')) :
      NodesAlike R (.program p) (.program p')
  | stmt {s s' : Stmt} (h : Alike R (.stmt s) (.stmt s')) : NodesAlike R (.stmt s) (.stmt s')
  | block {b b' : Block} (h : Alike R (.block b) (.block b')) : NodesAlike R (.block b) (.block b')
  | expr {e e' : Expr} (h : Alike R (.expr e) (.expr e')) : NodesAlike R (.expr e) (.expr e')

/-- Only nodes of one kind are alike. -/
theorem Alike.nodes {node node' : Node} (h : Alike R node.part node'.part) :
    NodesAlike R node node' := by
  -- The parts of nodes of two kinds are never alike.
  cases node with
  | program p =>
      cases node' with
      | program p' => exact .program h
      | _ => cases h
  | stmt s =>
      cases node' with
      | stmt s' => exact .stmt h
      | _ => cases h
  | block b =>
      cases node' with
      | block b' => exact .block h
      | _ => cases h
  | expr e =>
      cases node' with
      | expr e' => exact .expr h
      | _ => cases h

/-! ### Equal trees -/

mutual

/-- Every tree is like itself, if every token is related to itself. -/
theorem Expr.alike_refl (hR : ∀ role t, R role t t) : ∀ e : Expr, Alike R (.expr e) (.expr e)
  | .ident _ _ => .ident (hR _ _)
  | .int _ _ => .int (hR _ _)
  | .str _ _ => .str (hR _ _)
  | .bool _ _ => .bool (hR _ _)
  | .unary _ _ operand => .unary (hR _ _) (operand.alike_refl hR)
  | .binary _ _ left right => .binary (hR _ _) (left.alike_refl hR) (right.alike_refl hR)
  | .cond _ condition consequence alternative =>
    .cond (hR _ _) (condition.alike_refl hR) (consequence.alike_refl hR)
      (branch_alike_refl hR alternative)
  | .lambda _ _ _ body => .lambda (hR _ _) (body.alike_refl hR)
  | .call _ callee args => .call (hR _ _) (callee.alike_refl hR) (exprs_alike_refl hR args)
  | .array _ items => .array (hR _ _) (exprs_alike_refl hR items)
  | .index _ left index => .index (hR _ _) (left.alike_refl hR) (index.alike_refl hR)
  | .dict _ entries => .dict (hR _ _) (pairs_alike_refl hR entries)

/-- The same for a list of expressions. -/
theorem exprs_alike_refl (hR : ∀ role t, R role t t) :
    ∀ es : List Expr, Alike R (.exprs es) (.exprs es)
  | [] => .noExprs
  | e :: rest => .exprs (e.alike_refl hR) (exprs_alike_refl hR rest)

/-- The same for the pairs of a dict. -/
theorem pairs_alike_refl (hR : ∀ role t, R role t t) :
    ∀ entries : List (Expr × Expr), Alike R (.pairs entries) (.pairs entries)
  | [] => .noPairs
  | (key, value) :: rest =>
    .pairs (key.alike_refl hR) (value.alike_refl hR) (pairs_alike_refl hR rest)

/-- The same for the branch that may follow the first one. -/
theorem branch_alike_refl (hR : ∀ role t, R role t t) :
    ∀ b : Option Block, Alike R (.branch b) (.branch b)
  | none => .noBranch
  | some b => .branch (b.alike_refl hR)

/-- The same for a block. -/
theorem Block.alike_refl (hR : ∀ role t, R role t t) : ∀ b : Block, Alike R (.block b) (.block b)
  | .mk _ body => .block (hR _ _) (body_alike_refl hR body)

/-- The same for a list of statements. -/
theorem body_alike_refl (hR : ∀ role t, R role t t) :
    ∀ body : List Stmt, Alike R (.body body) (.body body)
  | [] => .noStmts
  | s :: rest => .stmts (s.alike_refl hR) (body_alike_refl hR rest)

/-- The same for a statement. -/
theorem Stmt.alike_refl (hR : ∀ role t, R role t t) : ∀ s : Stmt, Alike R (.stmt s) (.stmt s)
  | .letIn _ _ value => .letIn (hR _ _) (value.alike_refl hR)
  | .ret _ value => .ret (hR _ _) (value.alike_refl hR)
  | .expr _ value => .value (hR _ _) (value.alike_refl hR)

end

namespace Alike

variable {part part' : Part}

/-- Every node is like itself, if every token is related to itself. -/
theorem refl (hR : ∀ role t, R role t t) (node : Node) : Alike R node.part node.part := by
  cases node with
  | program p => exact body_alike_refl hR p
  | stmt s => exact s.alike_refl hR
  | block b => exact b.alike_refl hR
  | expr e => exact e.alike_refl hR

/-- Alike parts with equal tokens are equal. -/
theorem eq (h : Alike (fun _ => Eq) part part') : part = part' := by
  induction h <;> simp_all

/-- Tokens may be asked for less. -/
theorem mono {S : TokenRelation} (hRS : ∀ role t t', R role t t' → S role t t')
    (h : Alike R part part') : Alike S part part' := by
  induction h <;> constructor <;> first | assumption | exact hRS _ _ _ ‹_›

/-- Alike trees, the other way round. -/
theorem symm {S : TokenRelation} (hRS : ∀ role t t', R role t t' → S role t' t)
    (h : Alike R part part') : Alike S part' part := by
  induction h <;> constructor <;> first | assumption | exact hRS _ _ _ ‹_›

/-- Alike trees, one after the other. -/
theorem trans {S T : TokenRelation} {part'' : Part}
    (hRST : ∀ role t t' t'', R role t t' → S role t' t'' → T role t t'')
    (h : Alike R part part') (h' : Alike S part' part'') : Alike T part part'' := by
  induction h generalizing part'' <;> cases h' <;> constructor <;>
    first
    | exact hRST _ _ _ _ ‹_› ‹_›
    | (apply_assumption; assumption)

end Alike

/-- Nodes that are alike with equal tokens are equal. -/
theorem Node.eq_of_alike {node node' : Node}
    (h : Alike (fun _ => Eq) node.part node'.part) : node = node' := by
  cases h.nodes with
  | program hp => exact congrArg Node.program (Part.body.inj hp.eq)
  | stmt hs => exact congrArg Node.stmt (Part.stmt.inj hs.eq)
  | block hb => exact congrArg Node.block (Part.block.inj hb.eq)
  | expr he => exact congrArg Node.expr (Part.expr.inj he.eq)

/-! ### Trees that are the same up to tokens -/

/-- Whether two parts are the same up to tokens. -/
def Part.same : Part → Part → Bool
  | .expr e, .expr e' => e.same e'
  | .exprs es, .exprs es' => sameExprs es es'
  | .pairs ps, .pairs ps' => samePairs ps ps'
  | .branch b, .branch b' => sameElse b b'
  | .block b, .block b' => b.same b'
  | .stmt s, .stmt s' => s.same s'
  | .body ss, .body ss' => sameBody ss ss'
  | _, _ => false

namespace Alike

/-- Two trees that are the same up to tokens are alike, if each of them
fulfils what is asked of their tokens. -/
theorem of_same {own : TokenRole → Token → Prop}
    (hR : ∀ role t t', own role t → own role t' → R role t t') {p p₁ q q₁ : Part}
    (hp : Alike (fun role t _ => own role t) p p₁)
    (hq : Alike (fun role t _ => own role t) q q₁) (hsame : p.same q = true) : Alike R p q := by
  -- Trees that are the same have the same constructor.
  induction hp generalizing q q₁ with
  | ident ht =>
      cases hq with
      | ident hu =>
          simp only [Part.same, Expr.same, beq_iff_eq] at hsame
          subst hsame
          exact .ident (hR _ _ _ ht hu)
      | _ => simp [Part.same, Expr.same] at hsame
  | int ht =>
      cases hq with
      | int hu =>
          simp only [Part.same, Expr.same, beq_iff_eq] at hsame
          subst hsame
          exact .int (hR _ _ _ ht hu)
      | _ => simp [Part.same, Expr.same] at hsame
  | str ht =>
      cases hq with
      | str hu =>
          simp only [Part.same, Expr.same, beq_iff_eq] at hsame
          subst hsame
          exact .str (hR _ _ _ ht hu)
      | _ => simp [Part.same, Expr.same] at hsame
  | bool ht =>
      cases hq with
      | bool hu =>
          simp only [Part.same, Expr.same, beq_iff_eq] at hsame
          subst hsame
          exact .bool (hR _ _ _ ht hu)
      | _ => simp [Part.same, Expr.same] at hsame
  | unary ht _ ih =>
      cases hq with
      | unary hu he =>
          simp only [Part.same, Expr.same, Bool.and_eq_true, beq_iff_eq] at hsame
          obtain ⟨rfl, hsame⟩ := hsame
          exact .unary (hR _ _ _ ht hu) (ih he hsame)
      | _ => simp [Part.same, Expr.same] at hsame
  | binary ht _ _ ihl ihr =>
      cases hq with
      | binary hu hl hr =>
          simp only [Part.same, Expr.same, Bool.and_eq_true, beq_iff_eq] at hsame
          obtain ⟨⟨rfl, hleft⟩, hright⟩ := hsame
          exact .binary (hR _ _ _ ht hu) (ihl hl hleft) (ihr hr hright)
      | _ => simp [Part.same, Expr.same] at hsame
  | cond ht _ _ _ ihc ihb iha =>
      cases hq with
      | cond hu hc hb ha =>
          simp only [Part.same, Expr.same, Bool.and_eq_true] at hsame
          obtain ⟨⟨hcondition, hblock⟩, hbranch⟩ := hsame
          exact .cond (hR _ _ _ ht hu) (ihc hc hcondition) (ihb hb hblock) (iha ha hbranch)
      | _ => simp [Part.same, Expr.same] at hsame
  | lambda ht _ ih =>
      cases hq with
      | lambda hu hb =>
          simp only [Part.same, Expr.same, Bool.and_eq_true, beq_iff_eq] at hsame
          obtain ⟨⟨rfl, rfl⟩, hsame⟩ := hsame
          exact .lambda (hR _ _ _ ht hu) (ih hb hsame)
      | _ => simp [Part.same, Expr.same] at hsame
  | call ht _ _ ihf iha =>
      cases hq with
      | call hu hf ha =>
          simp only [Part.same, Expr.same, Bool.and_eq_true] at hsame
          obtain ⟨hcallee, hargs⟩ := hsame
          exact .call (hR _ _ _ ht hu) (ihf hf hcallee) (iha ha hargs)
      | _ => simp [Part.same, Expr.same] at hsame
  | array ht _ ih =>
      cases hq with
      | array hu hi =>
          simp only [Part.same, Expr.same] at hsame
          exact .array (hR _ _ _ ht hu) (ih hi hsame)
      | _ => simp [Part.same, Expr.same] at hsame
  | index ht _ _ ihl ihi =>
      cases hq with
      | index hu hl hi =>
          simp only [Part.same, Expr.same, Bool.and_eq_true] at hsame
          obtain ⟨hleft, hindex⟩ := hsame
          exact .index (hR _ _ _ ht hu) (ihl hl hleft) (ihi hi hindex)
      | _ => simp [Part.same, Expr.same] at hsame
  | dict ht _ ih =>
      cases hq with
      | dict hu hi =>
          simp only [Part.same, Expr.same] at hsame
          exact .dict (hR _ _ _ ht hu) (ih hi hsame)
      | _ => simp [Part.same, Expr.same] at hsame
  | noExprs =>
      cases hq with
      | noExprs =>
          exact .noExprs
      | _ => simp [Part.same, sameExprs] at hsame
  | exprs _ _ ihe ihes =>
      cases hq with
      | exprs he hes =>
          simp only [Part.same, sameExprs, Bool.and_eq_true] at hsame
          obtain ⟨hfirst, hrest⟩ := hsame
          exact .exprs (ihe he hfirst) (ihes hes hrest)
      | _ => simp [Part.same, sameExprs] at hsame
  | noPairs =>
      cases hq with
      | noPairs =>
          exact .noPairs
      | _ => simp [Part.same, samePairs] at hsame
  | pairs _ _ _ ihk ihv ihes =>
      cases hq with
      | pairs hk hv hes =>
          simp only [Part.same, samePairs, Bool.and_eq_true] at hsame
          obtain ⟨⟨hkey, hvalue⟩, hrest⟩ := hsame
          exact .pairs (ihk hk hkey) (ihv hv hvalue) (ihes hes hrest)
      | _ => simp [Part.same, samePairs] at hsame
  | noBranch =>
      cases hq with
      | noBranch =>
          exact .noBranch
      | _ => simp [Part.same, sameElse] at hsame
  | branch _ ih =>
      cases hq with
      | branch hb =>
          simp only [Part.same, sameElse] at hsame
          exact .branch (ih hb hsame)
      | _ => simp [Part.same, sameElse] at hsame
  | block ht _ ih =>
      cases hq with
      | block hu hb =>
          simp only [Part.same, Block.same] at hsame
          exact .block (hR _ _ _ ht hu) (ih hb hsame)
      | _ => simp [Part.same] at hsame
  | letIn ht _ ih =>
      cases hq with
      | letIn hu he =>
          simp only [Part.same, Stmt.same, Bool.and_eq_true, beq_iff_eq] at hsame
          obtain ⟨rfl, hsame⟩ := hsame
          exact .letIn (hR _ _ _ ht hu) (ih he hsame)
      | _ => simp [Part.same, Stmt.same] at hsame
  | ret ht _ ih =>
      cases hq with
      | ret hu he =>
          simp only [Part.same, Stmt.same] at hsame
          exact .ret (hR _ _ _ ht hu) (ih he hsame)
      | _ => simp [Part.same, Stmt.same] at hsame
  | value ht _ ih =>
      cases hq with
      | value hu he =>
          simp only [Part.same, Stmt.same] at hsame
          exact .value (hR _ _ _ ht hu) (ih he hsame)
      | _ => simp [Part.same, Stmt.same] at hsame
  | noStmts =>
      cases hq with
      | noStmts =>
          exact .noStmts
      | _ => simp [Part.same, sameBody] at hsame
  | stmts _ _ ihs ihbody =>
      cases hq with
      | stmts hs hbody =>
          simp only [Part.same, sameBody, Bool.and_eq_true] at hsame
          obtain ⟨hfirst, hrest⟩ := hsame
          exact .stmts (ihs hs hfirst) (ihbody hbody hrest)
      | _ => simp [Part.same, sameBody] at hsame

/-- Alike trees are the same up to tokens. -/
theorem same {p q : Part} (h : Alike R p q) : p.same q = true := by
  induction h <;>
    simp_all [Part.same, Expr.same, sameExprs, samePairs, sameElse, Block.same, sameBody, Stmt.same]

end Alike

/-! ### What alike trees have in common -/

/-- The texts of a part: one for an expression, a block or a statement,
one for each part of a list, and one for statements in a block. -/
def Part.texts : Part → List String
  | .expr e => [e.render]
  | .exprs es => renderExprs es
  | .pairs ps => renderPairs ps
  | .branch b => [renderElse b]
  | .block b => [b.render]
  | .stmt s => [s.render]
  | .body ss => renderBody ss :: ss.map Stmt.render

/-- All names and integers of a part belong to the lexicon. -/
def Part.Over (L : Lexicon) : Part → Prop
  | .expr e => e.Over L
  | .exprs es => exprsOver L es
  | .pairs ps => pairsOver L ps
  | .branch b => elseOver L b
  | .block b => b.Over L
  | .stmt s => s.Over L
  | .body ss => bodyOver L ss

namespace Alike

variable {part part' : Part}

/-- Alike lists have the same length. -/
theorem length_eq {es es' : List Expr} (h : Alike R (.exprs es) (.exprs es')) :
    es.length = es'.length := by
  induction es generalizing es' with
  | nil =>
      cases h
      rfl
  | cons e rest ih =>
      cases h with
      | exprs _ hrest => exact congrArg (· + 1) (ih hrest)

/-- Alike trees are rendered in the same way. -/
theorem texts (h : Alike R part part') : part.texts = part'.texts := by
  induction h with
  | @bool _ _ b => cases b <;> rfl
  | _ =>
      simp_all [Part.texts, Expr.render, renderExprs, renderPairs, renderElse, Block.render,
        renderBody, Stmt.render]

/-- Alike nodes are rendered in the same way. -/
theorem render {node node' : Node} (h : Alike R node.part node'.part) :
    node.render = node'.render := by
  cases h.nodes with
  | program hp => exact congrArg (" ".intercalate ·) (List.cons.inj hp.texts).2
  | stmt hs => exact (List.cons.inj hs.texts).1
  | block hb => exact (List.cons.inj hb.texts).1
  | expr he => exact (List.cons.inj he.texts).1

/-- Alike trees are over the same lexicons. -/
theorem preserves_over {L : Lexicon} (h : Alike R part part') (hover : part.Over L) :
    part'.Over L := by
  induction h <;>
    simp_all [Part.Over, Expr.Over, exprsOver, pairsOver, elseOver, Block.Over, bodyOver, Stmt.Over]

end Alike

end QuoteScript
