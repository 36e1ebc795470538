import QuoteScript.Proofs.Tree.Alike
import QuoteScript.Tree.Transform

/-!
# `QuoteScript.Proofs.Tree.Coupling`: two passes side by side

Two passes over alike trees hand out alike nodes in the same order. So
if the two transforms turn alike nodes into alike nodes, the passes turn
alike trees into alike trees.

The transforms may run in two different monads. A `Coupling` is what can
be said about the answers of two computations, closed under sequencing.

* `Alike.coupled`: the parts of two trees.
* `Node.transformM_coupled`: two whole passes.
* `Expr.visitParts_pure`, `visitBody_pure`: a pass that changes nothing.
-/

set_option autoImplicit false

namespace QuoteScript

universe u v

/-- What can be said about the answers of two computations:
`relates x y P` says that they have the property `P`. -/
structure Coupling (m : Type → Type u) (n : Type → Type v) [Monad m] [Monad n] where
  relates {α β : Type} (x : m α) (y : n β) (P : α → β → Prop) : Prop
  pure {α β : Type} {a : α} {b : β} {P : α → β → Prop} (h : P a b) : relates (pure a) (pure b) P
  bind {α β γ δ : Type} {x : m α} {y : n β} {next : α → m γ} {next' : β → n δ}
    {P : α → β → Prop} {Q : γ → δ → Prop} (hx : relates x y P)
    (hnext : ∀ a b, P a b → relates (next a) (next' b) Q) : relates (x >>= next) (y >>= next') Q

variable {m : Type → Type u} {n : Type → Type v} [Monad m] [Monad n]

/-- Two transforms turn alike nodes into alike nodes. -/
def Couples (C : Coupling m n) (R : TokenRelation) (f : Node → m Node) (g : Node → n Node) : Prop :=
  ∀ node node' : Node, Alike R node.part node'.part →
    C.relates (f node) (g node') fun a b => Alike R a.part b.part

/-- A name that is visited as an identifier is like itself. -/
def TokenRelation.Names (R : TokenRelation) : Prop :=
  ∀ name : String, Alike R (.expr (.mkIdent name)) (.expr (.mkIdent name))

/-- The two passes turn the two parts into alike parts. -/
def Part.Coupled (C : Coupling m n) (R : TokenRelation) (f : Node → m Node) (g : Node → n Node) :
    Part → Part → Prop
  | .expr e, .expr e' =>
    C.relates (e.visitParts f) (e'.visitParts g) fun a b => Alike R (.expr a) (.expr b)
  | .exprs es, .exprs es' =>
    C.relates (visitExprs f es) (visitExprs g es') fun a b => Alike R (.exprs a) (.exprs b)
  | .pairs ps, .pairs ps' =>
    C.relates (visitPairs f ps) (visitPairs g ps') fun a b => Alike R (.pairs a) (.pairs b)
  | .branch b, .branch b' =>
    C.relates (visitElse f b) (visitElse g b') fun a b => Alike R (.branch a) (.branch b)
  | .block b, .block b' =>
    C.relates (b.visitParts f) (b'.visitParts g) fun a b => Alike R (.block a) (.block b)
  | .stmt s, .stmt s' =>
    C.relates (s.visitParts f) (s'.visitParts g) fun a b => Alike R (.stmt a) (.stmt b)
  | .body ss, .body ss' =>
    C.relates (visitBody f ss) (visitBody g ss') fun a b => Alike R (.body a) (.body b)
  | _, _ => False

variable {C : Coupling m n} {R : TokenRelation} {f : Node → m Node} {g : Node → n Node}

/-! ### Places -/

/-- Two passes fill the places of alike expressions with alike ones.
What comes back is of the same kind on both sides, so both sides take it
or neither does. -/
theorem exprPlace_coupled (hfg : Couples C R f g) {e e' : Expr}
    (he : Alike R (.expr e) (.expr e')) :
    C.relates (exprPlace f e) (exprPlace g e') fun a b => Alike R (.expr a) (.expr b) := by
  refine C.bind (hfg (.expr e) (.expr e') he) fun a b hab => C.pure ?_
  cases hab.nodes with
  | expr hnew => exact hnew
  | _ => exact he

/-- The same for the places of blocks. -/
theorem blockPlace_coupled (hfg : Couples C R f g) {b b' : Block}
    (hb : Alike R (.block b) (.block b')) :
    C.relates (blockPlace f b) (blockPlace g b') fun a b => Alike R (.block a) (.block b) := by
  refine C.bind (hfg (.block b) (.block b') hb) fun a b hab => C.pure ?_
  cases hab.nodes with
  | block hnew => exact hnew
  | _ => exact hb

/-- The same for the places of statements. -/
theorem stmtPlace_coupled (hfg : Couples C R f g) {s s' : Stmt}
    (hs : Alike R (.stmt s) (.stmt s')) :
    C.relates (stmtPlace f s) (stmtPlace g s') fun a b => Alike R (.stmt a) (.stmt b) := by
  refine C.bind (hfg (.stmt s) (.stmt s') hs) fun a b hab => C.pure ?_
  cases hab.nodes with
  | stmt hnew => exact hnew
  | _ => exact hs

/-- Two passes fill the place of a parameter with the same name. -/
theorem paramPlace_coupled (hfg : Couples C R f g) (hR : R.Names) (name : String) :
    C.relates (paramPlace f name) (paramPlace g name) Eq := by
  refine C.bind (hfg (.expr (.mkIdent name)) (.expr (.mkIdent name)) (hR name))
    fun a b hab => C.pure ?_
  cases hab.nodes with
  | expr hnew => cases hnew <;> rfl
  | _ => rfl

/-- Two passes turn parameters into the same names. -/
theorem visitParams_coupled (hfg : Couples C R f g) (hR : R.Names) (names : List String) :
    C.relates (visitParams f names) (visitParams g names) Eq := by
  induction names with
  | nil => exact C.pure rfl
  | cons name rest ih =>
      refine C.bind (paramPlace_coupled hfg hR name) fun a b hab => ?_
      refine C.bind ih fun as bs hrest => C.pure ?_
      rw [hab, hrest]

/-! ### The walk -/

namespace Alike

/-- Two passes turn alike parts into alike parts. -/
theorem coupled (hfg : Couples C R f g) (hR : R.Names) {part part' : Part}
    (h : Alike R part part') : part.Coupled C R f g part' := by
  induction h with
  | ident ht => exact C.pure (.ident ht)
  | int ht => exact C.pure (.int ht)
  | str ht => exact C.pure (.str ht)
  | bool ht => exact C.pure (.bool ht)
  -- A part is visited and put into its place, and the node is built again with the same token.
  | unary ht _ ih =>
      exact C.bind (C.bind ih fun _ _ => exprPlace_coupled hfg) fun _ _ he => C.pure (.unary ht he)
  | binary ht _ _ ihl ihr =>
      refine C.bind (C.bind ihl fun _ _ => exprPlace_coupled hfg) fun _ _ hl => ?_
      refine C.bind (C.bind ihr fun _ _ => exprPlace_coupled hfg) fun _ _ hr => ?_
      exact C.pure (.binary ht hl hr)
  | cond ht _ _ _ ihc ihb iha =>
      refine C.bind (C.bind ihc fun _ _ => exprPlace_coupled hfg) fun _ _ hc => ?_
      refine C.bind (C.bind ihb fun _ _ => blockPlace_coupled hfg) fun _ _ hb => ?_
      exact C.bind iha fun _ _ ha => C.pure (.cond ht hc hb ha)
  | lambda ht _ ih =>
      refine C.bind (visitParams_coupled hfg hR _) fun _ _ hparams => ?_
      cases hparams
      refine C.bind (C.bind ih fun _ _ => blockPlace_coupled hfg) fun _ _ hb => ?_
      exact C.pure (.lambda ht hb)
  | call ht _ _ ihf iha =>
      refine C.bind (C.bind ihf fun _ _ => exprPlace_coupled hfg) fun _ _ hf => ?_
      exact C.bind iha fun _ _ ha => C.pure (.call ht hf ha)
  | array ht _ ih => exact C.bind ih fun _ _ hi => C.pure (.array ht hi)
  | index ht _ _ ihl ihi =>
      refine C.bind (C.bind ihl fun _ _ => exprPlace_coupled hfg) fun _ _ hl => ?_
      refine C.bind (C.bind ihi fun _ _ => exprPlace_coupled hfg) fun _ _ hi => ?_
      exact C.pure (.index ht hl hi)
  | dict ht _ ih => exact C.bind ih fun _ _ hi => C.pure (.dict ht hi)
  | noExprs => exact C.pure .noExprs
  | exprs _ _ ihe ihes =>
      refine C.bind (C.bind ihe fun _ _ => exprPlace_coupled hfg) fun _ _ he => ?_
      exact C.bind ihes fun _ _ hes => C.pure (.exprs he hes)
  | noPairs => exact C.pure .noPairs
  | pairs _ _ _ ihk ihv ihes =>
      refine C.bind (C.bind ihk fun _ _ => exprPlace_coupled hfg) fun _ _ hk => ?_
      refine C.bind (C.bind ihv fun _ _ => exprPlace_coupled hfg) fun _ _ hv => ?_
      exact C.bind ihes fun _ _ hes => C.pure (.pairs hk hv hes)
  | noBranch => exact C.pure .noBranch
  | branch _ ih =>
      exact C.bind (C.bind ih fun _ _ => blockPlace_coupled hfg) fun _ _ hb => C.pure (.branch hb)
  | block ht _ ih => exact C.bind ih fun _ _ hb => C.pure (.block ht hb)
  | letIn ht _ ih =>
      exact C.bind (C.bind ih fun _ _ => exprPlace_coupled hfg) fun _ _ he => C.pure (.letIn ht he)
  | ret ht _ ih =>
      exact C.bind (C.bind ih fun _ _ => exprPlace_coupled hfg) fun _ _ he => C.pure (.ret ht he)
  | value ht _ ih =>
      exact C.bind (C.bind ih fun _ _ => exprPlace_coupled hfg) fun _ _ he => C.pure (.value ht he)
  | noStmts => exact C.pure .noStmts
  | stmts _ _ ihs ihbody =>
      refine C.bind (C.bind ihs fun _ _ => stmtPlace_coupled hfg) fun _ _ hs => ?_
      exact C.bind ihbody fun _ _ hbody => C.pure (.stmts hs hbody)

end Alike

/-- Two whole passes over alike nodes. -/
theorem Node.transformM_coupled (hfg : Couples C R f g) (hR : R.Names) (node node' : Node)
    (h : Alike R node.part node'.part) :
    C.relates (node.transformM f) (node'.transformM g) fun a b => Alike R a.part b.part := by
  have hparts : C.relates (node.visitParts f) (node'.visitParts g) fun a b =>
      Alike R a.part b.part := by
    cases h.nodes with
    | program hp => exact C.bind (hp.coupled hfg hR) fun _ _ hp' => C.pure hp'
    | stmt hs => exact C.bind (hs.coupled hfg hR) fun _ _ hs' => C.pure hs'
    | block hb => exact C.bind (hb.coupled hfg hR) fun _ _ hb' => C.pure hb'
    | expr he => exact C.bind (he.coupled hfg hR) fun _ _ he' => C.pure he'
  exact C.bind hparts fun a b hab => hfg a b hab

/-! ### Passes that change nothing -/

section Pure

variable [LawfulMonad m]

/-- Parameters stay as they are. -/
theorem visitParams_pure (names : List String) :
    visitParams (pure : Node → m Node) names = pure names := by
  induction names with
  | nil => rfl
  | cons name rest ih => simp [visitParams, paramPlace, Expr.mkIdent, Node.name?, ih]

mutual

/-- A pass whose transform gives back what it is handed gives back the
tree. -/
theorem Expr.visitParts_pure : ∀ e : Expr, e.visitParts (pure : Node → m Node) = pure e
  | .ident _ _ | .int _ _ | .str _ _ | .bool _ _ => rfl
  | .unary _ _ operand => by
      simp [Expr.visitParts, exprPlace, Node.expr?, operand.visitParts_pure]
  | .binary _ _ left right => by
      simp [Expr.visitParts, exprPlace, Node.expr?, left.visitParts_pure, right.visitParts_pure]
  | .cond _ condition consequence alternative => by
      simp [Expr.visitParts, exprPlace, blockPlace, Node.expr?, Node.block?,
        condition.visitParts_pure, consequence.visitParts_pure, visitElse_pure alternative]
  | .lambda _ _ params body => by
      simp [Expr.visitParts, blockPlace, Node.block?, visitParams_pure params, body.visitParts_pure]
  | .call _ callee args => by
      simp [Expr.visitParts, exprPlace, Node.expr?, callee.visitParts_pure, visitExprs_pure args]
  | .array _ items => by simp [Expr.visitParts, visitExprs_pure items]
  | .index _ left index => by
      simp [Expr.visitParts, exprPlace, Node.expr?, left.visitParts_pure, index.visitParts_pure]
  | .dict _ pairs => by simp [Expr.visitParts, visitPairs_pure pairs]

/-- The same for a list of expressions. -/
theorem visitExprs_pure : ∀ es : List Expr, visitExprs (pure : Node → m Node) es = pure es
  | [] => rfl
  | e :: rest => by
      simp [visitExprs, exprPlace, Node.expr?, e.visitParts_pure, visitExprs_pure rest]

/-- The same for the pairs of a dict. -/
theorem visitPairs_pure :
    ∀ pairs : List (Expr × Expr), visitPairs (pure : Node → m Node) pairs = pure pairs
  | [] => rfl
  | (key, value) :: rest => by
      simp [visitPairs, exprPlace, Node.expr?, key.visitParts_pure, value.visitParts_pure,
        visitPairs_pure rest]

/-- The same for the branch that may follow the first one. -/
theorem visitElse_pure : ∀ b : Option Block, visitElse (pure : Node → m Node) b = pure b
  | none => rfl
  | some b => by simp [visitElse, blockPlace, Node.block?, b.visitParts_pure]

/-- The same for a block. -/
theorem Block.visitParts_pure : ∀ b : Block, b.visitParts (pure : Node → m Node) = pure b
  | .mk _ body => by simp [Block.visitParts, visitBody_pure body]

/-- The same for a list of statements. -/
theorem visitBody_pure : ∀ body : List Stmt, visitBody (pure : Node → m Node) body = pure body
  | [] => rfl
  | s :: rest => by
      simp [visitBody, stmtPlace, Node.stmt?, s.visitParts_pure, visitBody_pure rest]

/-- The same for a statement. -/
theorem Stmt.visitParts_pure : ∀ s : Stmt, s.visitParts (pure : Node → m Node) = pure s
  | .letIn _ _ value | .ret _ value | .expr _ value => by
      simp [Stmt.visitParts, exprPlace, Node.expr?, value.visitParts_pure]

end

end Pure

end QuoteScript
