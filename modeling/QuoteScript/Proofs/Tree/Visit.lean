import QuoteScript.Proofs.Tree.Lexicon
import QuoteScript.Tree.Transform

/-!
# `QuoteScript.Proofs.Tree.Visit`: what a pass over a tree preserves

A pass hands out every part of a tree and fills every place with what
comes back, or keeps what was there. So if the transform turns nodes
over a lexicon into nodes over the lexicon, the pass turns trees over
it into trees over it.

The transform runs in some monad. A `Guarantee` is what can be said
about the answers of computations in a monad, closed under sequencing;
the proof needs nothing else of the monad. `Guarantee.orFails` is the
same for computations that may fail besides.

* `Expr.visitParts_gives`, `Block.visitParts_gives`,
  `Stmt.visitParts_gives`, `visitBody_gives`: the parts of a tree.
* `Node.transformM_expr_gives`, `Node.transformM_program_gives`: a whole
  pass.
-/

set_option autoImplicit false

namespace QuoteScript

universe u

/-- What can be said about answers: `gives x P` says that the answer of
`x`, if there is one, has the property `P`. -/
structure Guarantee (m : Type → Type u) [Monad m] where
  gives {α : Type} (x : m α) (P : α → Prop) : Prop
  pure {α : Type} {a : α} {P : α → Prop} (h : P a) : gives (pure a) P
  bind {α β : Type} {x : m α} {next : α → m β} {P : α → Prop} {Q : β → Prop}
    (hx : gives x P) (hnext : ∀ a, P a → gives (next a) Q) : gives (x >>= next) Q

variable {m : Type → Type u} [Monad m]

namespace Guarantee

variable {α ε : Type} {P : α → Prop}

/-- The same for computations that may fail besides: if `x` does not
fail, its answer has the property `P`. -/
def orFails (G : Guarantee m) (ε : Type) : Guarantee (ExceptT ε m) where
  gives x P := G.gives x.run fun r => ∀ a, r = .ok a → P a
  pure h := G.pure fun _ ha => Except.ok.inj ha ▸ h
  bind hx hnext := G.bind hx fun r hr => by
    cases r with
    | ok a => exact hnext a (hr a rfl)
    | error e => exact G.pure nofun

/-- A computation that does not fail gives what it gives. -/
theorem orFails_lift [LawfulMonad m] {G : Guarantee m} {x : m α} (h : G.gives x P) :
    (G.orFails ε).gives (ExceptT.lift x) P := by
  -- Lifting is mapping, and of `G` only sequencing is known.
  have hlift : (ExceptT.lift x : ExceptT ε m α).run = x >>= fun a => Pure.pure (.ok a) :=
    map_eq_pure_bind Except.ok x
  show G.gives (ExceptT.lift x : ExceptT ε m α).run _
  rw [hlift]
  exact G.bind h fun a ha => G.pure fun b hb => Except.ok.inj hb ▸ ha

/-- A failure has no answer, so anything can be said about it. -/
theorem orFails_throw {G : Guarantee m} (e : ε) : (G.orFails ε).gives (throw e) P := by
  show G.gives (Pure.pure (Except.error e)) _
  exact G.pure nofun

end Guarantee

/-- The transform turns nodes over a lexicon into nodes over it. -/
def Preserves (G : Guarantee m) (L : Lexicon) (f : Node → m Node) : Prop :=
  ∀ node : Node, node.Over L → G.gives (f node) (Node.Over L)

variable {G : Guarantee m} {L : Lexicon} {f : Node → m Node}

/-! ### Places -/

/-- What fills the place of an expression is over the lexicon: an
expression that comes back, or the one that was handed out. -/
theorem exprPlace_gives (hf : Preserves G L f) {e : Expr} (he : e.Over L) :
    G.gives (exprPlace f e) (Expr.Over L) := by
  refine G.bind (hf (.expr e) he) fun node hnode => G.pure ?_
  cases node with
  | expr e' => exact hnode
  -- A node of another kind is dropped, and the expression stays.
  | _ => exact he

/-- The same for the place of a block. -/
theorem blockPlace_gives (hf : Preserves G L f) {b : Block} (hb : b.Over L) :
    G.gives (blockPlace f b) (Block.Over L) := by
  refine G.bind (hf (.block b) hb) fun node hnode => G.pure ?_
  cases node with
  | block b' => exact hnode
  | _ => exact hb

/-- The same for the place of a statement. -/
theorem stmtPlace_gives (hf : Preserves G L f) {s : Stmt} (hs : s.Over L) :
    G.gives (stmtPlace f s) (Stmt.Over L) := by
  refine G.bind (hf (.stmt s) hs) fun node hnode => G.pure ?_
  cases node with
  | stmt s' => exact hnode
  | _ => exact hs

/-- A parameter is replaced by an identifier only. -/
theorem paramPlace_gives (hf : Preserves G L f) {name : String} (hname : L.name name) :
    G.gives (paramPlace f name) L.name := by
  refine G.bind (hf (.expr (.mkIdent name)) hname) fun node hnode => G.pure ?_
  cases node with
  | expr e =>
      cases e with
      | ident t name' => exact hnode
      | _ => exact hname
  | _ => exact hname

/-! ### The walk -/

/-- Parameters that are visited stay over the lexicon, each in its
place. -/
theorem visitParams_gives (hf : Preserves G L f) :
    ∀ names : List String, (∀ name ∈ names, L.name name) →
      G.gives (visitParams f names) fun names' => ∀ name ∈ names', L.name name
  | [], _ => G.pure nofun
  | name :: rest, h => by
      obtain ⟨hname, hrest⟩ := List.forall_mem_cons.mp h
      refine G.bind (paramPlace_gives hf hname) fun name' hname' => ?_
      refine G.bind (visitParams_gives hf rest hrest) fun rest' hrest' => G.pure ?_
      exact List.forall_mem_cons.mpr ⟨hname', hrest'⟩

mutual

/-- Visiting the parts of an expression keeps it over the lexicon. -/
theorem Expr.visitParts_gives (hf : Preserves G L f) :
    ∀ e : Expr, e.Over L → G.gives (e.visitParts f) (Expr.Over L)
  | .ident _ _, h | .int _ _, h | .str _ _, h | .bool _ _, h => G.pure h
  -- In each case the parts are visited in the order of the definition.
  | .unary _ _ operand, h =>
      G.bind (operand.placed_gives hf h) fun operand' hoperand => G.pure hoperand
  | .binary _ _ left right, ⟨hl, hr⟩ => by
      refine G.bind (left.placed_gives hf hl) fun left' hleft => ?_
      exact G.bind (right.placed_gives hf hr) fun right' hright => G.pure ⟨hleft, hright⟩
  | .cond _ condition consequence alternative, ⟨hc, hb, ha⟩ => by
      refine G.bind (condition.placed_gives hf hc) fun condition' hcondition => ?_
      refine G.bind (consequence.placed_gives hf hb) fun consequence' hconsequence => ?_
      exact G.bind (visitElse_gives hf alternative ha) fun alternative' halternative =>
        G.pure ⟨hcondition, hconsequence, halternative⟩
  | .lambda _ _ params body, ⟨hparams, hbody⟩ => by
      refine G.bind (visitParams_gives hf params hparams) fun params' hparams' => ?_
      exact G.bind (body.placed_gives hf hbody) fun body' hbody' => G.pure ⟨hparams', hbody'⟩
  | .call _ callee args, ⟨hcallee, hargs⟩ => by
      refine G.bind (callee.placed_gives hf hcallee) fun callee' hcallee' => ?_
      exact G.bind (visitExprs_gives hf args hargs) fun args' hargs' => G.pure ⟨hcallee', hargs'⟩
  | .array _ items, h => G.bind (visitExprs_gives hf items h) fun items' hitems => G.pure hitems
  | .index _ left index, ⟨hl, hi⟩ => by
      refine G.bind (left.placed_gives hf hl) fun left' hleft => ?_
      exact G.bind (index.placed_gives hf hi) fun index' hindex => G.pure ⟨hleft, hindex⟩
  | .dict _ pairs, h => G.bind (visitPairs_gives hf pairs h) fun pairs' hpairs => G.pure hpairs

/-- An expression that is visited in its place. -/
theorem Expr.placed_gives (hf : Preserves G L f) (e : Expr) (h : e.Over L) :
    G.gives (e.visitParts f >>= exprPlace f) (Expr.Over L) :=
  G.bind (e.visitParts_gives hf h) fun _ he => exprPlace_gives hf he

/-- Visiting expressions keeps them over the lexicon. -/
theorem visitExprs_gives (hf : Preserves G L f) :
    ∀ es : List Expr, exprsOver L es → G.gives (visitExprs f es) (exprsOver L)
  | [], _ => G.pure trivial
  | e :: rest, ⟨he, hrest⟩ => by
      refine G.bind (e.placed_gives hf he) fun e' he' => ?_
      exact G.bind (visitExprs_gives hf rest hrest) fun rest' hrest' => G.pure ⟨he', hrest'⟩

/-- Visiting the pairs of a dict keeps them over the lexicon. -/
theorem visitPairs_gives (hf : Preserves G L f) :
    ∀ pairs : List (Expr × Expr), pairsOver L pairs → G.gives (visitPairs f pairs) (pairsOver L)
  | [], _ => G.pure trivial
  | (key, value) :: rest, ⟨hkey, hvalue, hrest⟩ => by
      refine G.bind (key.placed_gives hf hkey) fun key' hkey' => ?_
      refine G.bind (value.placed_gives hf hvalue) fun value' hvalue' => ?_
      exact G.bind (visitPairs_gives hf rest hrest) fun rest' hrest' =>
        G.pure ⟨hkey', hvalue', hrest'⟩

/-- Visiting the branch that may follow the first one keeps it over the
lexicon. -/
theorem visitElse_gives (hf : Preserves G L f) :
    ∀ b : Option Block, elseOver L b → G.gives (visitElse f b) (elseOver L)
  | none, _ => G.pure trivial
  | some b, h => G.bind (b.placed_gives hf h) fun _ hb => G.pure hb

/-- Visiting the parts of a block keeps it over the lexicon. -/
theorem Block.visitParts_gives (hf : Preserves G L f) :
    ∀ b : Block, b.Over L → G.gives (b.visitParts f) (Block.Over L)
  | .mk _ body, h => G.bind (visitBody_gives hf body h) fun _ hbody => G.pure hbody

/-- A block that is visited in its place. -/
theorem Block.placed_gives (hf : Preserves G L f) (b : Block) (h : b.Over L) :
    G.gives (b.visitParts f >>= blockPlace f) (Block.Over L) :=
  G.bind (b.visitParts_gives hf h) fun _ hb => blockPlace_gives hf hb

/-- Visiting statements keeps them over the lexicon. -/
theorem visitBody_gives (hf : Preserves G L f) :
    ∀ body : List Stmt, bodyOver L body → G.gives (visitBody f body) (bodyOver L)
  | [], _ => G.pure trivial
  | s :: rest, ⟨hs, hrest⟩ => by
      have hplaced : G.gives (s.visitParts f >>= stmtPlace f) (Stmt.Over L) :=
        G.bind (s.visitParts_gives hf hs) fun _ hs' => stmtPlace_gives hf hs'
      refine G.bind hplaced fun s' hs' => ?_
      exact G.bind (visitBody_gives hf rest hrest) fun rest' hrest' => G.pure ⟨hs', hrest'⟩

/-- Visiting the parts of a statement keeps it over the lexicon. -/
theorem Stmt.visitParts_gives (hf : Preserves G L f) :
    ∀ s : Stmt, s.Over L → G.gives (s.visitParts f) (Stmt.Over L)
  | .letIn _ _ value, ⟨hname, hvalue⟩ =>
      G.bind (value.placed_gives hf hvalue) fun _ hvalue' => G.pure ⟨hname, hvalue'⟩
  | .ret _ value, h => G.bind (value.placed_gives hf h) fun _ hvalue => G.pure hvalue
  | .expr _ value, h => G.bind (value.placed_gives hf h) fun _ hvalue => G.pure hvalue

end

/-- A pass keeps an expression over the lexicon up to its root, which
the transform sees last. -/
theorem Node.transformM_expr_gives (hf : Preserves G L f) {e : Expr} (he : e.Over L)
    {P : Node → Prop} (hroot : ∀ e' : Expr, e'.Over L → G.gives (f (.expr e')) P) :
    G.gives (Node.transformM f (.expr e)) P := by
  -- The parts of an expression make an expression again, so that is what the root is.
  have hparts : G.gives (Node.visitParts f (.expr e)) fun node => ∃ e' : Expr, node = .expr e' ∧
      e'.Over L :=
    G.bind (e.visitParts_gives hf he) fun e' he' => G.pure ⟨e', rfl, he'⟩
  refine G.bind hparts ?_
  rintro _ ⟨e', rfl, he'⟩
  exact hroot e' he'

/-- The same for a program. -/
theorem Node.transformM_program_gives (hf : Preserves G L f) {p : Program} (hp : bodyOver L p)
    {P : Node → Prop} (hroot : ∀ p' : Program, bodyOver L p' → G.gives (f (.program p')) P) :
    G.gives (Node.transformM f (.program p)) P := by
  have hparts : G.gives (Node.visitParts f (.program p)) fun node =>
      ∃ p' : Program, node = .program p' ∧ bodyOver L p' :=
    G.bind (visitBody_gives hf p hp) fun p' hp' => G.pure ⟨p', rfl, hp'⟩
  refine G.bind hparts ?_
  rintro _ ⟨p', rfl, hp'⟩
  exact hroot p' hp'

end QuoteScript
