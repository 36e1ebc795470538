import Mathlib.Order.Filter.AtTopBot.Basic
import QuoteScript.Eval.Expression
import QuoteScript.Proofs.Eval.Logic
import QuoteScript.Proofs.Tree.Coupling

/-!
# `QuoteScript.Proofs.Eval.Fuel`: more fuel changes no answer

Fuel bounds how deep an evaluation goes, and nothing else. An evaluation
that ends without running out of fuel ends in the same way with more of
it, so what it answers does not depend on the fuel it was given.

* `EvalM.Below x y`: `y` ends as `x` does, unless `x` runs out of fuel.
  There is one rule for each way in which computations are put together.
* `evalWith_below`: one level of evaluation, given the levels below.
* `evalExpr_below`: evaluation, by induction on the fuel.
* `EvalM.Ends`: what a computation answers if it has enough fuel.
  `EvalM.Steady.ends_iff` says that more than enough does no harm.
-/

set_option autoImplicit false

namespace QuoteScript

namespace EvalM

variable {α β : Type}

/-- If `x` ends other than for want of fuel, `y` ends in the same way
and in the same heap, and the two answers have the property `P`. -/
def Approximates (x : EvalM α) (y : EvalM β) (P : α → β → Prop) : Prop :=
  ∀ heap,
    match x heap with
    | .ok (a, heap') => ∃ b, y heap = .ok (b, heap') ∧ P a b
    | .error .outOfFuel => True
    | .error (.defect d) => y heap = .error (.defect d)

namespace Approximates

variable {x : EvalM α} {y : EvalM β} {P : α → β → Prop}

/-- An answer that is there, and has the property. -/
theorem pure {a : α} {b : β} (h : P a b) : Approximates (Pure.pure a) (Pure.pure b) P :=
  fun _ => ⟨b, rfl, h⟩

/-- Two computations in sequence, each with its own approximation. -/
theorem bind {γ δ : Type} {next : α → EvalM γ} {next' : β → EvalM δ} {Q : γ → δ → Prop}
    (hx : Approximates x y P) (hnext : ∀ a b, P a b → Approximates (next a) (next' b) Q) :
    Approximates (x >>= next) (y >>= next') Q := by
  intro heap
  have hrun := hx heap
  cases hx : x heap with
  | ok r =>
      rw [hx] at hrun
      obtain ⟨b, hy, hab⟩ := hrun
      rw [bind_run hx, bind_run hy]
      exact hnext r.1 b hab r.2
  | error stop =>
      rw [hx] at hrun
      rw [bind_run_of_error hx]
      cases stop with
      -- Of a computation without fuel nothing is claimed, but a defect stays a defect.
      | outOfFuel => trivial
      | defect d => exact bind_run_of_error hrun

/-- What is said of the answers may be weakened. -/
theorem mono {Q : α → β → Prop} (h : Approximates x y P) (hPQ : ∀ a b, P a b → Q a b) :
    Approximates x y Q := by
  intro heap
  have hrun := h heap
  cases hx : x heap with
  | ok r =>
      rw [hx] at hrun
      obtain ⟨b, hy, hab⟩ := hrun
      exact ⟨b, hy, hPQ _ _ hab⟩
  | error stop =>
      rw [hx] at hrun
      cases stop <;> exact hrun

end Approximates

/-- What is said about the answers of an approximation. -/
def approximation : Coupling EvalM EvalM where
  relates := Approximates
  pure := .pure
  bind := .bind

/-- `y` ends as `x` does, unless `x` runs out of fuel. -/
abbrev Below (x y : EvalM α) : Prop :=
  Approximates x y Eq

namespace Below

/-- A computation is below itself. -/
theorem refl (x : EvalM α) : Below x x := by
  intro heap
  cases x heap with
  | ok r => exact ⟨r.1, rfl, rfl⟩
  | error stop => cases stop <;> trivial

/-- Two computations in sequence. -/
theorem bind {x y : EvalM α} {next next' : α → EvalM β} (hxy : Below x y)
    (hnext : ∀ a, Below (next a) (next' a)) : Below (x >>= next) (y >>= next') :=
  Approximates.bind hxy fun a _ hab => hab ▸ hnext a

/-- Running out of fuel is below everything. -/
theorem outOfFuel (x : EvalM α) : Below outOfFuel x :=
  fun _ => trivial

/-- What is answered is answered with more fuel, too. -/
theorem ok {x y : EvalM α} (h : Below x y) {heap heap' : Heap} {a : α}
    (hx : x heap = .ok (a, heap')) : y heap = .ok (a, heap') := by
  have hrun := h heap
  rw [hx] at hrun
  obtain ⟨b, hy, rfl⟩ := hrun
  exact hy

end Below

end EvalM

open EvalM

/-! ### Quotation -/

/-- A pass runs out of fuel where its transform does. -/
theorem transformM_below {f g : Node → EvalM Node} (hfg : ∀ node, Below (f node) (g node))
    (e : Expr) : Below (Node.transformM f (.expr e)) (Node.transformM g (.expr e)) := by
  have hrefl : ∀ role t, (fun (_ : TokenRole) => @Eq Token) role t t := fun _ _ => rfl
  -- Alike up to equal tokens is equal, so both passes hand out the same nodes.
  have hcouples : Couples approximation (fun _ => Eq) f g := by
    intro node node' h
    cases Node.eq_of_alike h
    exact (hfg node).mono fun a b hab => hab ▸ Alike.refl hrefl a
  have hpass := Node.transformM_coupled hcouples (fun _ => Expr.alike_refl hrefl _) (.expr e)
    (.expr e) (e.alike_refl hrefl)
  exact hpass.mono fun _ _ => Node.eq_of_alike

section Evaluation

/-- The first evaluator answers nothing that the second one does
not. -/
def EvaluatorBelow (eval eval' : Evaluator) : Prop :=
  ∀ scope e, Below (eval scope e) (eval' scope e)

variable {eval eval' : Evaluator} (h : EvaluatorBelow eval eval') (scope : ScopeId)

/-- A part that unwinds ends both computations, and else both go on. -/
theorem unlessUnwinding_below {x y : EvalM Value} {next next' : Value → EvalM Value}
    (hxy : Below x y) (hnext : ∀ v, Below (next v) (next' v)) :
    Below (unlessUnwinding x next) (unlessUnwinding y next') := by
  refine hxy.bind fun v => ?_
  split
  · exact .refl _
  · exact hnext v

include h

/-- A quote evaluates nothing but its splices. -/
theorem quoteNode_below (e : Expr) :
    Below (quoteNode (eval scope) (.expr e)) (quoteNode (eval' scope) (.expr e)) := by
  refine (transformM_below (fun node => ?_) e).bind fun _ => .refl _
  unfold spliceCall
  split
  · exact .refl _
  · next arg _ => exact (h scope arg).bind fun _ => .refl _

/-! ### Statements -/

/-- A statement evaluates nothing but its value. -/
theorem evalStmt_below (s : Stmt) : Below (evalStmt eval scope s) (evalStmt eval' scope s) := by
  cases s with
  | letIn _ _ value | ret _ value | expr _ value => exact (h scope value).bind fun _ => .refl _

/-- Statements one after the other. -/
theorem evalBody_below (last : Option Value) (body : List Stmt) :
    Below (evalBody eval scope last body) (evalBody eval' scope last body) := by
  induction body generalizing last with
  | nil => exact .refl _
  | cons s rest ih =>
      refine (evalStmt_below h scope s).bind fun v => ?_
      split
      · exact .refl _
      · exact ih v

/-- A block. -/
theorem evalBlock_below (b : Block) :
    Below (evalBlock eval scope b) (evalBlock eval' scope b) :=
  evalBody_below h scope none b.body

/-! ### Expressions -/

/-- Arguments and items. -/
theorem evalAll_below (es : List Expr) :
    Below (evalAll (eval scope) es) (evalAll (eval' scope) es) := by
  induction es with
  | nil => exact .refl _
  | cons e rest ih =>
      refine (h scope e).bind fun v => ?_
      split
      · exact .refl _
      · exact ih.bind fun _ => .refl _

/-- The pairs of a dict. -/
theorem evalPairs_below (entries : List (Key × Value)) (pairs : List (Expr × Expr)) :
    Below (evalPairs (eval scope) entries pairs) (evalPairs (eval' scope) entries pairs) := by
  induction pairs generalizing entries with
  | nil => exact .refl _
  | cons pair rest ih =>
      refine unlessUnwinding_below (h scope pair.1) fun k => ?_
      split
      · exact .refl _
      · exact unlessUnwinding_below (h scope pair.2) fun v => ih _

/-- The scope and the bindings of a call take no fuel, and its body is
a block. -/
theorem evalClosureBody_below (params : List String) (body : Block) (outer : ScopeId)
    (args : List Value) :
    Below (evalClosureBody eval params body outer args)
      (evalClosureBody eval' params body outer args) := by
  refine (Below.refl _).bind fun inner => (Below.refl _).bind fun _ => ?_
  exact (evalBlock_below h inner body).bind fun _ => .refl _

/-- A call, whatever is called: fuel is needed for closures only. -/
theorem applyValue_below (callee : Value) (args : List Value) :
    Below (applyValue eval callee args) (applyValue eval' callee args) := by
  unfold applyValue
  split
  · split
    · exact evalClosureBody_below h _ _ _ args
    · exact .refl _
  · exact .refl _
  · exact .refl _

/-- One level of evaluation answers nothing that it would not answer
with more fuel for the levels below. -/
theorem evalWith_below (e : Expr) : Below (evalWith eval scope e) (evalWith eval' scope e) := by
  cases e with
  -- Without parts to evaluate, fuel makes no difference.
  | ident _ _ | int _ _ | str _ _ | bool _ _ | lambda _ _ _ _ => exact .refl _
  | unary _ _ operand => exact unlessUnwinding_below (h scope operand) fun _ => .refl _
  | binary _ _ left right =>
      refine unlessUnwinding_below (h scope left) fun _ => ?_
      exact unlessUnwinding_below (h scope right) fun _ => .refl _
  | cond _ condition consequence alternative =>
      refine unlessUnwinding_below (h scope condition) fun v => ?_
      split
      · exact (evalBlock_below h scope consequence).bind fun _ => .refl _
      · cases alternative with
        | none => exact .refl _
        | some b => exact (evalBlock_below h scope b).bind fun _ => .refl _
  | call _ callee args =>
      -- Whether a call quotes is read off the tree, so both sides agree on it.
      rw [evalWith, evalWith]
      split
      · next arg _ => exact quoteNode_below h scope arg
      · refine unlessUnwinding_below (h scope callee) fun f => ?_
        refine (evalAll_below h scope args).bind fun r => ?_
        split
        · exact applyValue_below h f _
        · exact .refl _
  | array _ items => exact (evalAll_below h scope items).bind fun _ => .refl _
  | index _ left index =>
      refine unlessUnwinding_below (h scope left) fun _ => ?_
      exact unlessUnwinding_below (h scope index) fun _ => .refl _
  | dict _ pairs => exact evalPairs_below h scope [] pairs

end Evaluation

/-- With more fuel, an expression is evaluated to the same value. -/
theorem evalExpr_below {fuel more : Nat} (hle : fuel ≤ more) :
    EvaluatorBelow (evalExpr fuel) (evalExpr more) := by
  induction fuel generalizing more with
  | zero => exact fun _ _ => .outOfFuel _
  | succ fuel ih =>
      -- One unit is spent on this level on both sides, and the rest goes to the levels below.
      obtain ⟨more, rfl⟩ := Nat.exists_eq_add_of_le' (Nat.lt_of_lt_of_le fuel.succ_pos hle)
      exact fun scope e => evalWith_below (ih (Nat.le_of_succ_le_succ hle)) scope e

/-! ### Enough fuel -/

namespace EvalM

variable {α : Type} {heap heap' : Heap} {a : α}

/-- With some amount of fuel, `x` ends in `heap'` with the answer
`a`. -/
def Ends (x : Nat → EvalM α) (heap : Heap) (a : α) (heap' : Heap) : Prop :=
  ∃ fuel, x fuel heap = .ok (a, heap')

/-- More fuel changes no answer of `x`. -/
def Steady (x : Nat → EvalM α) : Prop :=
  ∀ fuel more, fuel ≤ more → Below (x fuel) (x more)

namespace Steady

variable {x : Nat → EvalM α}

/-- What `x` answers with some amount of fuel, it answers with every
larger one. -/
theorem ends_iff (hx : Steady x) :
    Ends x heap a heap' ↔ ∀ᶠ fuel in Filter.atTop, x fuel heap = .ok (a, heap') := by
  rw [Filter.eventually_atTop]
  constructor
  · rintro ⟨fuel, hrun⟩
    exact ⟨fuel, fun more hle => (hx fuel more hle).ok hrun⟩
  · rintro ⟨fuel, hrun⟩
    exact ⟨fuel, hrun fuel (Nat.le_refl fuel)⟩

/-- There is only one answer. -/
theorem ends_unique (hx : Steady x) {b : α} {heap'' : Heap} (ha : Ends x heap a heap')
    (hb : Ends x heap b heap'') : b = a ∧ heap'' = heap' := by
  -- Some amount of fuel is enough for both.
  obtain ⟨fuel, hrun, hrun'⟩ := ((hx.ends_iff.mp ha).and (hx.ends_iff.mp hb)).exists
  cases hrun.symm.trans hrun'
  exact ⟨rfl, rfl⟩

end Steady

end EvalM

/-- Evaluates any node, like `evalNode`. A pending `return` stays
pending, unless it ends a program. -/
def evalPart (fuel : Nat) (scope : ScopeId) : Node → EvalM (Option Value)
  | .program p => evalProgram fuel scope p
  | .stmt s => evalStmt (evalExpr fuel) scope s
  | .block b => evalBlock (evalExpr fuel) scope b
  | .expr e => some <$> evalExpr fuel scope e

/-- More fuel does not change what a program comes to. -/
theorem evalProgram_steady (scope : ScopeId) (program : Program) :
    Steady fun fuel => evalProgram fuel scope program :=
  fun _ _ hle => (evalBody_below (evalExpr_below hle) scope none program).bind fun _ => .refl _

/-- Nor what any part of one does. -/
theorem evalPart_steady (scope : ScopeId) (node : Node) :
    Steady fun fuel => evalPart fuel scope node := by
  intro fuel more hle
  have h := evalExpr_below hle
  cases node with
  | program p => exact evalProgram_steady scope p fuel more hle
  | stmt s => exact evalStmt_below h scope s
  | block b => exact evalBlock_below h scope b
  | expr e =>
      have hsome : Below (evalExpr fuel scope e >>= fun v => pure (some v))
        (evalExpr more scope e >>= fun v => pure (some v)) := (h scope e).bind fun _ => .refl _
      exact hsome

end QuoteScript
