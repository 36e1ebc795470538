import Mathlib.Order.WellFounded
import QuoteScript.Proofs.Eval.Descent
import QuoteScript.Proofs.Eval.Splicing

/-!
# `QuoteScript.Proofs.Eval.Nesting`: splices inside splices

An evaluation goes down the tree, and a pass over a quoted tree goes down
that tree. Both come to an end. Only a call that splices makes a new
start: its argument is evaluated when calls inside it have been replaced
by quoted trees, so what is evaluated may be larger than what is written,
and there may be quotes in it again.

The evaluation of one argument waits for the evaluation of the next one.
When an evaluation ends, so does all that it has waited for, and each
with less fuel. So there is no endless chain of arguments then, and one
may argue by induction on what an evaluation waits for.

* `PassGetsTo`: the calls that splice, as a pass gets to them.
* `Splices`: the same for the evaluation of a node.
* `NestsEndlessly`: an endless chain of such calls.
* `acc_waitsFor_iff`: where there is none, there is an induction.
* `Splices.descends`: an argument takes less fuel than what it is
  spliced in.
* `acc_of_returns`: so there is no endless chain where an evaluation
  ends.
-/

set_option autoImplicit false

namespace QuoteScript

open EvalM

/-! ### Splices inside splices -/

/-- With some amount of fuel, nodes in a row are visited, and the calls
in them that splice are evaluated. -/
def Visited (scope : ScopeId) (ts : List Node) (heap : Heap) (visits : List Visit)
    (heap' : Heap) : Prop :=
  Ends (fun fuel => ts.mapM (Node.visit (spliceCall (evalExpr fuel scope)))) heap visits heap'

/-- `PassGetsTo scope t heap arg heap'`: the pass over a quoted tree gets
to a call that splices, and its argument is `arg` by then. The heap is
the one that all splices in front of it have left. -/
inductive PassGetsTo (scope : ScopeId) : Node → Heap → Expr → Heap → Prop where
  | child {t c : Node} {before behind : List Node} {visits : List Visit} {arg : Expr}
      {heap heap₁ heap₂ : Heap} (hchildren : t.children = before ++ c :: behind)
      (hbefore : Visited scope before heap visits heap₁) :
      PassGetsTo scope c heap₁ arg heap₂ → PassGetsTo scope t heap arg heap₂
  | here {t : Node} {visits : List Visit} {span : Span} {arg : Expr} {heap heap₁ : Heap}
      (hparts : Visited scope t.children heap visits heap₁)
      (hcall : unquotedArgument? (t.refill visits) = some (span, arg)) :
      PassGetsTo scope t heap arg heap₁

/-- `Splices scope node heap arg heap'`: the evaluation of a node gets to
a quote, and the pass over what is quoted to a call that splices. So
`arg` is evaluated in `heap'`, and not inside another such argument. -/
inductive Splices (scope : ScopeId) (node : Node) (heap : Heap) : Expr → Heap → Prop where
  | intro {t t' : Token} {e arg : Expr} {heap₁ heap₂ : Heap}
      (hreach : Reaches scope node heap (.expr (.call t (.ident t' "quote") [e])) heap₁)
      (hpass : PassGetsTo scope (.expr e) heap₁ arg heap₂) : Splices scope node heap arg heap₂

/-- Splices are nested without end: the evaluation of a node gets to the
first of infinitely many arguments, and the evaluation of each of them to
the next one. -/
def NestsEndlessly (scope : ScopeId) (node : Node) (heap : Heap) : Prop :=
  ∃ args : Nat → Expr, ∃ heaps : Nat → Heap, Splices scope node heap (args 0) (heaps 0) ∧
    ∀ n, Splices scope (.expr (args n)) (heaps n) (args (n + 1)) (heaps (n + 1))

/-- The second evaluation waits for the first one, which is that of an
argument. -/
def WaitsFor (scope : ScopeId) (inner outer : Node × Heap) : Prop :=
  ∃ arg, inner.1 = .expr arg ∧ Splices scope outer.1 outer.2 arg inner.2

variable {scope : ScopeId} {heap heap' heap₁ heap₂ : Heap} {node part t c : Node} {arg : Expr}

/-- The evaluation of a node, and behind it those of arguments. -/
def evaluationChain (node : Node) (heap : Heap) (args : Nat → Expr) (heaps : Nat → Heap) :
    Nat → Node × Heap
  | 0 => (node, heap)
  | n + 1 => (.expr (args n), heaps n)

/-- Where splices are not nested without end, there is an induction on
what an evaluation waits for. -/
theorem acc_waitsFor_iff : Acc (WaitsFor scope) (node, heap) ↔ ¬NestsEndlessly scope node heap := by
  rw [← not_iff_not, not_not, not_acc_iff_exists_descending_chain]
  constructor
  · rintro ⟨chain, hstart, hwaits⟩
    -- A chain that descends without end is read off as splices, each inside the one before.
    choose args hargs hsplices using hwaits
    have hfirst := hsplices 0
    rw [hstart] at hfirst
    refine ⟨args, fun n => (chain (n + 1)).2, hfirst, fun n => ?_⟩
    rw [← hargs n]
    exact hsplices (n + 1)
  · rintro ⟨args, heaps, hfirst, hnext⟩
    -- The chain starts at the node, and each argument is one step further down.
    refine ⟨evaluationChain node heap args heaps, rfl, fun n => ?_⟩
    cases n with
    | zero => exact ⟨args 0, rfl, hfirst⟩
    | succ n => exact ⟨args (n + 1), rfl, hnext n⟩

/-! ### Positions -/

/-- What splices in a part of a node splices in the node. -/
theorem Splices.of_enters (henters : Enters scope node heap part heap₁)
    (h : Splices scope part heap₁ arg heap₂) : Splices scope node heap arg heap₂ := by
  obtain ⟨hreach, hpass⟩ := h
  exact .intro (.inside henters hreach) hpass

/-- What an evaluation gets to is right below the node. -/
theorem Enters.mem_children (h : Enters scope node heap part heap₁) : part ∈ node.children := by
  cases h <;> simp [Node.children, Expr.children, Stmt.children, Block.body]

/-- A part that is reached is a part of the tree. -/
theorem Reaches.mem_postorder (h : Reaches scope node heap part heap₁) :
    part ∈ node.postorder := by
  induction h with
  | here => exact Node.self_mem_postorder _
  | inside henters _ ih => exact Node.mem_postorder_of_child henters.mem_children ih

/-! ### What has ended -/

/-- More fuel changes no visit. -/
theorem mapM_visit_steady (scope : ScopeId) (ts : List Node) :
    Steady fun fuel => ts.mapM (Node.visit (spliceCall (evalExpr fuel scope))) := by
  intro fuel more hle
  -- Only the argument of a call that splices takes fuel.
  have hcall (node : Node) : Below (spliceCall (evalExpr fuel scope) node)
      (spliceCall (evalExpr more scope) node) := by
    unfold spliceCall
    split
    · exact .refl _
    · next arg _ => exact (evalExpr_below hle scope arg).bind fun _ => .refl _
  exact mapM_relates (C := approximation) ts fun t _ => Node.visit_relates hcall t

/-- A pass that ends has ended in the argument that it gets to. -/
theorem PassGetsTo.descends {fuel : Nat} (hgets : PassGetsTo scope t heap arg heap₁)
    (h : Returns (t.visit (spliceCall (evalExpr fuel scope))) heap) :
    Returns (evalExpr fuel scope arg) heap₁ := by
  induction hgets with
  | child hchildren hbefore _ ih =>
      rw [Node.visit_eq, hchildren, List.mapM_append] at h
      -- The children in front are visited with the same fuel, and with the same outcome.
      have hrest := h.of_bind.next ((mapM_visit_steady scope _).run_eq hbefore h.of_bind.of_bind)
      rw [List.mapM_cons] at hrest
      exact ih hrest.of_bind.of_bind
  -- The call comes last, with all its parts replaced.
  | here hparts hcall =>
      rw [Node.visit_eq] at h
      have hroot := h.next ((mapM_visit_steady scope _).run_eq hparts h.of_bind)
      simp only [spliceCall, hcall] at hroot
      exact hroot.of_bind.of_bind

/-- An argument that is spliced takes less fuel than what it is spliced
in. -/
theorem Splices.descends {fuel : Nat} (hsplices : Splices scope node heap arg heap₁)
    (h : Returns (evalPart fuel scope node) heap) :
    ∃ less < fuel, Returns (evalPart less scope (.expr arg)) heap₁ := by
  obtain ⟨hreach, hpass⟩ := hsplices
  obtain ⟨most, hle, hquote⟩ := hreach.descends h
  obtain ⟨less, hlt, hrun⟩ := returns_evalExpr (returns_evalPart_expr.mp hquote)
  -- The call that quotes takes one level of fuel, and the pass the levels below it.
  have hquoted {f : Token} {e : Expr} : quotedArgument? (.ident f "quote") [e] = some e := by
    rw [quotedArgument?, if_pos rfl]
  simp only [evalWith, hquoted, quoteNode, Node.transformM_eq_visit, map_eq_pure_bind] at hrun
  exact ⟨less, hlt.trans_le hle, returns_evalPart_expr.mpr (hpass.descends hrun.of_bind.of_bind)⟩

/-- Where an evaluation ends, there is an induction on what it waits
for. -/
theorem acc_of_returns {fuel : Nat} (h : Returns (evalPart fuel scope node) heap) :
    Acc (WaitsFor scope) (node, heap) := by
  -- From each argument to the next one there is less fuel.
  induction fuel using Nat.strong_induction_on generalizing node heap with
  | h fuel ih =>
      refine .intro _ ?_
      rintro ⟨inner, heap₁⟩ ⟨arg, rfl, hsplices⟩
      obtain ⟨less, hlt, harg⟩ := hsplices.descends h
      exact ih less hlt harg

end QuoteScript
