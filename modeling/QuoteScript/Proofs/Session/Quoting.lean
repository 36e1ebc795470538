import QuoteScript.Proofs.Eval.Splicing
import QuoteScript.Proofs.Expansion.Template
import QuoteScript.Proofs.Session.Reachable

/-!
# `QuoteScript.Proofs.Session.Quoting`: quotes in a session

In the heaps that a session reaches, quotes hold expressions. So what is
spliced into a quoted expression makes an expression of it again, and
what `quote(e)` does can be said in full: it evaluates the arguments of
the calls in `e` that splice, and makes one quote.

* `quote_evaluates_unquotes`: the value and the heap of `quote(e)`.
-/

set_option autoImplicit false

namespace QuoteScript

open EvalM

/-- The lexicon of all trees holds what is parsed and what is spliced,
also when only expressions are quoted. -/
theorem Lexicon.closed_expressions : Lexicon.expressions.Closed where
  splices _ _ := trivial
  parses source _ :=
    bodyOver_of_unrestricted Lexicon.unrestricted_expressions (parse source).program

section Quotes

/-- What is spliced into an expression makes an expression of it. -/
theorem Node.Spliced.exists_expr {e : Expr} {splices : List Splice} {t' : Node}
    (h : (Node.expr e).Spliced splices t') : ∃ tree, t' = .expr tree := by
  cases h with
  | kept => exact ⟨_, rfl⟩
  | call => exact ⟨_, rfl⟩

/-- The expression `quote(e)`, where no call splices. -/
theorem evalExpr_quote_of_none {e : Expr}
    (hnone : ∀ node ∈ (Node.expr e).postorder, unquotedArgument? node = none) (fuel : Nat)
    (scope : ScopeId) (t t' : Token) (heap : Heap) :
    evalExpr (fuel + 1) scope (.call t (.ident t' "quote") [e]) heap =
      .ok (.quote heap.newHandle.1 (.expr e), heap.newHandle.2) := by
  rw [evalExpr_quote_eq, quoteNode_run_iff]
  exact ⟨_, heap, ⟨_, visit_spliceCall_of_none hnone heap, rfl⟩, rfl, rfl⟩

/-- The expression `quote(unquote(quote(e)))`, where no call in `e`
splices. -/
theorem evalExpr_quote_unquote_quote {e : Expr}
    (hnone : ∀ node ∈ (Node.expr e).postorder, unquotedArgument? node = none) (fuel : Nat)
    (scope : ScopeId) (t t' t₁ t₃ : Token) {t₂ t₄ : Token} (name : String)
    (hunquote : t₂.literal = "unquote") (hquote : t₄.literal = "quote") (heap : Heap) :
    evalExpr (fuel + 2) scope (.call t (.ident t' "quote")
        [.call t₁ (.ident t₂ name) [.call t₃ (.ident t₄ "quote") [e]]]) heap =
      .ok (.quote heap.newHandle.2.newHandle.1 (.expr e), heap.newHandle.2.newHandle.2) := by
  let f := spliceCall (evalExpr (fuel + 1) scope)
  let inner : Expr := .call t₃ (.ident t₄ "quote") [e]
  let outer : Expr := .call t₁ (.ident t₂ name) [inner]
  -- No part of the outer call splices, and the call itself does.
  have hcallee : ∀ node ∈ (Node.expr (.ident t₂ name)).postorder,
      unquotedArgument? node = none := by
    rw [Node.postorder_ident]
    exact List.forall_mem_singleton.mpr rfl
  have hinner : ∀ node ∈ (Node.expr inner).postorder, unquotedArgument? node = none := by
    have hroot : unquotedArgument? (.expr inner) = none := by
      rw [unquotedArgument?, if_neg (by rw [Expr.token, hquote]; decide)]
    rw [Node.postorder_namedCall]
    refine List.forall_mem_cons.mpr ⟨rfl, List.forall_mem_append.mpr ⟨hnone, ?_⟩⟩
    exact List.forall_mem_singleton.mpr hroot
  have hparts : ∀ c ∈ (Node.expr outer).children, c.visit f heap = .ok (c.unchanged, heap) :=
    List.forall_mem_cons.mpr ⟨visit_spliceCall_of_none hcallee heap,
      List.forall_mem_singleton.mpr (visit_spliceCall_of_none hinner heap)⟩
  have hsplice : f (.expr outer) heap = .ok (.expr e, heap.newHandle.2) := by
    have hwritten : (Expr.ident t₂ name).token.literal = "unquote" := hunquote
    have hunquoted : unquotedArgument? (.expr outer) = some (t₁.span, inner) :=
      unquotedArgument?_call hwritten t₁ inner
    have hvalue := evalExpr_quote_of_none hnone fuel scope t₃ t₄ heap
    show spliceCall _ _ _ = _
    rw [spliceCall, hunquoted]
    exact bind_run hvalue
  rw [evalExpr_quote_eq, quoteNode_run_iff]
  exact ⟨_, _, ⟨_, Node.visit_of_unchanged hparts hsplice, rfl⟩, rfl, rfl⟩

/-- The expression `quote(e)` evaluates the arguments of the calls in `e`
that splice, and nothing else. No call that splices is the callee of a
call, and the heap is one that a session reaches.

What is spliced is listed in postorder, every call once. The arguments
are evaluated in this order, each of them with the calls inside of it
replaced already, and this is all that happens to the heap before the
quote gets its handle. The quote holds the expression in which the calls
have been replaced by the trees of their values. A call whose value has
no tree stays, and all other nodes keep their tokens.

In particular nothing happens if no call splices. Then the quote holds
`e`, and so does that of `quote(unquote(quote(e)))`. -/
theorem quote_evaluates_unquotes {heap : Heap} (hheap : Reachable (fun _ => True) heap)
    (fuel : Nat) (scope : ScopeId) (t t' : Token) {e : Expr}
    (hcalls : (Node.expr e).CallsNoSplice) :
    (∀ v after, evalExpr (fuel + 1) scope (.call t (.ident t' "quote") [e]) heap = .ok (v, after) ↔
      ∃ splices tree heap₁, (Node.expr e).Spliced splices (.expr tree) ∧
        Evaluates (evalExpr fuel scope) heap splices heap₁ ∧
        v = .quote heap₁.newHandle.1 (.expr tree) ∧ after = heap₁.newHandle.2) ∧
    (∀ splices tree, (Node.expr e).Spliced splices tree → splices.map Splice.call =
      (Node.expr e).postorder.filter fun node => (unquotedArgument? node).isSome) ∧
    ((∀ node ∈ (Node.expr e).postorder, unquotedArgument? node = none) →
      evalExpr (fuel + 1) scope (.call t (.ident t' "quote") [e]) heap =
          .ok (.quote heap.newHandle.1 (.expr e), heap.newHandle.2) ∧
        ∀ t₁ t₂ t₃ t₄ name, t₂.literal = "unquote" → t₄.literal = "quote" →
          evalExpr (fuel + 2) scope (.call t (.ident t' "quote")
              [.call t₁ (.ident t₂ name) [.call t₃ (.ident t₄ "quote") [e]]]) heap =
            .ok (.quote heap.newHandle.2.newHandle.1 (.expr e),
              heap.newHandle.2.newHandle.2)) := by
  -- Quotes in the heap hold expressions, so whatever is spliced is one.
  have hover : heap.Over .expressions :=
    hheap.over Lexicon.closed_expressions fun node _ =>
      node.over_of_unrestricted Lexicon.unrestricted_expressions
  have heval : SafeEvaluator .expressions (evalExpr fuel) := evalExpr_safe (fun _ _ => trivial) fuel
  refine ⟨fun v after => ?value, fun splices tree hspliced => hspliced.calls, fun hnone => ?none⟩
  case value =>
    rw [evalExpr_quote_eq, quoteNode_run_iff]
    constructor
    · rintro ⟨answer, heap₁, hvisit, rfl, rfl⟩
      obtain ⟨splices, hspliced, hevaluates⟩ :=
        (Node.visit_spliceCall_iff heval hcalls hover).mp hvisit
      obtain ⟨tree, rfl⟩ := hspliced.exists_expr
      exact ⟨splices, tree, heap₁, hspliced, hevaluates, rfl, rfl⟩
    · rintro ⟨splices, tree, heap₁, hspliced, hevaluates, rfl, rfl⟩
      have hvisit := (Node.visit_spliceCall_iff heval hcalls hover).mpr
        ⟨splices, hspliced, hevaluates⟩
      exact ⟨.expr tree, heap₁, hvisit, rfl, rfl⟩
  case none =>
    refine ⟨evalExpr_quote_of_none hnone fuel scope t t' heap, ?_⟩
    intro t₁ t₂ t₃ t₄ name hunquote hquote
    exact evalExpr_quote_unquote_quote hnone fuel scope t t' t₁ t₃ name hunquote hquote heap

/-- The expression `quote([unquote(0 - 7), unquote(x)])`, where nothing is
bound. -/
theorem quote_evaluates_unquotes_array :
    let t : Token := .fixed .leftParen {}
    let unquote (arg : Expr) : Expr := .call t (.mkIdent "unquote") [arg]
    let e : Expr := .array (.fixed .leftBracket {})
      [unquote (.mkBinary .subtract (.mkInt 0) (.mkInt 7)), unquote (.mkIdent "x")]
    let heap : Heap := (({} : Heap).newScope none).2
    Reachable (fun _ => True) heap ∧ (Node.expr e).CallsNoSplice ∧
      ∃ splices tree heap₁, (Node.expr e).Spliced splices (.expr tree) ∧ splices.length = 2 ∧
        Evaluates (evalExpr 2 ⟨0⟩) heap splices heap₁ ∧ heap₁.frames = heap.frames ∧
        tree.render = "[(-7), unquote(x)]" := by
  intro t unquote e heap
  have hreachable : Reachable (fun _ => True) heap := .newScope none .empty
  have hpostorder : (Node.expr e).postorder =
      [.expr (.mkIdent "unquote"), .expr (.mkInt 0), .expr (.mkInt 7),
        .expr (.mkBinary .subtract (.mkInt 0) (.mkInt 7)),
        .expr (unquote (.mkBinary .subtract (.mkInt 0) (.mkInt 7))),
        .expr (.mkIdent "unquote"), .expr (.mkIdent "x"), .expr (unquote (.mkIdent "x")),
        .expr e] := by
    simp [e, unquote, Node.postorder_eq, Node.children, Expr.children, Expr.mkIdent, Expr.mkBinary,
      Expr.mkInt]
  -- Both calls are of the name `unquote`, which is not itself a splice.
  have hcalls : (Node.expr e).CallsNoSplice := by
    intro token callee args hcall
    have hcallee : callee = .mkIdent "unquote" := by
      rw [hpostorder] at hcall
      obtain ⟨-, rfl, -⟩ | ⟨-, rfl, -⟩ : (token = t ∧ callee = .mkIdent "unquote" ∧
          args = [.mkBinary .subtract (.mkInt 0) (.mkInt 7)]) ∨
            (token = t ∧ callee = .mkIdent "unquote" ∧ args = [.mkIdent "x"]) := by
        simpa [e, unquote, Expr.mkIdent, Expr.mkInt, Expr.mkBinary] using hcall
      · rfl
      · rfl
    rw [hcallee]
    rfl
  obtain ⟨hvalue, hsplices, -⟩ := quote_evaluates_unquotes hreachable 2 ⟨0⟩ t t hcalls
  let tree : Expr := .array (.fixed .leftBracket {})
    [.mkUnary .negate (.mkInt 7), unquote (.mkIdent "x")]
  have hrun : evalExpr 3 ⟨0⟩ (.call t (.ident t "quote") [e]) heap =
      .ok (.quote ⟨0⟩ (.expr tree), heap.newHandle.2) := rfl
  obtain ⟨splices, tree', heap₁, hspliced, hevaluates, htree, hafter⟩ := (hvalue _ _).mp hrun
  obtain ⟨-, rfl⟩ : _ ∧ tree = tree' := by simpa using htree
  refine ⟨hreachable, hcalls, splices, tree, heap₁, hspliced, ?_, hevaluates, ?_, ?_⟩
  · have hlength := congrArg List.length (hsplices _ _ hspliced)
    rw [List.length_map, hpostorder] at hlength
    exact hlength
  · exact (congrArg Heap.frames hafter).symm
  · decide +kernel

end Quotes

end QuoteScript
