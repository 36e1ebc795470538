import QuoteScript.Expansion.Expand
import QuoteScript.Proofs.Eval.Writes

/-!
# `QuoteScript.Proofs.Expansion.Writes`: expansion writes no scope

The body of a macro is evaluated as the body of a function is, in a
scope of its own inside the scope of macros. So whatever it does, all
scopes that were there before stay as they were. The same holds of the
expansion of a whole program, whether it fails or not: it goes from one
call to the next, and each of them only adds scopes.

* `expandCall_extends`: one call.
* `expandProgram_extends`: a program.
* `evaluation_writes_its_own_scope`: nodes, calls, and macros.
-/

set_option autoImplicit false

namespace QuoteScript

open EvalM

/-- All scopes stay as they are, apart from new ones, whether `x` fails
or not. -/
abbrev ExtendsOrFails {α : Type} (x : ExceptT Misuse EvalM α) (P : α → Prop) : Prop :=
  ((moves .extending).orFails Misuse).gives x P

/-- Quoting arguments touches no scope. -/
theorem quoteAll_extends (es : List Expr) : Extends (quoteAll es) := by
  induction es with
  | nil => exact .pure trivial
  | cons e rest ih =>
      exact (newQuote_extends (.expr e)).bind fun _ _ => ih.bind fun _ _ => .pure trivial

/-- Expanding one call leaves all scopes as they are. -/
theorem expandCall_extends {eval : Evaluator} (heval : EvaluatorWrites eval) (macros : ScopeId)
    (node : Node) : ExtendsOrFails (expandCall eval macros node) fun _ => True := by
  let G := (moves .extending).orFails Misuse
  unfold expandCall
  cases namedCall? node with
  | none => exact G.pure trivial
  | some call =>
      obtain ⟨name, args⟩ := call
      refine G.bind (Guarantee.orFails_lift (lookup_extends macros name)) fun found _ => ?_
      split
      · next params body outer =>
          split
          · refine G.bind (Guarantee.orFails_lift (quoteAll_extends args)) fun quotes _ => ?_
            -- The body is evaluated in a scope of its own.
            have hbody := evalClosureBody_extends heval params body outer quotes
            refine G.bind (Guarantee.orFails_lift hbody) fun v _ => ?_
            cases quotedTree name v with
            | ok tree => exact G.pure trivial
            | error misuse => exact Guarantee.orFails_throw misuse
          · exact Guarantee.orFails_throw _
      · exact G.pure trivial

/-- Expanding a program leaves all scopes as they are. -/
theorem expandProgram_extends (fuel : Nat) (macros : ScopeId) (program : Program) :
    ExtendsOrFails (expandProgram fuel macros program) fun _ => True := by
  let G := (moves .extending).orFails Misuse
  have hcall := expandCall_extends (evalExpr_writes fuel) macros
  have hpreserves : Preserves G .full (expandCall (evalExpr fuel) macros) := fun node _ =>
    Moves.mono (hcall node) (fun _ _ h => h) fun _ _ tree _ => tree.over_full
  have hpass := Node.transformM_program_gives hpreserves (bodyOver_full program)
    fun program' _ => hcall (.program program')
  refine G.bind hpass fun node _ => Guarantee.orFails_lift ?_
  cases node with
  | program program' => exact Moves.pure trivial
  | _ => exact extends_stop _

/-- Evaluation writes its own scope.

* When a node has been evaluated in a scope, every other scope that was
  there has the same parent and the same bindings. The scope itself has
  the same parent, and still binds all names that it has bound.
* When a value has been called, all scopes that were there are as they
  were, the scope of the caller and that of the closure among them.
* So they are when the body of a closure has been evaluated, and when
  the macros of a program have been expanded. -/
theorem evaluation_writes_its_own_scope (fuel : Nat) (heap heap' : Heap) :
    (∀ scope node v, evalNode fuel scope node heap = .ok (v, heap') → heap.Writes scope heap') ∧
      (∀ callee args v, applyValue (evalExpr fuel) callee args heap = .ok (v, heap') →
        heap.Extends heap') ∧
      (∀ params body outer args v,
        evalClosureBody (evalExpr fuel) params body outer args heap = .ok (v, heap') →
          heap.Extends heap') ∧
      ∀ macros program result,
        (expandProgram fuel macros program).run heap = .ok (result, heap') →
          heap.Extends heap' := by
  have heval := evalExpr_writes fuel
  refine ⟨?node, ?call, ?body, ?expansion⟩
  case node =>
    intro scope node v hrun
    exact (evalNode_writes fuel scope node heap v heap' hrun).1
  case call =>
    intro callee args v hrun
    exact (applyValue_extends heval callee args heap v heap' hrun).1
  case body =>
    intro params body outer args v hrun
    exact (evalClosureBody_extends heval params body outer args heap v heap' hrun).1
  case expansion =>
    intro macros program result hrun
    exact (expandProgram_extends fuel macros program heap result heap' hrun).1

/-- A call on the right side of a `let`. The body of the function binds
`b` in the second scope, and the `let` binds `a` in the first one. -/
theorem evaluation_writes_its_own_scope_call :
    let t : Token := .eof 0
    let body : Block := .mk t [.letIn t "b" (.ident t "x"), .expr t (.ident t "b")]
    let call : Expr := .call t (.lambda t .function ["x"] body) [.int t 3]
    let heap : Heap := (({} : Heap).newScope none).2
    ∃ v heap', evalNode 4 ⟨0⟩ (.stmt (.letIn t "a" call)) heap = .ok (v, heap') ∧
      heap'.frames = #[⟨[("a", .int 3)], none⟩, ⟨[("x", .int 3), ("b", .int 3)], some ⟨0⟩⟩] ∧
      heap.Writes ⟨0⟩ heap' := by
  intro t body call heap
  refine ⟨_, _, rfl, rfl, ?_⟩
  exact (evaluation_writes_its_own_scope 4 heap _).1 ⟨0⟩ (.stmt (.letIn t "a" call)) .null rfl

end QuoteScript
