import QuoteScript.Expansion.Expand
import QuoteScript.Proofs.Eval.Logic
import QuoteScript.Proofs.Tree.Postorder

/-!
# `QuoteScript.Proofs.Expansion.FirstMisuse`: a pass that goes on after a failure

A misuse ends `expandProgram` at once. There is another way to report the
first misuse: the pass goes on to its last node, but it keeps the misuse,
and from then on it gives back every node as it is, without looking for a
call in it. The tree that comes of this is thrown away.

The two ways are the same. As long as nothing has failed, they hand out
the same nodes in the same heaps. After that the first one has ended, and
the second one does nothing any more: it makes no scope and no handle, and
no body of a macro is evaluated.

* `untilFailure`: a transform that stops transforming when it has failed.
* `keepingFailure`: what is said of a pass that ends and of one that goes
  on.
* `expandKeepingMisuse`: an expansion that goes on.
* `expandProgram_run_eq_expandKeepingMisuse`: it is `expandProgram`.
-/

set_option autoImplicit false

namespace QuoteScript

open EvalM

variable {ε : Type}

/-- A transform that is asked until it fails. The failure is kept, the
node is given back as it was, and so is every later node. -/
def untilFailure (f : Node → ExceptT ε EvalM Node) (node : Node) :
    StateT (Option ε) EvalM Node := do
  match ← get with
  | some _ => return node
  | none =>
    match ← (f node).run with
    | .ok answer => return answer
    | .error failure =>
      set (some failure)
      return node

/-- What is said of a computation that ends where it fails and of one that
goes on. Once there is a failure, the second one leaves it and the heap
alone. If there is none yet, both leave the same heap behind: the second
one has kept the failure of the first one, or it has kept none, and the
answers have the property.

What the second one answers after a failure is an answer that the first
one could have given, so that it can go on with it. -/
def keepingFailure (ε : Type) : Coupling (ExceptT ε EvalM) (StateT (Option ε) EvalM) where
  relates x y P :=
    (∀ failure heap, ∃ a b, P a b ∧
      y.run (some failure) heap = .ok ((b, some failure), heap)) ∧
    ∀ heap, match x.run heap with
      | .ok (.ok a, after) => ∃ b, P a b ∧ y.run none heap = .ok ((b, none), after)
      | .ok (.error failure, after) =>
        ∃ a b, P a b ∧ y.run none heap = .ok ((b, some failure), after)
      | .error stop => y.run none heap = .error stop
  pure {_ _ a b _} h := ⟨fun _ _ => ⟨a, b, h, rfl⟩, fun _ => ⟨b, h, rfl⟩⟩
  bind {_ _ _ _ x y next next' _ Q} hx hnext := by
    obtain ⟨hskips, hruns⟩ := hx
    refine ⟨fun failure heap => ?skips, fun heap => ?runs⟩
    case skips =>
      obtain ⟨a, b, hab, hy⟩ := hskips failure heap
      obtain ⟨c, d, hcd, hd⟩ := (hnext a b hab).1 failure heap
      rw [StateT.run_bind]
      exact ⟨c, d, hcd, (bind_run hy).trans hd⟩
    case runs =>
      have hfirst := hruns heap
      rw [ExceptT.run_bind, StateT.run_bind]
      cases hrun : x.run heap with
      | error stop =>
          rw [hrun] at hfirst
          rw [bind_run_of_error hrun, bind_run_of_error hfirst]
      | ok r =>
          obtain ⟨result, middle⟩ := r
          rw [hrun] at hfirst
          rw [bind_run hrun]
          cases result with
          | ok a =>
              obtain ⟨b, hab, hy⟩ := hfirst
              rw [bind_run hy]
              exact (hnext a b hab).2 middle
          | error failure =>
              -- The first one has ended here. The second one goes on, with nothing to do.
              obtain ⟨a, b, hab, hy⟩ := hfirst
              obtain ⟨c, d, hcd, hd⟩ := (hnext a b hab).1 failure middle
              exact ⟨c, d, hcd, (bind_run hy).trans hd⟩

/-- A node that is handed out before anything has failed. -/
theorem untilFailure_run_none (f : Node → ExceptT ε EvalM Node) (node : Node) :
    (untilFailure f node).run none = (do
      match ← (f node).run with
      | .ok answer => return (answer, none)
      | .error failure => return (node, some failure)) := by
  rw [untilFailure]
  simp only [StateT.run_bind, StateT.run_get, pure_bind, StateT.run_monadLift, bind_assoc]
  congr 1
  funext result
  cases result <;> rfl

/-- A transform is asked as long as it has not failed, and then it is not
asked any more. -/
theorem untilFailure_relates (f : Node → ExceptT ε EvalM Node) (node : Node) :
    (keepingFailure ε).relates (f node) (untilFailure f node) Eq := by
  refine ⟨fun failure heap => ⟨node, node, rfl, rfl⟩, fun heap => ?_⟩
  rw [untilFailure_run_none]
  cases hrun : (f node).run heap with
  | error stop => exact bind_run_of_error hrun
  | ok r =>
      obtain ⟨result, after⟩ := r
      cases result with
      | ok answer => exact ⟨answer, rfl, bind_run hrun⟩
      | error failure => exact ⟨node, node, rfl, bind_run hrun⟩

/-- Expands the calls of macros in a program. The first misuse is kept
until the pass is through. -/
def expandKeepingMisuse (fuel : Nat) (macros : ScopeId) (program : Program) :
    EvalM (Except Misuse Program) := do
  let (node, failure) ←
    (Node.transformM (untilFailure (expandCall (evalExpr fuel) macros)) (.program program)).run none
  match failure with
  | some misuse => return .error misuse
  | none => return .ok (← programOf node)

/-- Ending with the first misuse is the same as keeping it: both give the
same program or report the same misuse, and they leave the same heap
behind. -/
theorem expandProgram_run_eq_expandKeepingMisuse (fuel : Nat) (macros : ScopeId)
    (program : Program) :
    (expandProgram fuel macros program).run = expandKeepingMisuse fuel macros program := by
  have hpass := (Node.transformM_relates
    (untilFailure_relates (expandCall (evalExpr fuel) macros)) (.program program)).2
  funext heap
  have hruns := hpass heap
  rw [expandProgram, expandKeepingMisuse, ExceptT.run_bind]
  cases hrun :
      (Node.transformM (expandCall (evalExpr fuel) macros) (.program program)).run heap with
  | error stop =>
      rw [hrun] at hruns
      rw [bind_run_of_error hrun, bind_run_of_error hruns]
  | ok r =>
      obtain ⟨result, after⟩ := r
      rw [hrun] at hruns
      -- With a misuse kept, the tree is thrown away; without one, the trees are equal.
      cases result with
      | error misuse =>
          obtain ⟨_, _, _, hkept⟩ := hruns
          rw [bind_run hrun, bind_run hkept]
      | ok node =>
          obtain ⟨_, rfl, hkept⟩ := hruns
          rw [bind_run hrun, bind_run hkept]
          rfl

end QuoteScript
