import QuoteScript.Proofs.Expansion.Stored
import QuoteScript.Proofs.Grammar.WellFormed
import QuoteScript.Session.Run

/-!
# `QuoteScript.Proofs.Session.Reachable`: the heaps of a session

A session starts with nothing. It makes scopes, and runs, expands and
evaluates source texts and trees in them, one after the other and in
any order. A step may end in a fault, and it may fail: what it has
bound until then stays bound.

Everything that a session binds may be stored, over every lexicon that
holds what is parsed and what is spliced. There are two of them: the
lexicon of all trees, and the lexicon of source texts.

* `expand_safe`, `run_safe`, `evaluate_safe`: one step.
* `Reachable`: the heaps of all sessions.
* `Reachable.over`: the invariant, by induction on the steps.
-/

set_option autoImplicit false

namespace QuoteScript

variable {L : Lexicon}

/-- A lexicon that holds the trees of all source texts, and the integer
literals that are spliced into trees. -/
structure Lexicon.Closed (L : Lexicon) : Prop where
  splices : L.Splices
  parses (source : String) : (parse source).errors = [] → bodyOver L (parse source).program

/-- What is parsed can be written down, and quotes are made of what was
parsed. -/
theorem Lexicon.closed_source : Lexicon.source.Closed where
  splices _ hn := hn
  parses _ h := parse_wellFormed h

/-- The full lexicon has everything in it. -/
theorem Lexicon.closed_full : Lexicon.full.Closed where
  splices _ _ := trivial
  parses source _ := bodyOver_full (parse source).program

/-! ### Steps -/

/-- A misuse fails the step, and changes nothing else. -/
theorem liftMisuse_keeps {α : Type} {inv : Heap → Prop} {x : ExceptT Misuse EvalM α}
    {P : α → Prop} (h : EvalM.KeepsOk inv x P) : EvalM.KeepsOk inv (liftMisuse x) P := by
  refine EvalM.Keeps.bind h fun r hr => ?_
  cases r with
  | ok a =>
      refine .pure fun b hb => ?_
      cases hb
      exact hr a rfl
  | error misuse => exact .pure nofun

/-- A source without errors is over the lexicon, and so is what it is
expanded to. -/
theorem expand_safe (hL : L.Closed) (fuel : Nat) (source : String) (macros : ScopeId) :
    SafeOrFails L (expand fuel source macros) (bodyOver L) := by
  unfold expand
  by_cases herrors : (parse source).errors.isEmpty = true
  · rw [if_pos herrors]
    have hparsed := hL.parses source (List.isEmpty_iff.mp herrors)
    refine (EvalM.KeepsOk.lift (defineMacros_safe macros hparsed)).bind fun program hprogram => ?_
    exact liftMisuse_keeps (expandProgram_safe hL.splices fuel macros hprogram)
  -- A text with errors ends the step before anything is bound.
  · rw [if_neg herrors]
    exact .throw

/-- So is the answer of a run. -/
theorem run_safe (hL : L.Closed) (fuel : Nat) (source : String) (scope macros : ScopeId) :
    SafeOrFails L (run fuel source scope macros) (OptionalAnswer L) := by
  refine (expand_safe hL fuel source macros).bind fun program hprogram => ?_
  exact EvalM.KeepsOk.lift (evalProgram_safe hL.splices fuel scope hprogram)

/-- So is the answer of an evaluation without macros. -/
theorem evaluate_safe (hL : L.Closed) (fuel : Nat) (source : String) (scope : ScopeId) :
    SafeOrFails L (evaluate fuel source scope) (OptionalAnswer L) := by
  unfold evaluate
  by_cases herrors : (parse source).errors.isEmpty = true
  · rw [if_pos herrors]
    have hparsed := hL.parses source (List.isEmpty_iff.mp herrors)
    exact EvalM.KeepsOk.lift (evalProgram_safe hL.splices fuel scope hparsed)
  · rw [if_neg herrors]
    exact .throw

/-! ### Sessions -/

/-- The heaps that sessions reach. Besides source texts, a session
evaluates the trees that are `evaluable`. Every step has some fuel and
ends, with an answer or a failure. -/
inductive Reachable (evaluable : Node → Prop) : Heap → Prop where
  | empty : Reachable evaluable {}
  | newScope {heap : Heap} (parent : Option ScopeId) :
      Reachable evaluable heap → Reachable evaluable (heap.newScope parent).2
  | expand {heap heap' : Heap} {fuel : Nat} {source : String} {macros : ScopeId}
      {answer : Except Failure Program} :
      Reachable evaluable heap → (expand fuel source macros).run heap = .ok (answer, heap') →
        Reachable evaluable heap'
  | run {heap heap' : Heap} {fuel : Nat} {source : String} {scope macros : ScopeId}
      {answer : Except Failure (Option Value)} :
      Reachable evaluable heap → (run fuel source scope macros).run heap = .ok (answer, heap') →
        Reachable evaluable heap'
  | evaluate {heap heap' : Heap} {fuel : Nat} {source : String} {scope : ScopeId}
      {answer : Except Failure (Option Value)} :
      Reachable evaluable heap → (evaluate fuel source scope).run heap = .ok (answer, heap') →
        Reachable evaluable heap'
  | evalNode {heap heap' : Heap} {fuel : Nat} {scope : ScopeId} {node : Node} {v : Value}
      (hnode : evaluable node) :
      Reachable evaluable heap → evalNode fuel scope node heap = .ok (v, heap') →
        Reachable evaluable heap'

/-- Everything that a session binds may be stored, if the trees that it
evaluates are over the lexicon. -/
theorem Reachable.over {evaluable : Node → Prop} (hL : L.Closed)
    (hevaluable : ∀ node, evaluable node → node.Over L) {heap : Heap}
    (h : Reachable evaluable heap) : heap.Over L := by
  -- The induction is on the steps: each is safe in the heap that those before it have left.
  induction h with
  | empty => exact Heap.over_empty
  | newScope parent _ ih => exact ih.newScope parent
  | expand _ hrun ih => exact ((expand_safe hL _ _ _).of_run ih hrun).1
  | run _ hrun ih => exact ((run_safe hL _ _ _ _).of_run ih hrun).1
  | evaluate _ hrun ih => exact ((evaluate_safe hL _ _ _).of_run ih hrun).1
  | evalNode hnode _ hrun ih =>
      exact ((evalNode_safe hL.splices _ _ (hevaluable _ hnode)).of_run ih hrun).1

end QuoteScript
