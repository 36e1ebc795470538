import QuoteScript.Proofs.Session.Reachable

/-!
# `QuoteScript.Proofs.Session.Unwinding`: what unwinds is never data

A pending `return` and a fault leave the expression that they occur in.
They are never bound, and they are no part of an array or a dict. A
`return` is pending until it ends a call or a run, and what is returned
does not unwind itself.

The lexicon of all trees restricts nothing, and over it the invariant
of evaluation is that everything that is bound is clean. So all of this
is the invariant at that lexicon.

* `Heap.over_full`: the invariant.
* `unwinding_is_never_data`: sessions, evaluations, calls and runs.
-/

set_option autoImplicit false

namespace QuoteScript

namespace Value

/-- A clean value, or a fault. -/
def CleanOrFault (v : Value) : Prop :=
  v.Clean ∨ ∃ f, v = .fault f

/-- A clean value, a pending `return` of one, or a fault. -/
def CleanOrUnwinds (v : Value) : Prop :=
  v.Clean ∨ (∃ w, v = .returned w ∧ w.Clean) ∨ ∃ f, v = .fault f

/-- Neither a clean value nor a fault is a pending `return`. -/
theorem CleanOrFault.ne_returned {v : Value} (h : v.CleanOrFault) (w : Value) :
    v ≠ .returned w := by
  rintro rfl
  rcases h with hclean | ⟨f, hf⟩
  · exact Bool.noConfusion (hclean _ (.self _))
  · cases hf

/-- An answer is clean, or it is a fault. -/
theorem Answer.cleanOrFault {L : Lexicon} {v : Value} (h : v.Answer L) : v.CleanOrFault := by
  cases h with
  | stored h => exact .inl h.clean
  | fault f => exact .inr ⟨f, rfl⟩

/-- An outcome is clean, or it unwinds. -/
theorem Outcome.cleanOrUnwinds {L : Lexicon} {v : Value} (h : v.Outcome L) :
    v.CleanOrUnwinds := by
  cases h with
  | stored h => exact .inl h.clean
  | returned h => exact .inr (.inl ⟨_, rfl, h.clean⟩)
  | fault f => exact .inr (.inr ⟨f, rfl⟩)

end Value

/-- Over the lexicon of all trees, a heap is in order if everything that
is bound is clean. -/
theorem Heap.over_full : Heap.Over .full = Heap.Clean :=
  funext fun _ => propext Heap.over_full_iff

/-- Over the full lexicon nothing is asked of items but that they are
clean. -/
theorem itemsOver_full_iff {values : List Value} :
    itemsOver .full values ↔ ∀ v ∈ values, v.Clean := by
  simp only [itemsOver_iff, Value.over_full_iff]

/-- What is safe over the lexicon of all trees keeps everything that is
bound clean. -/
theorem Safe.clean {α : Type} {x : EvalM α} {P Q : α → Prop} (h : Safe .full x P)
    (hPQ : ∀ a, P a → Q a) : EvalM.Keeps Heap.Clean x Q :=
  Heap.over_full ▸ EvalM.Keeps.mono h hPQ

/-- The heaps of sessions are clean, whichever trees are evaluated. -/
theorem Reachable.clean {heap : Heap} (h : Reachable (fun _ => True) heap) : heap.Clean :=
  Heap.over_full_iff.mp (h.over Lexicon.closed_full fun node _ => node.over_full)

/-- What unwinds is never data.

* Everything that a session binds is clean.
* Evaluation keeps everything clean. It answers with a clean value, a
  pending `return` of one, or a fault, and arguments and items are clean
  when all of them have a value.
* No `return` is pending behind a call or the body of a macro, and none
  behind a run or the evaluation of a tree. -/
theorem unwinding_is_never_data :
    (∀ heap, Reachable (fun _ => True) heap → heap.Clean) ∧
      (∀ v : Value, v.CleanOrFault → ∀ w, v ≠ .returned w) ∧
      ∀ fuel : Nat,
        (∀ scope e, EvalM.Keeps Heap.Clean (evalExpr fuel scope e) Value.CleanOrUnwinds) ∧
        (∀ scope s, EvalM.Keeps Heap.Clean (evalStmt (evalExpr fuel) scope s)
          fun v => ∀ w, v = some w → w.CleanOrUnwinds) ∧
        (∀ scope b, EvalM.Keeps Heap.Clean (evalBlock (evalExpr fuel) scope b)
          fun v => ∀ w, v = some w → w.CleanOrUnwinds) ∧
        (∀ scope es, EvalM.Keeps Heap.Clean (evalAll (evalExpr fuel scope) es)
          fun r => ∀ values, r = .ok values → ∀ v ∈ values, v.Clean) ∧
        (∀ callee args, callee.Clean → (∀ arg ∈ args, arg.Clean) →
          EvalM.Keeps Heap.Clean (applyValue (evalExpr fuel) callee args) Value.CleanOrFault) ∧
        (∀ params body outer args, (∀ arg ∈ args, arg.Clean) →
          EvalM.Keeps Heap.Clean (evalClosureBody (evalExpr fuel) params body outer args)
            Value.CleanOrFault) ∧
        (∀ source scope macros, EvalM.KeepsOk Heap.Clean (run fuel source scope macros)
          fun v => ∀ w, v = some w → w.CleanOrFault) ∧
        (∀ source scope, EvalM.KeepsOk Heap.Clean (evaluate fuel source scope)
          fun v => ∀ w, v = some w → w.CleanOrFault) ∧
        ∀ scope node, EvalM.Keeps Heap.Clean (evalNode fuel scope node) Value.CleanOrFault := by
  refine ⟨fun _ => Reachable.clean, fun _ => Value.CleanOrFault.ne_returned, fun fuel => ?_⟩
  -- With everything in the lexicon, being over it is just being clean.
  have hL := Lexicon.closed_full
  have heval := evalExpr_safe hL.splices fuel
  refine ⟨?expr, ?stmt, ?block, ?all, ?call, ?body, ?run, ?evaluate, ?node⟩
  case expr =>
    intro scope e
    exact (heval scope e e.over_full).clean fun _ => Value.Outcome.cleanOrUnwinds
  case stmt =>
    intro scope s
    exact (evalStmt_safe heval scope s.over_full).clean fun v hv w hw => (hv w hw).cleanOrUnwinds
  case block =>
    intro scope b
    exact (evalBlock_safe heval scope b.over_full).clean fun v hv w hw => (hv w hw).cleanOrUnwinds
  case all =>
    intro scope es
    exact (evalAll_safe heval scope (exprsOver_full es)).clean fun r hr values hvalues =>
      itemsOver_full_iff.mp (hr.1 values hvalues)
  case call =>
    intro callee args hcallee hargs
    have hover := Value.over_full_iff.mpr hcallee
    exact (applyValue_safe heval hover (itemsOver_full_iff.mpr hargs)).clean fun _ =>
      Value.Answer.cleanOrFault
  case body =>
    intro params body outer args hargs
    have hover := itemsOver_full_iff.mpr hargs
    exact Safe.clean (evalClosureBody_safe heval body.over_full outer hover) fun _ =>
      Value.Answer.cleanOrFault
  case run =>
    intro source scope macros
    exact Safe.clean (run_safe hL fuel source scope macros) fun r hr v hv w hw =>
      (hr v hv w hw).cleanOrFault
  case evaluate =>
    intro source scope
    exact Safe.clean (evaluate_safe hL fuel source scope) fun r hr v hv w hw =>
      (hr v hv w hw).cleanOrFault
  case node =>
    intro scope node
    exact (evalNode_safe hL.splices fuel scope node.over_full).clean fun _ =>
      Value.Answer.cleanOrFault

/-- A call whose body returns before its last statement, in the first
scope of a session. -/
theorem unwinding_is_never_data_early_return :
    let t : Token := ⟨.ident, "a", ⟨0, 1⟩⟩
    let body : Block := .mk t [.ret t (.ident t "a"), .expr t (.int t 2)]
    let callee : Value := .closure .function ⟨0⟩ ["a"] body ⟨0⟩
    let heap : Heap := (({} : Heap).newScope none).2
    heap.Clean ∧ callee.Clean ∧
      ∃ v heap', applyValue (evalExpr 3) callee [.int 1] heap = .ok (v, heap') ∧
        v = .int 1 ∧ heap'.Clean ∧ v.CleanOrFault := by
  intro t body callee heap
  obtain ⟨hsessions, -, hfuel⟩ := unwinding_is_never_data
  have hclean : heap.Clean := hsessions heap (.newScope none .empty)
  have hcallee : callee.Clean :=
    Value.over_full_iff.mp ⟨fun _ _ => trivial, body.over_full⟩
  have hargs : ∀ arg ∈ [Value.int 1], arg.Clean :=
    itemsOver_full_iff.mp ⟨trivial, trivial⟩
  obtain ⟨-, -, -, -, hcalls, -⟩ := hfuel 3
  have hcall := (hcalls callee [.int 1] hcallee hargs).of_run hclean (a := .int 1) rfl
  exact ⟨hclean, hcallee, _, _, rfl, rfl, hcall⟩

end QuoteScript
