import QuoteScript.Proofs.Expansion.Tandem
import QuoteScript.Proofs.Expansion.Template
import QuoteScript.Proofs.Tree.Fitting

/-!
# `QuoteScript.Proofs.Expansion.Recursion`: expansion by recursion on the node

What a node expands to, as a function of the node. No heap is passed on
in it: the bodies of all macros are evaluated in the same heap, the one
that there is when the expansion begins. A node is rebuilt from what its
children expand to, and if it is the call of a macro then, the tree that
the macro gives takes its place.

* `Heap.macroCall?`: the call of a macro that a node is.
* `Heap.replacement`: what takes the place of a node.
* `Heap.expansion`: the recursion.
* `Heap.replacement_eq`, `Heap.expansion_eq_visit`: what the two have to
  do with `expandCall` and with a pass.
* `expandProgram_run_eq_error`: where the expansion of a program fails.
* `expandProgram_run_of_no_call`: programs that call no macro.
-/

set_option autoImplicit false

namespace QuoteScript

open EvalM

/-! ### What a node expands to -/

/-- What a computation gives in a heap, without the heap that it leaves
behind. -/
def Heap.answer {α : Type} (heap : Heap) (x : EvalM α) : Except Stop α :=
  Prod.fst <$> x heap

/-- The same for a computation that may fail. -/
def Heap.answerOrMisuse {α : Type} (heap : Heap) (x : ExceptT Misuse EvalM α) :
    ExceptT Misuse (Except Stop) α :=
  ExceptT.mk (heap.answer x.run)

/-- A call of a macro: what the macro is, and what it is called with. -/
structure MacroCall where
  name : String
  params : List String
  body : Block
  outer : ScopeId
  args : List Expr

/-- The value of the body on the quoted arguments. -/
def MacroCall.value (fuel : Nat) (call : MacroCall) : EvalM Value := do
  let quotes ← quoteAll call.args
  evalClosureBody (evalExpr fuel) call.params call.body call.outer quotes

namespace Heap

/-- The call of a macro that a node is. The callee is an identifier that
is bound to a macro. -/
def macroCall? (heap : Heap) (macros : ScopeId) (node : Node) : Option MacroCall :=
  match namedCall? node with
  | none => none
  | some (name, args) =>
    match heap.lookup macros name with
    | some (.closure .macroRule _ params body outer) => some ⟨name, params, body, outer, args⟩
    | _ => none

/-- What takes the place of a node when all of its parts have been
expanded: for the call of a macro with as many arguments as there are
parameters, the tree in the quote that the body gives. Every other node
stays. -/
def replacement (heap : Heap) (fuel : Nat) (macros : ScopeId) (node : Node) :
    ExceptT Misuse (Except Stop) Node :=
  match heap.macroCall? macros node with
  | none => return node
  | some call =>
    if call.params.length = call.args.length then do
      match ← ExceptT.lift (heap.answer (call.value fuel)) with
      | .quote _ tree => return tree
      | .fault f => throw (.evaluation call.name f.message)
      | v => throw (.notAQuote call.name v.kind)
    else throw (.wrongArgumentCount call.name call.params.length call.args.length)

/-- A node is rebuilt from the expansions of its children, and then it
is replaced. -/
def expansion (heap : Heap) (fuel : Nat) (macros : ScopeId) (t : Node) :
    ExceptT Misuse (Except Stop) Visit := do
  let visits ← t.children.attach.mapM fun ⟨c, _⟩ => heap.expansion fuel macros c
  let rebuilt := t.refill visits
  let tree ← heap.replacement fuel macros rebuilt
  return ⟨rebuilt, tree⟩
termination_by t

variable {heap heap₁ after : Heap} {macros : ScopeId} {fuel : Nat}

/-- The heap that is left is forgotten, and the answer is kept. -/
theorem answerOrMisuse_run {α : Type} (heap : Heap) (x : ExceptT Misuse EvalM α) :
    (heap.answerOrMisuse x).run = Prod.fst <$> x.run heap :=
  rfl

/-- A run that ends answers with what it ends with. -/
theorem answerOrMisuse_of_ok {α : Type} {x : ExceptT Misuse EvalM α} {r : Except Misuse α}
    (h : x.run heap = .ok (r, after)) : heap.answerOrMisuse x = ExceptT.mk (.ok r) := by
  show ExceptT.mk (Prod.fst <$> x.run heap) = _
  rw [h]
  rfl

/-- The recursion visits the nodes as a pass does. -/
theorem expansion_eq_visit (heap : Heap) (fuel : Nat) (macros : ScopeId) (t : Node) :
    heap.expansion fuel macros t = t.visit (heap.replacement fuel macros) := by
  induction t using Node.induction with
  | step t ih =>
      have hchildren : (t.children.attach.mapM fun ⟨c, _⟩ => heap.expansion fuel macros c) =
          t.children.attach.unattach.mapM (Node.visit (heap.replacement fuel macros)) :=
        List.mapM_subtype ih
      rw [expansion, hchildren, List.unattach_attach, Node.visit_eq]

/-- What a call of a macro is found with. -/
theorem of_macroCall? {node : Node} {call : MacroCall}
    (h : heap.macroCall? macros node = some call) :
    namedCall? node = some (call.name, call.args) ∧ ∃ a, heap.lookup macros call.name =
      some (.closure .macroRule a call.params call.body call.outer) := by
  unfold macroCall? at h
  split at h
  · cases h
  · next name args hnamed =>
      split at h
      · next a params body outer hlookup =>
          cases h
          exact ⟨hnamed, a, hlookup⟩
      · cases h

/-- What calls no macro is kept, and the heap is, too. -/
theorem expandCall_run_of_macroCall?_eq_none {node : Node} (h : heap.macroCall? macros node = none)
    (eval : Evaluator) : (expandCall eval macros node).run heap = .ok (.ok node, heap) := by
  refine expandCall_run_of_not_macro eval fun name args hnamed a params body outer hlookup => ?_
  unfold macroCall? at h
  rw [hnamed] at h
  simp only [hlookup] at h
  cases h

/-- The expansion of a call, with the evaluation of the body in one
piece. -/
theorem expandCall_run_of_macroCall? {node : Node} {call : MacroCall}
    (h : heap.macroCall? macros node = some call) (fuel : Nat) :
    (expandCall (evalExpr fuel) macros node).run heap =
      (if call.params.length = call.args.length then do
        let v ← ExceptT.lift (call.value fuel)
        match quotedTree call.name v with
        | .ok tree => return tree
        | .error misuse => throw misuse
      else throw (.wrongArgumentCount call.name call.params.length call.args.length) :
        ExceptT Misuse EvalM Node).run heap := by
  obtain ⟨hnamed, a, hlookup⟩ := of_macroCall? h
  have hrun : EvalM.lookup macros call.name heap = .ok (heap.lookup macros call.name, heap) := rfl
  unfold expandCall
  rw [hnamed]
  refine (bind_run_of_ok (lift_run hrun)).trans ?_
  simp only [hlookup]
  split
  -- Quoting the arguments and evaluating the body together are the value of the call.
  · have hbody (next : Value → ExceptT Misuse EvalM Node) :
        (ExceptT.lift (quoteAll call.args) >>= fun quotes =>
          ExceptT.lift (evalClosureBody (evalExpr fuel) call.params call.body call.outer quotes) >>=
            next).run = (ExceptT.lift (call.value fuel) >>= next).run := by
      simp only [MacroCall.value, ExceptT.run_bind_lift, bind_assoc]
    exact congrFun (hbody _) heap
  · rfl

/-- What takes the place of a node is what the expansion of the call
answers. -/
theorem replacement_eq (heap : Heap) (fuel : Nat) (macros : ScopeId) (node : Node) :
    heap.replacement fuel macros node =
      heap.answerOrMisuse (expandCall (evalExpr fuel) macros node) := by
  show _ = ExceptT.mk (Prod.fst <$> (expandCall (evalExpr fuel) macros node).run heap)
  unfold replacement
  cases hcall : heap.macroCall? macros node with
  | none =>
      rw [expandCall_run_of_macroCall?_eq_none hcall]
      rfl
  | some call =>
      rw [expandCall_run_of_macroCall? hcall]
      dsimp only
      split
      · cases hvalue : call.value fuel heap with
        | error stop =>
            rw [ExceptT.run_bind_lift, bind_run_of_error hvalue]
            simp only [answer, hvalue]
            rfl
        | ok r =>
            obtain ⟨v, after⟩ := r
            rw [ExceptT.run_bind_lift, bind_run hvalue]
            simp only [answer, hvalue]
            -- What is made of the value depends on its kind only.
            cases v with
            | closure kind => cases kind <;> rfl
            | _ => rfl
      · rfl

end Heap

/-! ### Programs -/

section Programs

variable {heap after : Heap} {macros : ScopeId} {fuel : Nat}

/-- A program is visited as its statements are, and it stays. -/
theorem visit_program (fuel : Nat) (macros : ScopeId) (p : Program) :
    (Node.program p).visit (expandCall (evalExpr fuel) macros) =
      (fun p' => (Node.program p').unchanged) <$> expandProgram fuel macros p := by
  have hroot (p : Program) :
      expandCall (evalExpr fuel) macros (.program p) = pure (.program p) := rfl
  simp [expandProgram_eq_visitBody, Node.visit, Node.visitParts, hroot, Node.unchanged]

/-- The expansion of a program fails in the first node, in postorder,
whose call fails. -/
theorem expandProgram_run_eq_error {misuse : Misuse} {program : Program} :
    (expandProgram fuel macros program).run heap = .ok (.error misuse, after) ↔
      ∃ before node rest visits heap₁,
        (Node.program program).postorder = before ++ node :: rest ∧
        (before.foldlM (handOut (expandCall (evalExpr fuel) macros)) []).run heap =
          .ok (.ok visits, heap₁) ∧
        (expandCall (evalExpr fuel) macros
          (node.refill (visits.take node.children.length).reverse)).run heap₁ =
            .ok (.error misuse, after) := by
  -- As a loop, the pass fails in one of its turns, and a turn fails only in its call.
  have hloop : (Node.program program).postorder.foldlM
      (handOut (expandCall (evalExpr fuel) macros)) [] =
        expandProgram fuel macros program >>= fun p' => pure [(Node.program p').unchanged] := by
    rw [Node.foldlM_postorder, visit_program]
    simp
  rw [← bind_pure_run_eq_error, ← hloop, foldlM_run_eq_error]
  simp only [handOut, bind_pure_run_eq_error]

/-- A program in which no node is the call of a macro is its own
expansion. -/
theorem expandProgram_run_of_no_call (fuel : Nat) {program : Program}
    (h : ∀ node ∈ (Node.program program).postorder, heap.macroCall? macros node = none) :
    (expandProgram fuel macros program).run heap = .ok (.ok program, heap) := by
  obtain ⟨_, hvisit, rfl⟩ := Node.visit_gives_unchanged (G := stayingOk Misuse heap)
    (f := expandCall (evalExpr fuel) macros) fun node hnode =>
      ⟨node, Heap.expandCall_run_of_macroCall?_eq_none (h node hnode) _, rfl⟩
  have hpass : (Node.transformM (expandCall (evalExpr fuel) macros) (.program program)).run heap =
      .ok (.ok (.program program), heap) := by
    rw [Node.transformM_eq_visit, map_eq_pure_bind]
    exact bind_run_of_ok hvisit
  exact bind_run_of_ok hpass

end Programs

end QuoteScript
