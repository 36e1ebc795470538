import QuoteScript.Proofs.Expansion.Recursion
import QuoteScript.Proofs.Expansion.Writes
import QuoteScript.Proofs.Session.Growth

/-!
# `QuoteScript.Proofs.Session.Composition`: expansions of parts

What a program expands to can be put together from what its parts expand
to. The scope of macros is the same for all calls: the body of a macro
writes no scope that was there before, and what the calls before have
left in the heap makes no difference to it, since its run goes in step
with the one in the heap from before these calls. So the recursion on
the node, which always goes back to that heap, gives what the pass
gives, which goes on from one heap to the next.

A misuse ends the pass. So the misuse that is reported is the first one
in postorder, and nothing behind it is evaluated.

* `settled`: a pass that gives the same in every heap that has grown.
* `expandCall_settled`: one call.
* `expansion_is_compositional`: programs.
-/

set_option autoImplicit false

namespace QuoteScript

open EvalM

/-- What is said about a computation on the heap and one that has no
heap. From every heap that has grown, the first one gives what the
second one gives, and leaves a heap behind that has grown, too. -/
def settled (heap : Heap) : Coupling (ExceptT Misuse EvalM) (ExceptT Misuse (Except Stop)) where
  relates x y P := ∀ heap₁, heap.Grown heap₁ →
    match x.run heap₁ with
    | .ok (r, after) => heap₁.Grown after ∧ ∃ r', y.run = .ok r' ∧ OrFails P r r'
    | .error stop => y.run = .error stop
  pure {_ _ _ b _} h heap₁ _ := ⟨.refl heap₁, .ok b, rfl, .ok h⟩
  bind {_ _ _ _ x y next next' _ _} hx hnext heap₁ hgrown := by
    have hfirst := hx heap₁ hgrown
    rw [ExceptT.run_bind, ExceptT.run_bind]
    cases hrun : x.run heap₁ with
    | error stop =>
        rw [hrun] at hfirst
        rw [bind_run_of_error hrun, hfirst]
        rfl
    | ok r =>
        obtain ⟨r, middle⟩ := r
        rw [hrun] at hfirst
        obtain ⟨hmiddle, r', hy, hr⟩ := hfirst
        rw [bind_run hrun, hy]
        cases hr with
        | error e => exact ⟨hmiddle, .error e, rfl, .error e⟩
        | @ok a b hab =>
            -- The second part starts from a heap that has grown twice.
            have hsecond := hnext a b hab middle (hgrown.trans hmiddle)
            show match (next a).run middle with
              | .ok (r, after) => heap₁.Grown after ∧ ∃ r', (next' b).run = .ok r' ∧ OrFails _ r r'
              | .error stop => (next' b).run = .error stop
            cases hrest : (next a).run middle with
            | error stop =>
                rw [hrest] at hsecond
                exact hsecond
            | ok r =>
                rw [hrest] at hsecond
                obtain ⟨hafter, hrest'⟩ := hsecond
                exact ⟨hmiddle.trans hafter, hrest'⟩

section Settled

variable {α : Type} {heap heap₁ after : Heap} {x : ExceptT Misuse EvalM α}
  {y : ExceptT Misuse (Except Stop) α} {macros : ScopeId}

/-- The first computation answers with the second one. -/
theorem settled_answer (h : (settled heap).relates x y Eq) (hgrown : heap.Grown heap₁) :
    heap₁.answerOrMisuse x = y := by
  have hrun := h heap₁ hgrown
  show ExceptT.mk (Prod.fst <$> x.run heap₁) = y
  cases hx : x.run heap₁ with
  | error stop =>
      rw [hx] at hrun
      exact hrun.symm
  | ok r =>
      obtain ⟨r, after⟩ := r
      rw [hx] at hrun
      obtain ⟨-, r', hy, hr⟩ := hrun
      -- The heap that is left does not count, only what is answered.
      cases hr with
      | ok heq => exact heq ▸ hy.symm
      | error e => exact hy.symm

/-- The first computation leaves a heap behind that has grown. -/
theorem settled_grown (h : (settled heap).relates x y Eq) (hgrown : heap.Grown heap₁)
    {r : Except Misuse α} (hx : x.run heap₁ = .ok (r, after)) : heap₁.Grown after := by
  have hrun := h heap₁ hgrown
  rw [hx] at hrun
  exact hrun.1

/-- One call, in a heap that has grown. Its run goes in step with the
one in the heap before. -/
theorem expandCall_settled (hheap : heap.Coherent) (hmacros : macros.number < heap.frames.size)
    (fuel : Nat) (node : Node) :
    (settled heap).relates (expandCall (evalExpr fuel) macros node)
      (heap.replacement fuel macros node) Eq := by
  intro heap₁ hgrown
  let σ := heap.shift heap₁
  have hrenamed : heap.Renamed σ heap₁ := hheap.renamed hgrown
  -- The call goes the same way in both heaps, up to the numbers, and there are none in a tree.
  have hstep := Tandem.expandCall (T := (renamed σ).tandem)
    (w := (heap.frames.size, heap.nextHandle)) ((renamed σ).tandem.evalExpr fuel) hmacros node
  rw [show σ.scope macros = macros from Heap.shift_scope_of_lt hmacros heap₁] at hstep
  rw [Heap.replacement_eq, Heap.answerOrMisuse_run]
  cases hrun : (expandCall (evalExpr fuel) macros node).run heap with
  | error stop =>
      rw [hstep.of_stop ⟨rfl, hrenamed⟩ hrun]
      rfl
  | ok r =>
      obtain ⟨r, after⟩ := r
      obtain ⟨r₁, after₁, w', hrun₁, hle, ⟨rfl, hafter⟩, hr⟩ := hstep.of_run ⟨rfl, hrenamed⟩ hrun
      rw [hrun₁]
      have hcall := expandCall_extends (evalExpr_writes fuel) macros node
      have hextends : heap₁.Extends after₁ := (hcall heap₁ r₁ after₁ hrun₁).1
      have hhandles := hrenamed.nextHandle_le hafter (Prod.le_def.mp hle).2
      refine ⟨⟨hextends, hhandles⟩, r, rfl, ?_⟩
      cases hr with
      | ok heq => exact .ok heq.symm
      | error e => exact .error e

end Settled

/-- Expansion is compositional, and it reports the first misuse.

* After any nodes have been handed out, the heap has grown.
* In a heap that has grown, a tree expands to what the recursion says:
  whatever has been expanded before, and wherever the tree stands.
* So does a program, which stays a program.
* Two programs, one behind the other, expand to their expansions, one
  behind the other.
* The expansion of a program fails in the first misused call: all nodes
  before it, in postorder, have been expanded, and nothing behind it is
  evaluated.
* A program that calls no macro is its own expansion, tokens included. -/
theorem expansion_is_compositional {heap : Heap} {macros : ScopeId} (hheap : SessionHeap heap)
    (hmacros : macros.number < heap.frames.size) (fuel : Nat) :
    (∀ (nodes : List Node) visits r heap₁,
      (nodes.foldlM (handOut (expandCall (evalExpr fuel) macros)) visits).run heap =
          .ok (r, heap₁) →
        heap.Grown heap₁) ∧
    (∀ heap₁, heap.Grown heap₁ → ∀ t : Node,
      heap₁.answerOrMisuse (t.transformM (expandCall (evalExpr fuel) macros)) =
        Visit.answer <$> heap.expansion fuel macros t) ∧
    (∀ heap₁, heap.Grown heap₁ → ∀ program,
      Node.program <$> heap₁.answerOrMisuse (expandProgram fuel macros program) =
        Visit.answer <$> heap.expansion fuel macros (.program program)) ∧
    (∀ p q, heap.answerOrMisuse (expandProgram fuel macros (p ++ q)) = do
      let p' ← heap.answerOrMisuse (expandProgram fuel macros p)
      let q' ← heap.answerOrMisuse (expandProgram fuel macros q)
      return p' ++ q') ∧
    (∀ program misuse after,
      (expandProgram fuel macros program).run heap = .ok (.error misuse, after) ↔
        ∃ before node rest visits heap₁,
          (Node.program program).postorder = before ++ node :: rest ∧
          (before.foldlM (handOut (expandCall (evalExpr fuel) macros)) []).run heap =
            .ok (.ok visits, heap₁) ∧
          let rebuilt := node.refill (visits.take node.children.length).reverse
          heap.replacement fuel macros rebuilt = throw misuse ∧
            (expandCall (evalExpr fuel) macros rebuilt).run heap₁ = .ok (.error misuse, after)) ∧
    ∀ program, (∀ node ∈ (Node.program program).postorder, heap.macroCall? macros node = none) →
      (expandProgram fuel macros program).run heap = .ok (.ok program, heap) := by
  -- All passes below go over the same nodes, once on the heap and once without it.
  have hcall := expandCall_settled hheap.coherent hmacros fuel
  have hloop := foldlM_handOut_relates hcall
  have hbody {heap₁ : Heap} (hgrown : heap.Grown heap₁) (program : Program) :
      heap₁.answerOrMisuse (expandProgram fuel macros program) =
        visitBody (heap.replacement fuel macros) program := by
    rw [expandProgram_eq_visitBody]
    exact settled_answer (visitBody_relates hcall program) hgrown
  refine ⟨?grown, ?tree, ?whole, ?append, ?misuse, ?untouched⟩
  case grown =>
    intro nodes visits r heap₁ hrun
    exact settled_grown (hloop nodes visits) (.refl heap) hrun
  case tree =>
    intro heap₁ hgrown t
    rw [Heap.expansion_eq_visit, ← Node.transformM_eq_visit]
    exact settled_answer (Node.transformM_relates hcall t) hgrown
  case whole =>
    intro heap₁ hgrown program
    have hroot (p : Program) : heap.replacement fuel macros (.program p) = pure (.program p) := rfl
    rw [hbody hgrown, Heap.expansion_eq_visit]
    simp [Node.visit, Node.visitParts, hroot]
  case append =>
    intro p q
    simp only [hbody (.refl heap)]
    exact visitBody_append _ p q
  case misuse =>
    intro program misuse after
    rw [expandProgram_run_eq_error]
    constructor
    · rintro ⟨before, node, rest, visits, heap₁, hnodes, hbefore, hfails⟩
      -- The nodes before have left a heap behind that has grown.
      have hgrown := settled_grown (hloop before []) (.refl heap) hbefore
      refine ⟨before, node, rest, visits, heap₁, hnodes, hbefore, ?_, hfails⟩
      rw [← settled_answer (hcall _) hgrown]
      exact Heap.answerOrMisuse_of_ok hfails
    · rintro ⟨before, node, rest, visits, heap₁, hnodes, hbefore, -, hfails⟩
      exact ⟨before, node, rest, visits, heap₁, hnodes, hbefore, hfails⟩
  case untouched =>
    intro program hnone
    exact expandProgram_run_of_no_call fuel hnone

/-- A macro that is called in its own argument, in a program and in the
same program behind it. -/
theorem expansion_is_compositional_twice :
    let source := "let twice = macro(x) \x7b quote(unquote(x) + unquote(x)) \x7d"
    let program := (parse "twice(twice(1))").program
    let fresh : Heap := (({} : Heap).newScope none).2
    ∃ answer heap expanded, (expand 9 source ⟨0⟩).run fresh = .ok (answer, heap) ∧
      Program.render expanded = "((1 + 1) + (1 + 1));" ∧
      heap.answerOrMisuse (expandProgram 9 ⟨0⟩ (program ++ program)) =
        pure (expanded ++ expanded) := by
  intro source program fresh
  have hcomputed : ((expand 9 source ⟨0⟩).run fresh).toOption.bind (fun r =>
      ((expandProgram 9 ⟨0⟩ program).run r.2).toOption.bind fun r' =>
        r'.1.toOption.map fun expanded => (r.2.frames.size, Program.render expanded)) =
      some (1, "((1 + 1) + (1 + 1));") := by decide +kernel
  obtain ⟨⟨answer, heap⟩, hexpand, hsecond⟩ := exists_ok_of_bind_toOption hcomputed
  obtain ⟨⟨result, after⟩, hrun, hresult⟩ := exists_ok_of_bind_toOption hsecond
  obtain ⟨expanded, rfl, hread⟩ := exists_ok_of_map_toOption hresult
  obtain ⟨hsize, hrender⟩ := Prod.mk.inj hread
  refine ⟨answer, heap, expanded, hexpand, hrender, ?_⟩
  have hfresh : SessionHeap fresh := .newScope nofun .empty
  have hheap : SessionHeap heap := .expand Nat.one_pos hfresh hexpand
  have hmacros : (⟨0⟩ : ScopeId).number < heap.frames.size := by
    rw [hsize]
    exact Nat.one_pos
  -- The program is expanded once, and by the theorem the doubled program is, too.
  have happend := (expansion_is_compositional hheap hmacros 9).2.2.2.1 program program
  rw [happend, Heap.answerOrMisuse_of_ok hrun]
  rfl

end QuoteScript
