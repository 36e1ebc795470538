import QuoteScript.Proofs.Eval.Inherited
import QuoteScript.Proofs.Session.Reachable

/-!
# `QuoteScript.Proofs.Session.Inherited`: what values have in a session

Expansion binds closures and quotes, and evaluates the bodies of macros.
So it keeps what evaluation hands on, and with it every step of a session
does, whether it fails or not. What is handed on is known of everything
that is bound in a heap that a session reaches, and of every value that
is answered there.

* `Inheritance.HandsOrFails`: what is said of a step.
* `Inheritance.expandProgram`, `Inheritance.expand`, `Inheritance.run`,
  `Inheritance.evaluate`: one step.
* `Inheritance.reachable`: the heaps of all sessions, by induction on the
  steps.
* `Inherited.run`, `Inherited.evaluate`, `Inherited.reachable`: the same
  in a single world.
-/

set_option autoImplicit false

namespace QuoteScript

open EvalM

namespace Inheritance

variable {I : Inheritance} {w : I.World} {α β ε : Type}

/-- The same for a computation that may fail in some other way. -/
def HandsOrFails (I : Inheritance) (w : I.World) (x : ExceptT ε EvalM α)
    (Q : I.World → α → Prop) : Prop :=
  I.Hands w x.run fun w' r => ∀ a, r = .ok a → Q w' a

namespace HandsOrFails

variable {Q : I.World → α → Prop}

/-- An answer that has the property. -/
theorem pure {a : α} (h : Q w a) : I.HandsOrFails w (Pure.pure a : ExceptT ε EvalM α) Q :=
  Hands.pure fun _ ha => Except.ok.inj ha ▸ h

/-- A failure has no answer. -/
theorem throw {e : ε} : I.HandsOrFails w (throw e : ExceptT ε EvalM α) Q := by
  show I.Hands w (Pure.pure (Except.error e)) fun w' r => ∀ a, r = Except.ok a → Q w' a
  exact Hands.pure nofun

/-- Two computations in sequence, of which the second is left out if the
first one fails. -/
theorem bind {x : ExceptT ε EvalM α} {next : α → ExceptT ε EvalM β} {R : I.World → β → Prop}
    (hx : I.HandsOrFails w x Q)
    (hnext : ∀ w' a, w ≤ w' → Q w' a → I.HandsOrFails w' (next a) R) :
    I.HandsOrFails w (x >>= next) R := by
  refine Hands.bind hx fun w' r hle hr => ?_
  cases r with
  | ok a => exact hnext w' a hle (hr a rfl)
  | error e => exact throw

/-- A computation that does not fail in the other way. -/
theorem lift {x : EvalM α} (h : I.Hands w x Q) :
    I.HandsOrFails w (ExceptT.lift x : ExceptT ε EvalM α) Q := by
  have hbind : I.Hands w (x >>= fun a => Pure.pure (Except.ok a : Except ε α))
      fun w' r => ∀ a, r = .ok a → Q w' a :=
    h.bind fun _ _ _ ha => .pure fun _ hb => Except.ok.inj hb ▸ ha
  exact hbind

end HandsOrFails

/-! ### Expansion -/

/-- The macros a program defines are bound, as closures. -/
theorem defineMacros (macros : ScopeId) (program : Program) :
    I.Hands w (defineMacros macros program) fun _ _ => True := by
  induction program generalizing w with
  | nil => exact .pure trivial
  | cons s rest ih =>
      rw [QuoteScript.defineMacros]
      split
      · next name params body _ =>
          refine (newClosure .macroRule params body macros).bind fun _ v _ hv => ?_
          exact (bindName macros name hv).bind fun _ _ _ _ => ih
      · exact ih.bind fun _ _ _ _ => .pure trivial

/-- The arguments of a macro are quotes. -/
theorem quoteAll (es : List Expr) :
    I.Hands w (quoteAll es) fun w' values => ∀ v ∈ values, I.holds w' v := by
  induction es generalizing w with
  | nil => exact .pure (List.forall_mem_nil _)
  | cons e rest ih =>
      refine (newQuote (.expr e)).bind fun w' v _ hv => ?_
      exact ih.bind fun _ values hle hvalues =>
        .pure (List.forall_mem_cons.mpr ⟨I.holds_mono hle hv, hvalues⟩)

variable (I)

/-- One call of a macro: its body is evaluated over quotes, like any
closure's. -/
theorem expandCall (fuel : Nat) (macros : ScopeId) (w : I.World) :
    Preserves ((I.guarantee w).orFails Misuse) .full
      (QuoteScript.expandCall (QuoteScript.evalExpr fuel) macros) := by
  intro node _ w' _
  unfold QuoteScript.expandCall
  split
  · exact HandsOrFails.pure node.over_full
  · next name args _ =>
      refine HandsOrFails.bind (.lift (lookupName macros name)) fun _ found _ _ => ?_
      split
      · next params body outer _ =>
          split
          · refine HandsOrFails.bind (.lift (quoteAll args)) fun _ quotes _ hquotes => ?_
            have hbody := evalClosureBody (I.evalExpr fuel) params body outer hquotes
            -- The value itself does not get into the program, only the tree it quotes.
            refine HandsOrFails.bind (.lift hbody) fun _ v _ _ => ?_
            split
            · exact HandsOrFails.pure (Node.over_full _)
            · exact HandsOrFails.throw
          · exact HandsOrFails.throw
      · exact HandsOrFails.pure node.over_full

variable {I}

/-- Expanding a program keeps the heap in order, whether it fails or
not. -/
theorem expandProgram (fuel : Nat) (macros : ScopeId) (program : Program) :
    I.HandsOrFails w (expandProgram fuel macros program) fun _ _ => True := by
  -- The root is the program itself, and a program is no call.
  have hpass := Node.transformM_program_gives (I.expandCall fuel macros w) (bodyOver_full program)
    (P := fun node => ∃ program', node = .program program')
    fun program' _ _ _ => HandsOrFails.pure ⟨program', rfl⟩
  refine HandsOrFails.bind (hpass w le_rfl) ?_
  rintro w' _ - ⟨program', rfl⟩
  exact HandsOrFails.lift (.pure trivial)

/-! ### Steps -/

/-- A misuse fails the step, and changes nothing else. -/
theorem liftMisuse {x : ExceptT Misuse EvalM α} {Q : I.World → α → Prop}
    (h : I.HandsOrFails w x Q) : I.HandsOrFails w (liftMisuse x) Q := by
  refine Hands.bind h fun w' r _ hr => ?_
  cases r with
  | ok a => exact .pure fun b hb => Except.ok.inj hb ▸ hr a rfl
  | error misuse => exact .pure nofun

variable (I)

/-- So does expanding a source. -/
theorem expand (fuel : Nat) (source : String) (macros : ScopeId) :
    I.HandsOrFails w (expand fuel source macros) fun _ _ => True := by
  unfold QuoteScript.expand
  dsimp only
  split
  · refine HandsOrFails.bind (.lift (defineMacros macros _)) fun _ program _ _ => ?_
    exact liftMisuse (expandProgram fuel macros program)
  · exact .throw

/-- Running a source answers with a value that has the property. -/
theorem run (fuel : Nat) (source : String) (scope macros : ScopeId) :
    I.HandsOrFails w (run fuel source scope macros) fun w' o => ∀ v ∈ o, I.holds w' v :=
  (I.expand fuel source macros).bind fun _ program _ _ =>
    .lift (I.evalProgram fuel scope program)

/-- So does evaluating one without macros. -/
theorem evaluate (fuel : Nat) (source : String) (scope : ScopeId) :
    I.HandsOrFails w (evaluate fuel source scope) fun w' o => ∀ v ∈ o, I.holds w' v := by
  unfold QuoteScript.evaluate
  dsimp only
  split
  · exact .lift (I.evalProgram fuel scope _)
  · exact .throw

/-- Every heap that a session reaches is one of some world, whatever
trees the session evaluates. -/
theorem reachable {evaluable : Node → Prop} {heap : Heap} (h : Reachable evaluable heap) :
    ∃ w, I.heaps w heap := by
  induction h with
  | empty => exact I.empty
  -- Each operation of a session takes a heap in order to one in order, if it ends at all.
  | newScope parent _ ih =>
      obtain ⟨w, hheap⟩ := ih
      exact ⟨w, I.newScope hheap parent⟩
  | expand _ hrun ih =>
      obtain ⟨w, hheap⟩ := ih
      obtain ⟨w', -, hheap', -⟩ := Ensures.of_run (I.expand _ _ _) hheap hrun
      exact ⟨w', hheap'⟩
  | run _ hrun ih =>
      obtain ⟨w, hheap⟩ := ih
      obtain ⟨w', -, hheap', -⟩ := Ensures.of_run (I.run _ _ _ _) hheap hrun
      exact ⟨w', hheap'⟩
  | evaluate _ hrun ih =>
      obtain ⟨w, hheap⟩ := ih
      obtain ⟨w', -, hheap', -⟩ := Ensures.of_run (I.evaluate _ _ _) hheap hrun
      exact ⟨w', hheap'⟩
  | evalNode _ _ hrun ih =>
      obtain ⟨w, hheap⟩ := ih
      obtain ⟨w', -, hheap', -⟩ := Ensures.of_run (I.evalNode _ _ _) hheap hrun
      exact ⟨w', hheap'⟩

end Inheritance

/-! ### Properties that do not grow -/

/-- As long as everything that is bound has the property `P`, this stays
so, and the answer, if there is one, has the property `Q`. -/
abbrev HandsOrFails {ε α : Type} (P : Value → Prop) (x : ExceptT ε EvalM α) (Q : α → Prop) : Prop :=
  EvalM.KeepsOk (Heap.All P) x Q

namespace Inherited

variable {P : Value → Prop} (hP : Inherited P)

include hP

/-- A property of values alone is handed on by a run. -/
theorem run (fuel : Nat) (source : String) (scope macros : ScopeId) :
    HandsOrFails P (run fuel source scope macros) fun o => ∀ v ∈ o, P v :=
  hP.hands (hP.inheritance.run fuel source scope macros)

/-- So it is by an evaluation without macros. -/
theorem evaluate (fuel : Nat) (source : String) (scope : ScopeId) :
    HandsOrFails P (evaluate fuel source scope) fun o => ∀ v ∈ o, P v :=
  hP.hands (hP.inheritance.evaluate fuel source scope)

/-- Everything that a session binds has the property, whatever trees it
evaluates. -/
theorem reachable {evaluable : Node → Prop} {heap : Heap} (h : Reachable evaluable heap) :
    heap.All P := by
  obtain ⟨_, hheap⟩ := hP.inheritance.reachable h
  exact hheap

end Inherited

end QuoteScript
