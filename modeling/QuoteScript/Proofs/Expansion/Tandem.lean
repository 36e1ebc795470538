import QuoteScript.Proofs.Eval.Tandem
import QuoteScript.Proofs.Expansion.Simulation
import QuoteScript.Session.Run

/-!
# `QuoteScript.Proofs.Expansion.Tandem`: an expansion beside a renamed one

What goes in tandem for evaluations goes in tandem for expansions, and
for whole runs: macros are defined in a scope and looked up from it, and
their bodies are evaluated. The trees are the same on both sides, tokens
included, since trees have no numbers in them.

A misuse is an answer like any other one, so both expansions end in the
same misuse.

* `Tandem.RelatesOrFails`: computations that may fail besides.
* `Tandem.expandProgram`: the expansion of a program.
* `Tandem.expand`, `Tandem.run`, `Tandem.evaluate`: source texts.
-/

set_option autoImplicit false

namespace QuoteScript

/-- A program stays a program: the pass goes over its statements, and
what the transform makes of the program itself is the program. -/
theorem expandProgram_eq_visitBody (fuel : Nat) (macros : ScopeId) (program : Program) :
    expandProgram fuel macros program = visitBody (expandCall (evalExpr fuel) macros) program := by
  have hroot (p : Program) : (expandCall (evalExpr fuel) macros (.program p) >>=
      fun node => ExceptT.lift (programOf node)) = pure p := rfl
  show (Node.transformM (expandCall (evalExpr fuel) macros) (.program program) >>=
      fun node => ExceptT.lift (programOf node)) = _
  simp only [Node.transformM, Node.visitParts, bind_assoc, pure_bind, hroot, bind_pure]

namespace Tandem

variable {σ : Renaming} {T : Tandem σ} {w : T.World} {s macros : ScopeId} {ε : Type}

/-- The same as `relates` for computations that may fail besides: both
fail in the same way, or neither does. -/
def RelatesOrFails (T : Tandem σ) {α β : Type} (w : T.World) (x : ExceptT ε EvalM α)
    (y : ExceptT ε EvalM β) (P : T.World → α → β → Prop) : Prop :=
  T.relates w x.run y.run fun w' => OrFails (P w')

namespace RelatesOrFails

variable {α β γ δ : Type} {P : T.World → α → β → Prop}

/-- Two answers that are there. -/
theorem pure {a : α} {b : β} (h : P w a b) :
    T.RelatesOrFails w (Pure.pure a : ExceptT ε EvalM α) (Pure.pure b) P :=
  T.pure (.ok h)

/-- The same failure on both sides. -/
theorem throw (e : ε) :
    T.RelatesOrFails w (throw e : ExceptT ε EvalM α) (throw e : ExceptT ε EvalM β) P :=
  T.pure (a := Except.error e) (b := Except.error e) (.error e)

/-- Two computations in sequence, of which the second is left out on
both sides or on neither. -/
theorem bind {x : ExceptT ε EvalM α} {y : ExceptT ε EvalM β} {next : α → ExceptT ε EvalM γ}
    {next' : β → ExceptT ε EvalM δ} {Q : T.World → γ → δ → Prop} (hx : T.RelatesOrFails w x y P)
    (hnext : ∀ w' a b, w ≤ w' → P w' a b → T.RelatesOrFails w' (next a) (next' b) Q) :
    T.RelatesOrFails w (x >>= next) (y >>= next') Q := by
  refine T.bind hx fun w' r r' hle hr => ?_
  cases hr with
  | ok h => exact hnext w' _ _ hle h
  | error e => exact throw e

/-- A computation that does not fail. -/
theorem lift {x : EvalM α} {y : EvalM β} (h : T.relates w x y P) :
    T.RelatesOrFails w (ExceptT.lift x : ExceptT ε EvalM α) (ExceptT.lift y) P := by
  have hbind : T.relates w (x >>= fun a => Pure.pure (Except.ok a : Except ε α))
      (y >>= fun b => Pure.pure (Except.ok b : Except ε β)) fun w' => OrFails (P w') :=
    T.bind h fun _ _ _ _ hab => T.pure (.ok hab)
  exact hbind

end RelatesOrFails

/-- What is said about two passes that may fail, from a world on. -/
def couplingOrFails (T : Tandem σ) (ε : Type) (w : T.World) :
    Coupling (ExceptT ε EvalM) (ExceptT ε EvalM) where
  relates x y P := ∀ w', w ≤ w' → T.RelatesOrFails w' x y fun _ => P
  pure h _ _ := .pure h
  bind hx hnext w' hle :=
    (hx w' hle).bind fun _ a b hle' hab => hnext a b hab _ (hle.trans hle')

/-! ### Macros -/

/-- The same definitions are taken out of the program, and bound to
renamed closures. -/
theorem defineMacros (hs : T.inside w macros) (program : Program) :
    T.relates w (defineMacros macros program) (defineMacros (σ.scope macros) program)
      fun _ => Eq := by
  induction program generalizing w with
  | nil => exact T.pure rfl
  | cons st rest ih =>
      rw [QuoteScript.defineMacros, QuoteScript.defineMacros]
      cases macroDefinition? st with
      | none => exact T.bind (ih hs) fun _ _ _ _ hrest => T.pure (by rw [hrest])
      | some definition =>
          obtain ⟨name, params, body⟩ := definition
          refine T.bind (newClosure (T.known_of_inside hs) .macroRule params body)
            fun w₁ v v' hle hv => ?_
          have hs₁ := T.inside_mono hle hs
          cases hv with
          | of hv =>
              -- The closure captures the scope of the macros, which is known.
              exact T.bind (T.bindName hs₁ name hv) fun w₂ _ _ hle' _ =>
                ih (T.inside_mono hle' hs₁)

/-- The same trees are quoted, under renamed handles. -/
theorem quoteAll (es : List Expr) :
    T.relates w (quoteAll es) (quoteAll es) T.RenamesItems := by
  induction es generalizing w with
  | nil => exact T.pure .nil
  | cons e rest ih =>
      refine T.bind (newQuote (.expr e)) fun w₁ v v' _ hv => ?_
      exact T.bind ih fun w₂ _ _ hle hvalues => T.pure (.cons (hv.mono hle) hvalues)

/-- The tree of a quote has nothing to be renamed, and any other value
is the same misuse. -/
theorem quotedTree_rename (name : String) (v : Value) :
    quotedTree name (v.rename σ) = quotedTree name v := by
  cases v with
  | closure kind => cases kind <;> rfl
  | _ => rfl

/-- One call, which is expanded to the same tree on both sides. -/
theorem expandCall {eval eval' : Evaluator} (heval : T.Evaluators eval eval')
    (hs : T.inside w macros) (node : Node) :
    T.RelatesOrFails w (expandCall eval macros node) (expandCall eval' (σ.scope macros) node)
      fun _ => Eq := by
  unfold QuoteScript.expandCall
  cases namedCall? node with
  | none => exact .pure rfl
  | some call =>
      obtain ⟨name, args⟩ := call
      refine (RelatesOrFails.lift (lookupName hs name)).bind fun w₁ o o' _ ho => ?_
      cases ho with
      | of hknown =>
          cases o with
          | none => exact .pure rfl
          | some v =>
              cases v with
              | closure kind a params body outer =>
                  cases kind with
                  -- A function of that name is left to the evaluator, on both sides.
                  | function => exact .pure rfl
                  | macroRule =>
                      dsimp only [Option.map_some, Value.rename]
                      split
                      · refine (RelatesOrFails.lift (quoteAll args)).bind
                          fun w₂ qs qs' hle hqs => ?_
                        -- The macro was found in a scope, so the scope it captures is known.
                        have houter := T.known_mono hle (hknown _ rfl outer .closure)
                        have hbody := evalClosureBody heval houter params body hqs
                        refine (RelatesOrFails.lift hbody).bind fun w₃ v v' _ hv => ?_
                        cases hv with
                        | of =>
                            rw [quotedTree_rename]
                            cases quotedTree name v with
                            | ok tree => exact .pure rfl
                            | error misuse => exact .throw misuse
                      · exact .throw _
              | _ => exact .pure rfl

/-- The same program is made, or the same misuse found. -/
theorem expandProgram (fuel : Nat) (hs : T.inside w macros) (program : Program) :
    T.RelatesOrFails w (expandProgram fuel macros program)
      (expandProgram fuel (σ.scope macros) program) fun _ => Eq := by
  have hcalls : ∀ node, (T.couplingOrFails Misuse w).relates
      (QuoteScript.expandCall (QuoteScript.evalExpr fuel) macros node)
      (QuoteScript.expandCall (QuoteScript.evalExpr fuel) (σ.scope macros) node) Eq :=
    fun node w' hle => expandCall (T.evalExpr fuel) (T.inside_mono hle hs) node
  rw [expandProgram_eq_visitBody, expandProgram_eq_visitBody]
  exact visitBody_relates hcalls program w le_rfl

/-! ### Source texts -/

/-- A misuse becomes a failure of the session, on both sides. -/
theorem liftMisuse {α β : Type} {x : ExceptT Misuse EvalM α} {y : ExceptT Misuse EvalM β}
    {P : T.World → α → β → Prop} (h : T.RelatesOrFails w x y P) :
    T.RelatesOrFails w (liftMisuse x) (liftMisuse y) P := by
  refine T.bind h fun w' r r' _ hr => ?_
  cases hr with
  | ok hab => exact T.pure (.ok hab)
  | error misuse => exact T.pure (.error _)

/-- Expanding a source, with macros that are renamed. -/
theorem expand (fuel : Nat) (source : String) (hs : T.inside w macros) :
    T.RelatesOrFails w (expand fuel source macros) (expand fuel source (σ.scope macros))
      fun _ => Eq := by
  unfold QuoteScript.expand
  dsimp only
  split
  · refine (RelatesOrFails.lift (defineMacros hs _)).bind fun w' p p' hle hp => ?_
    -- No numbers stand in trees, so what is left of the program is the same on both sides.
    rw [hp]
    exact liftMisuse (expandProgram fuel (T.inside_mono hle hs) p')
  · exact .throw _

/-- Runs of the same text go in tandem. -/
theorem run (fuel : Nat) (source : String) (hs : T.inside w s) (hmacros : T.inside w macros) :
    T.RelatesOrFails w (run fuel source s macros)
      (run fuel source (σ.scope s) (σ.scope macros)) T.RenamesOption := by
  refine (expand fuel source hmacros).bind fun w' p p' hle hp => ?_
  rw [hp]
  exact .lift (evalProgram fuel (T.inside_mono hle hs) p')

/-- Evaluating a source without macros, in a renamed scope. -/
theorem evaluate (fuel : Nat) (source : String) (hs : T.inside w s) :
    T.RelatesOrFails w (evaluate fuel source s) (evaluate fuel source (σ.scope s))
      T.RenamesOption := by
  unfold QuoteScript.evaluate
  dsimp only
  split
  · exact .lift (evalProgram fuel hs _)
  · exact .throw _

end Tandem

end QuoteScript
