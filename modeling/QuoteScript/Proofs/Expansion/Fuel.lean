import QuoteScript.Proofs.Eval.Fuel
import QuoteScript.Proofs.Expansion.Simulation
import QuoteScript.Session.Run

/-!
# `QuoteScript.Proofs.Expansion.Fuel`: more fuel changes no expansion

An expansion hands its fuel on to the bodies of macros, and has no other
use for it. So what is true of evaluations is true of expansions, and of
whole runs: if they end without running out of fuel, they end in the
same way with more of it, also when they end in a failure.

* `approximationOrFails`: approximations of computations that may fail
  besides.
* `expandProgram_below`: expansion.
* `expand_steady`, `run_steady`: the steps of a session.
-/

set_option autoImplicit false

namespace QuoteScript

open EvalM

variable {ε α β : Type}

/-- What is said about the answers of an approximation that may fail
besides: both fail in the same way, or neither does. -/
def approximationOrFails (ε : Type) : Coupling (ExceptT ε EvalM) (ExceptT ε EvalM) where
  relates x y P := Approximates x.run y.run (OrFails P)
  pure h := Approximates.pure (.ok h)
  bind hx hnext := Approximates.bind hx fun r r' hr => by
    cases hr with
    | ok h => exact hnext _ _ h
    | error e => exact .pure (.error e)

/-- If `x` ends other than for want of fuel, `y` ends in the same way,
with the same answer or the same failure. -/
abbrev BelowOrFails (x y : ExceptT ε EvalM α) : Prop :=
  Below x.run y.run

namespace BelowOrFails

/-- A computation is below itself. -/
theorem refl (x : ExceptT ε EvalM α) : BelowOrFails x x :=
  Below.refl x.run

/-- Two computations in sequence, of which the second is left out if the
first one fails. -/
theorem bind {x y : ExceptT ε EvalM α} {next next' : α → ExceptT ε EvalM β}
    (hxy : BelowOrFails x y) (hnext : ∀ a, BelowOrFails (next a) (next' a)) :
    BelowOrFails (x >>= next) (y >>= next') := by
  refine Below.bind hxy fun r => ?_
  cases r with
  | ok a => exact hnext a
  | error e => exact .refl _

/-- Computations that do not fail. -/
theorem lift {x y : EvalM α} (h : Below x y) :
    BelowOrFails (ExceptT.lift x : ExceptT ε EvalM α) (ExceptT.lift y) := by
  have hbind : Below (x >>= fun a => pure (Except.ok a : Except ε α))
      (y >>= fun a => pure (Except.ok a)) := h.bind fun _ => .refl _
  exact hbind

end BelowOrFails

variable {eval eval' : Evaluator}

/-- Expanding one call. -/
theorem expandCall_below (h : EvaluatorBelow eval eval') (macros : ScopeId) (node : Node) :
    BelowOrFails (expandCall eval macros node) (expandCall eval' macros node) := by
  unfold expandCall
  split
  · exact .refl _
  · refine (BelowOrFails.refl _).bind fun found => ?_
    split
    · next params body outer =>
        split
        · refine (BelowOrFails.refl _).bind fun quotes => ?_
          -- Fuel is needed for the body of the macro only.
          have hbody := evalClosureBody_below h params body outer quotes
          exact (BelowOrFails.lift hbody).bind fun v => .refl _
        · exact .refl _
    · exact .refl _

/-- With more fuel, a program is expanded to the same program, or fails
in the same way. -/
theorem expandProgram_below {fuel more : Nat} (hle : fuel ≤ more) (macros : ScopeId)
    (program : Program) :
    BelowOrFails (expandProgram fuel macros program) (expandProgram more macros program) := by
  have hrefl : ∀ role t, (fun (_ : TokenRole) => @Eq Token) role t t := fun _ _ => rfl
  -- A pass with a transform that is below another is below it: both fill the same places.
  have hcouples : Couples (approximationOrFails Misuse) (fun _ => Eq)
      (expandCall (evalExpr fuel) macros) (expandCall (evalExpr more) macros) := by
    intro node node' h
    cases Node.eq_of_alike h
    refine (expandCall_below (evalExpr_below hle) macros node).mono fun r r' hr => ?_
    subst hr
    cases r with
    | ok a => exact .ok (Alike.refl hrefl a)
    | error misuse => exact .error misuse
  have hpass := Node.transformM_coupled hcouples (fun _ => Expr.alike_refl hrefl _)
    (.program program) (.program program) (body_alike_refl hrefl program)
  have hsame : BelowOrFails
      (Node.transformM (expandCall (evalExpr fuel) macros) (.program program))
      (Node.transformM (expandCall (evalExpr more) macros) (.program program)) :=
    Approximates.mono hpass fun r r' hr => by
      cases hr with
      | ok h => exact congrArg Except.ok (Node.eq_of_alike h)
      | error misuse => rfl
  exact hsame.bind fun _ => .refl _

/-! ### Steps -/

/-- More fuel does not change what a source is expanded to. -/
theorem expand_below {fuel more : Nat} (hle : fuel ≤ more) (source : String) (macros : ScopeId) :
    BelowOrFails (expand fuel source macros) (expand more source macros) := by
  unfold expand
  by_cases herrors : (parse source).errors.isEmpty = true
  · rw [if_pos herrors, if_pos herrors]
    refine (BelowOrFails.refl _).bind fun program => ?_
    exact Below.bind (expandProgram_below hle macros program) fun _ => .refl _
  · rw [if_neg herrors, if_neg herrors]
    exact .refl _

/-- Expansion comes to the same with all fuel that is enough. -/
theorem expand_steady (source : String) (macros : ScopeId) :
    Steady fun fuel => (expand fuel source macros).run :=
  fun _ _ hle => expand_below hle source macros

/-- So does running a source. -/
theorem run_steady (source : String) (scope macros : ScopeId) :
    Steady fun fuel => (run fuel source scope macros).run :=
  fun _ _ hle => (expand_below hle source macros).bind fun program =>
    .lift (evalProgram_steady scope program _ _ hle)

end QuoteScript
