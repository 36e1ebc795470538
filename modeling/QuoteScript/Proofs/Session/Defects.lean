import QuoteScript.Proofs.Expansion.Tandem
import QuoteScript.Proofs.Token.Slices

/-!
# `QuoteScript.Proofs.Session.Defects`: nothing comes to a defect

Partial operations stand behind checks: native functions behind a count
of the arguments, a division behind a comparison with zero, a negation
behind one with the smallest integer. The checks are far from the
operations, and a native function can get there through scopes, arrays
and closures. Still, no check can be gone around: whatever is in the
heap, and whatever a macro leaves in the place of a call, the only way
to stop is to run out of fuel.

The proof is a tandem that says nothing about the heap, so all that has
to be shown is that the operations on the heap do not stop. That every
partial operation is behind its check is what the rules of a tandem ask
for already.

* `EvalM.OnlyRunsOut`: a computation does not come to a defect.
* `defectFree`: the tandem.
* `sessions_are_defect_free`: scanning, expanding and evaluating.
-/

set_option autoImplicit false

namespace QuoteScript

open EvalM

/-- If the computation stops, it does for want of fuel: it comes to no
defect in any heap. -/
def EvalM.OnlyRunsOut {α : Type} (x : EvalM α) : Prop :=
  ∀ heap stop, x heap = .error stop → stop = .outOfFuel

/-- A computation that keeps anything at all stops for want of fuel
only. -/
theorem EvalM.Keeps.onlyRunsOut {α : Type} {x : EvalM α} {P : α → Prop}
    (h : Keeps (fun _ => True) x P) : x.OnlyRunsOut := by
  intro heap stop hstop
  have hrun := h heap trivial
  rw [hstop] at hrun
  exact hrun

/-- An evaluation beside itself, in whatever heap: it answers or runs
out of fuel. -/
def defectFree : Tandem .id where
  World := Unit
  order := PUnit.instLinearOrder.toPreorder
  known _ _ := True
  inside _ _ := True
  relates _ x _ P := Keeps (fun _ => True) x fun a => ∃ b, P () a b
  known_mono _ _ := trivial
  inside_mono _ _ := trivial
  known_of_inside _ := trivial
  pure h := .pure ⟨_, h⟩
  bind hx hnext := hx.bind fun a ⟨b, hab⟩ => hnext () a b le_rfl hab
  outOfFuel := Ensures.outOfFuel
  lookup _ _ _ _ := ⟨trivial, _, rfl, fun _ _ _ _ => trivial⟩
  bindName _ _ _ _ _ _ := ⟨trivial, (), trivial⟩
  newScope _ _ _ := ⟨trivial, _, rfl, trivial⟩
  newHandle _ _ := ⟨trivial, _, rfl⟩

/-- No text and no tree comes to a defect. Every token of a text can be
read off its range in the source. In any heap, and in any scopes of it,
the expansion of a text or of a program, a run of a text, and the
evaluation of a text or of a node stop only when they run out of fuel.
The heap may hold values that no text could make, such as a macro that
gives back the quote of a whole program. -/
theorem sessions_are_defect_free :
    (∀ source, ∀ token ∈ tokenize source,
      sliceToken? source.toList token.kind token.span = some token) ∧
    (∀ fuel source macros, (expand fuel source macros).run.OnlyRunsOut) ∧
    (∀ fuel program macros, (expandProgram fuel macros program).run.OnlyRunsOut) ∧
    (∀ fuel source scope macros, (run fuel source scope macros).run.OnlyRunsOut) ∧
    (∀ fuel source scope, (evaluate fuel source scope).run.OnlyRunsOut) ∧
    ∀ fuel node scope, (evalNode fuel scope node).OnlyRunsOut := by
  refine ⟨slice_tokenize, fun fuel source macros => ?_, fun fuel program macros => ?_,
    fun fuel source scope macros => ?_, fun fuel source scope => ?_, fun fuel node scope => ?_⟩
  -- A tandem has a rule for running out of fuel and none for a defect.
  · exact Keeps.onlyRunsOut (Tandem.expand (T := defectFree) (w := ()) fuel source trivial)
  · exact Keeps.onlyRunsOut (Tandem.expandProgram (T := defectFree) (w := ()) fuel trivial program)
  · exact Keeps.onlyRunsOut (Tandem.run (T := defectFree) (w := ()) fuel source trivial trivial)
  · exact Keeps.onlyRunsOut (Tandem.evaluate (T := defectFree) (w := ()) fuel source trivial)
  · exact Keeps.onlyRunsOut (Tandem.evalNode (T := defectFree) (w := ()) fuel trivial node)

-- Without its check, a partial operation does come to a defect.
example : Native.push.apply [.array ⟨0⟩ []] {} = .error (.defect .missingArgument) := rfl
example : opposite Int64.minValue {} = .error (.defect .negationOverflow) := rfl

-- The body of the macro is the name `p`, which is bound to the quote of a whole program. A call of
-- the macro stands where an expression belongs, and stays.
example :
    let body := Block.ofStmts [.expr ⟨.ident, "p", {}⟩ (.mkIdent "p")]
    let bindings := [("p", .quote ⟨0⟩ (.program [])), ("m", .closure .macroRule ⟨1⟩ [] body ⟨0⟩)]
    let call := Expr.call (.fixed .leftParen {}) (.mkIdent "m") []
    let program : Program := [.expr call.token call]
    let heap : Heap := ⟨#[⟨bindings, none⟩], 2⟩
    ((expandProgram 3 ⟨0⟩ program).run heap).map (fun r => r.1.map Program.render) =
      .ok (.ok "m();") := by
  rfl

end QuoteScript
