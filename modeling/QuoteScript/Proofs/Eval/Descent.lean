import QuoteScript.Proofs.Eval.Integers

/-!
# `QuoteScript.Proofs.Eval.Descent`: what ends has ended in its parts

An evaluation that ends has ended in every part that it has got to. It
has had no more fuel there than it has for the whole.

This is the reverse of looking at a part first: what stands in front of
the part has been evaluated with the fuel of this evaluation, and not
with some amount of fuel. By `EvalM.Steady.run_eq` this makes no
difference.

* `EvalM.Returns`: a computation ends with an answer.
* `evalAll_descends`, `evalPairs_descends`, `evalBody_descends`: lists.
* `Enters.descends`: one level, one case for each position.
* `Reaches.descends`: any depth, by induction.
-/

set_option autoImplicit false

namespace QuoteScript

open EvalM

namespace EvalM

variable {α β : Type} {heap heap₁ : Heap}

/-- A computation ends with an answer. -/
def Returns (x : EvalM α) (heap : Heap) : Prop :=
  ∃ r, x heap = .ok r

/-- The first part of what ends has ended. -/
theorem Returns.of_bind {x : EvalM α} {next : α → EvalM β} (h : Returns (x >>= next) heap) :
    Returns x heap := by
  obtain ⟨r, hrun⟩ := h
  obtain ⟨a, heap₁, hx, -⟩ := bind_run_eq_ok hrun
  exact ⟨_, hx⟩

/-- What comes behind the first part has ended, too. -/
theorem Returns.next {x : EvalM α} {next : α → EvalM β} {a : α} (h : Returns (x >>= next) heap)
    (hx : x heap = .ok (a, heap₁)) : Returns (next a) heap₁ := by
  obtain ⟨r, hrun⟩ := h
  exact ⟨r, (bind_run hx).symm.trans hrun⟩

/-- What ends with some amount of fuel ends in the only way in which it
can end. -/
theorem Steady.run_eq {x : Nat → EvalM α} (hx : Steady x) {a : α} (hends : Ends x heap a heap₁)
    {fuel : Nat} (h : Returns (x fuel) heap) : x fuel heap = .ok (a, heap₁) := by
  obtain ⟨⟨b, heap₂⟩, hrun⟩ := h
  obtain ⟨rfl, rfl⟩ := hx.ends_unique hends ⟨fuel, hrun⟩
  exact hrun

end EvalM

variable {scope : ScopeId} {heap heap₁ heap₂ : Heap} {fuel : Nat} {v : Value}

/-! ### Expressions -/

/-- An expression returns as a part if it returns. -/
theorem returns_evalPart_expr {e : Expr} :
    Returns (evalPart fuel scope (.expr e)) heap ↔ Returns (evalExpr fuel scope e) heap := by
  constructor
  · rintro ⟨⟨v, heap₁⟩, hrun⟩
    obtain ⟨w, -, hrun⟩ := evalPart_expr_iff.mp hrun
    exact ⟨_, hrun⟩
  · rintro ⟨⟨v, heap₁⟩, hrun⟩
    exact ⟨_, evalPart_expr_iff.mpr ⟨v, rfl, hrun⟩⟩

/-- An expression needs fuel for its own level. -/
theorem returns_evalExpr {e : Expr} (h : Returns (evalExpr fuel scope e) heap) :
    ∃ less, less < fuel ∧ Returns (evalWith (evalExpr less) scope e) heap := by
  cases fuel with
  | zero =>
      obtain ⟨r, hrun⟩ := h
      cases hrun
  | succ less => exact ⟨less, less.lt_succ_self, h⟩

/-- An expression has ended in the only way in which it can end. -/
theorem Answers.run_eq {e : Expr} (hanswers : Answers scope (.expr e) heap (some v) heap₁)
    (h : Returns (evalExpr fuel scope e) heap) : evalExpr fuel scope e heap = .ok (v, heap₁) := by
  have hrun := (evalPart_steady scope (.expr e)).run_eq hanswers (returns_evalPart_expr.mpr h)
  obtain ⟨w, hw, hrun⟩ := evalPart_expr_iff.mp hrun
  cases hw
  exact hrun

/-- Behind an expression that does not unwind. -/
theorem Answers.returns_next {e : Expr} {next : Value → EvalM Value}
    (hanswers : Answers scope (.expr e) heap (some v) heap₁) (hv : v.isUnwinding = false)
    (h : Returns (unlessUnwinding (evalExpr fuel scope e) next) heap) :
    Returns (next v) heap₁ := by
  have hrest := h.next (hanswers.run_eq h.of_bind)
  rw [if_neg (by simp [hv])] at hrest
  exact hrest

/-- What comes behind an expression that is passed returns, if both
together do. -/
theorem Passes.returns_next {e : Expr} {next : Value → EvalM Value}
    (hpasses : Passes scope (.expr e) heap heap₁)
    (h : Returns (unlessUnwinding (evalExpr fuel scope e) next) heap) :
    ∃ v, Returns (next v) heap₁ := by
  obtain ⟨v, hanswers, hv⟩ := passes_expr_iff.mp hpasses
  exact ⟨v, hanswers.returns_next hv h⟩

/-! ### Lists -/

/-- If all expressions return, so does each one that the others are
passed in front of. -/
theorem evalAll_descends {before behind : List Expr} {e : Expr}
    (hbefore : PassesAll scope (before.map .expr) heap heap₁)
    (h : Returns (evalAll (evalExpr fuel scope) (before ++ e :: behind)) heap) :
    Returns (evalExpr fuel scope e) heap₁ := by
  induction before generalizing heap with
  | nil =>
      cases hbefore
      exact h.of_bind
  | cons first rest ih =>
      cases hbefore with
      | cons hfirst hrest =>
          obtain ⟨v, hanswers, hv⟩ := passes_expr_iff.mp hfirst
          -- The first expression is passed with any fuel that is enough, so with this one.
          have hbehind := h.next (hanswers.run_eq h.of_bind)
          rw [if_neg (by simp [hv])] at hbehind
          exact ih hrest hbehind.of_bind

/-- Behind pairs that pass, the other pairs are evaluated, with whatever
entries there are by then. -/
theorem evalPairs_descends {before behind : List (Expr × Expr)}
    (hbefore : PairsPass scope before heap heap₁) {entries : List (Key × Value)}
    (h : Returns (evalPairs (evalExpr fuel scope) entries (before ++ behind)) heap) :
    ∃ entries', Returns (evalPairs (evalExpr fuel scope) entries' behind) heap₁ := by
  induction hbefore generalizing entries with
  | nil => exact ⟨entries, h⟩
  | cons hkey hvalue _ ih =>
      obtain ⟨key, hkey⟩ := hkey
      have hclean : key.toValue.isUnwinding = false := by cases key <;> rfl
      have hpair := hkey.returns_next hclean h
      rw [Value.key?_eq_some_iff.mpr rfl] at hpair
      obtain ⟨v, hrest⟩ := hvalue.returns_next hpair
      exact ih hrest

/-- The same for statements. -/
theorem evalBody_descends {before behind : List Stmt} {s : Stmt} {last : Option Value}
    (hbefore : PassesAll scope (before.map .stmt) heap heap₁)
    (h : Returns (evalBody (evalExpr fuel) scope last (before ++ s :: behind)) heap) :
    Returns (evalPart fuel scope (.stmt s)) heap₁ := by
  induction before generalizing heap last with
  | nil =>
      cases hbefore
      exact h.of_bind
  | cons first rest ih =>
      cases hbefore with
      | cons hfirst hrest =>
          obtain ⟨v, hanswers, hv⟩ := hfirst
          -- The first statement has its own value, and the others start in the heap behind it.
          have hbehind := h.next ((evalPart_steady scope (.stmt first)).run_eq hanswers h.of_bind)
          rw [if_neg (by simp [hv])] at hbehind
          exact ih hrest hbehind

/-! ### Positions -/

/-- An evaluation that ends has ended in a part that it gets to. -/
theorem Enters.descends {node part : Node} (henters : Enters scope node heap part heap₁)
    (h : Returns (evalPart fuel scope node) heap) :
    ∃ less ≤ fuel, Returns (evalPart less scope part) heap₁ := by
  -- Only expressions take fuel for their own level.
  have hexpr {e : Expr} (he : Returns (evalPart fuel scope (.expr e)) heap) :
      ∃ less ≤ fuel, Returns (evalWith (evalExpr less) scope e) heap := by
    obtain ⟨less, hlt, hrun⟩ := returns_evalExpr (returns_evalPart_expr.mp he)
    exact ⟨less, hlt.le, hrun⟩
  cases henters with
  | operand | left | indexed | condition =>
      obtain ⟨less, hle, hrun⟩ := hexpr h
      exact ⟨less, hle, returns_evalPart_expr.mpr hrun.of_bind⟩
  | right hleft | index hleft =>
      obtain ⟨less, hle, hrun⟩ := hexpr h
      obtain ⟨v, hrest⟩ := hleft.returns_next hrun
      exact ⟨less, hle, returns_evalPart_expr.mpr hrest.of_bind⟩
  -- Which branch is entered is told by the value of the condition.
  | consequence hv htruthy hcondition =>
      obtain ⟨less, hle, hrun⟩ := hexpr h
      have hbranch := hcondition.returns_next hv hrun
      rw [if_pos htruthy] at hbranch
      exact ⟨less, hle, hbranch.of_bind⟩
  | alternative hv htruthy hcondition =>
      obtain ⟨less, hle, hrun⟩ := hexpr h
      have hbranch := hcondition.returns_next hv hrun
      rw [if_neg (by simp [htruthy])] at hbranch
      exact ⟨less, hle, hbranch.of_bind⟩
  | callee hquote =>
      obtain ⟨less, hle, hrun⟩ := hexpr h
      rw [evalWith, hquote] at hrun
      exact ⟨less, hle, returns_evalPart_expr.mpr hrun.of_bind⟩
  | argument hquote hcallee hbefore =>
      obtain ⟨less, hle, hrun⟩ := hexpr h
      rw [evalWith, hquote] at hrun
      obtain ⟨f, hargs⟩ := hcallee.returns_next hrun
      exact ⟨less, hle, returns_evalPart_expr.mpr (evalAll_descends hbefore hargs.of_bind)⟩
  | item hbefore =>
      obtain ⟨less, hle, hrun⟩ := hexpr h
      exact ⟨less, hle, returns_evalPart_expr.mpr (evalAll_descends hbefore hrun.of_bind)⟩
  | key hbefore =>
      obtain ⟨less, hle, hrun⟩ := hexpr h
      obtain ⟨entries, hpair⟩ := evalPairs_descends hbefore hrun
      exact ⟨less, hle, returns_evalPart_expr.mpr hpair.of_bind⟩
  | value hbefore hkey =>
      obtain ⟨less, hle, hrun⟩ := hexpr h
      obtain ⟨entries, hpair⟩ := evalPairs_descends hbefore hrun
      obtain ⟨key, hkey⟩ := hkey
      -- A key does not unwind, so the value beside it is got to.
      have hclean : key.toValue.isUnwinding = false := by cases key <;> rfl
      have hvalue := hkey.returns_next hclean hpair
      rw [Value.key?_eq_some_iff.mpr rfl] at hvalue
      exact ⟨less, hle, returns_evalPart_expr.mpr hvalue.of_bind⟩
  -- From here on no level is gone down, and the fuel stays the same.
  | letIn | ret | expr => exact ⟨fuel, le_rfl, returns_evalPart_expr.mpr h.of_bind⟩
  | block hbefore => exact ⟨fuel, le_rfl, evalBody_descends hbefore h⟩
  | program hbefore => exact ⟨fuel, le_rfl, evalBody_descends hbefore h.of_bind⟩

/-- The same for a part at any depth. -/
theorem Reaches.descends {node part : Node} (hreach : Reaches scope node heap part heap₁)
    (h : Returns (evalPart fuel scope node) heap) :
    ∃ less ≤ fuel, Returns (evalPart less scope part) heap₁ := by
  induction hreach generalizing fuel with
  | here => exact ⟨fuel, le_rfl, h⟩
  | inside henters _ ih =>
      obtain ⟨less, hle, hpart⟩ := henters.descends h
      obtain ⟨least, hle', hinner⟩ := ih hpart
      exact ⟨least, hle'.trans hle, hinner⟩

end QuoteScript
