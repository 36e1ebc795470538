import QuoteScript.Proofs.Eval.Context
import QuoteScript.Proofs.Eval.Splicing
import QuoteScript.Proofs.Tree.Reparse
import QuoteScript.Proofs.Tree.Tokens

/-!
# `QuoteScript.Proofs.Eval.Integers`: the trees of integers

An integer is spliced as a tree of non-negative literals: a literal, the
negation of one, or, at the lower end of the range, where the opposite
is no integer, a difference. Whichever it is, the tree means the integer,
in every scope and in every heap.

To say so without counting fuel, operators are evaluated here with
enough fuel for their operands.

* `answers_unary_iff`, `answers_binary_iff`: what operators answer.
* `Expr.OfInt`, `Expr.ofInt_form`: the three forms of the tree.
* `Expr.OfInt.answers`, `Expr.OfInt.nonneg_of_mem_postorder`,
  `Expr.OfInt.wellFormed`, `Expr.OfInt.tokens`: what is the same for
  all of them.
-/

set_option autoImplicit false

namespace QuoteScript

open EvalM

variable {scope : ScopeId} {heap heap' : Heap} {v : Value}

/-! ### Expressions with enough fuel -/

/-- An expression answers if one level of evaluation does. -/
theorem answers_expr_iff {e : Expr} :
    Answers scope (.expr e) heap (some v) heap' ↔
      ∃ fuel, evalWith (evalExpr fuel) scope e heap = .ok (v, heap') := by
  constructor
  · rintro ⟨fuel, hrun⟩
    obtain ⟨w, hw, hrun⟩ := evalPart_expr_iff.mp hrun
    cases hw
    cases fuel with
    | zero => cases hrun
    | succ fuel => exact ⟨fuel, hrun⟩
  · rintro ⟨fuel, hrun⟩
    exact ⟨fuel + 1, evalPart_expr_iff.mpr ⟨v, rfl, hrun⟩⟩

/-- What an expression answers with some amount of fuel. -/
theorem Answers.of_evalExpr {fuel : Nat} {e : Expr}
    (h : evalExpr fuel scope e heap = .ok (v, heap')) :
    Answers scope (.expr e) heap (some v) heap' :=
  ⟨fuel, evalPart_expr_iff.mpr ⟨v, rfl, h⟩⟩

/-- An expression is passed if it has a value that does not unwind. -/
theorem passes_expr_iff {e : Expr} :
    Passes scope (.expr e) heap heap' ↔
      ∃ w, Answers scope (.expr e) heap (some w) heap' ∧ w.isUnwinding = false := by
  constructor
  · rintro ⟨_, h, hw⟩
    obtain ⟨fuel, hrun⟩ := h
    obtain ⟨w, rfl, -⟩ := evalPart_expr_iff.mp hrun
    exact ⟨w, ⟨fuel, hrun⟩, hw⟩
  · rintro ⟨w, h, hw⟩
    exact ⟨some w, h, hw⟩

/-- A name that is bound means what it is bound to. -/
theorem evalExpr_of_lookup {name : String} (h : heap.lookup scope name = some v) (fuel : Nat)
    (t : Token) : evalExpr (fuel + 1) scope (.ident t name) heap = .ok (v, heap) := by
  have hlookup : EvalM.lookup scope name heap = .ok (some v, heap) :=
    congrArg (fun o => Except.ok (o, heap)) h
  exact bind_run hlookup

/-- A computation that goes on unless its value unwinds. -/
theorem unlessUnwinding_eq_ok {x : EvalM Value} {next : Value → EvalM Value}
    (h : unlessUnwinding x next heap = .ok (v, heap')) :
    ∃ w heap₁, x heap = .ok (w, heap₁) ∧
      if w.isUnwinding then v = w ∧ heap' = heap₁ else next w heap₁ = .ok (v, heap') := by
  obtain ⟨w, heap₁, hx, hnext⟩ := bind_run_eq_ok h
  -- The value of the part is there in any case, and decides what comes behind.
  refine ⟨w, heap₁, hx, ?_⟩
  split at hnext
  · next hw =>
      cases hnext
      rw [if_pos hw]
      exact ⟨rfl, rfl⟩
  · next hw =>
      rw [if_neg hw]
      exact hnext

/-- An operator in front of its operand. -/
theorem answers_unary_iff {t : Token} {op : UnaryOp} {e : Expr} :
    Answers scope (.expr (.unary t op e)) heap (some v) heap' ↔
      ∃ w, Answers scope (.expr e) heap (some w) heap' ∧
        v = if w.isUnwinding then w else applyUnary op w := by
  constructor
  · intro h
    obtain ⟨fuel, hrun⟩ := answers_expr_iff.mp h
    obtain ⟨w, heap₁, he, hrest⟩ := unlessUnwinding_eq_ok hrun
    split at hrest
    · next hw =>
        obtain ⟨rfl, rfl⟩ := hrest
        exact ⟨v, .of_evalExpr he, by rw [if_pos hw]⟩
    · next hw =>
        cases hrest
        exact ⟨w, .of_evalExpr he, by rw [if_neg hw]⟩
  · rintro ⟨w, he, rfl⟩
    refine .of_evalWith ?_
    -- Any fuel that is enough for the operand leaves enough for the operator.
    filter_upwards [he.eventually] with fuel hrun
    cases hw : w.isUnwinding with
    | true => exact unlessUnwinding_stops hw hrun
    | false => exact unlessUnwinding_goes hw hrun

/-- An operator between its operands. The right operand is evaluated in
the heap that the left one has left. -/
theorem answers_binary_iff {t : Token} {op : BinaryOp} {l r : Expr} :
    Answers scope (.expr (.binary t op l r)) heap (some v) heap' ↔
      ∃ a heap₁, Answers scope (.expr l) heap (some a) heap₁ ∧
        if a.isUnwinding then v = a ∧ heap' = heap₁
        else ∃ b heap₂, Answers scope (.expr r) heap₁ (some b) heap₂ ∧
          if b.isUnwinding then v = b ∧ heap' = heap₂
          else applyBinary op a b heap₂ = .ok (v, heap') := by
  constructor
  · intro h
    obtain ⟨fuel, hrun⟩ := answers_expr_iff.mp h
    obtain ⟨a, heap₁, hl, hrest⟩ := unlessUnwinding_eq_ok hrun
    refine ⟨a, heap₁, .of_evalExpr hl, ?_⟩
    split at hrest
    · next ha => rwa [if_pos ha]
    · next ha =>
        obtain ⟨b, heap₂, hr, hrest⟩ := unlessUnwinding_eq_ok hrest
        rw [if_neg ha]
        exact ⟨b, heap₂, .of_evalExpr hr, hrest⟩
  · rintro ⟨a, heap₁, hl, hrest⟩
    refine .of_evalWith ?_
    cases ha : a.isUnwinding with
    | true =>
        rw [if_pos ha] at hrest
        obtain ⟨rfl, rfl⟩ := hrest
        filter_upwards [hl.eventually] with fuel hl
        exact unlessUnwinding_stops ha hl
    | false =>
        rw [if_neg (by rw [ha]; exact Bool.false_ne_true)] at hrest
        obtain ⟨b, heap₂, hr, hrest⟩ := hrest
        -- The fuel has to be enough for both operands.
        filter_upwards [hl.eventually, hr.eventually] with fuel hl hr
        refine (unlessUnwinding_goes ha hl).trans ?_
        cases hb : b.isUnwinding with
        | true =>
            rw [if_pos hb] at hrest
            obtain ⟨rfl, rfl⟩ := hrest
            exact unlessUnwinding_stops hb hr
        | false =>
            rw [if_neg (by rw [hb]; exact Bool.false_ne_true)] at hrest
            exact (unlessUnwinding_goes hb hr).trans hrest

/-- An expression answers one thing. -/
theorem Answers.iff_of {e : Expr} {w : Value} {heap₁ : Heap}
    (h : Answers scope (.expr e) heap (some w) heap₁) :
    Answers scope (.expr e) heap (some v) heap' ↔ v = w ∧ heap' = heap₁ := by
  constructor
  · intro hv
    obtain ⟨hvalue, hheap⟩ := (evalPart_steady scope (.expr e)).ends_unique h hv
    exact ⟨Option.some.inj hvalue, hheap⟩
  · rintro ⟨rfl, rfl⟩
    exact h

/-! ### The tree of an integer -/

namespace Expr

/-- The three forms of the tree of an integer. -/
inductive OfInt (span : Span) : Int64 → Expr → Prop where
  | literal {n : Int64} (hn : 0 ≤ n) : OfInt span n (.mkInt n span)
  | negation {n : Int64} (hn : 0 ≤ n) :
      OfInt span (-n) (.mkUnary .negate (.mkInt n span) span)
  | difference {n : Int64} (hn : 0 ≤ n) :
      OfInt span (-n - 1)
        (.mkBinary .subtract (.mkUnary .negate (.mkInt n span) span) (.mkInt 1 span) span)

/-- The tree of an integer is one of the three forms. -/
theorem ofInt_form (n : Int64) (span : Span) : OfInt span n (.ofInt n span) := by
  unfold ofInt
  by_cases hn : 0 ≤ n
  · rw [if_pos hn]
    exact .literal hn
  · rw [if_neg hn]
    by_cases hmin : n = Int64.minValue
    · rw [if_pos hmin, hmin]
      exact .difference (n := Int64.maxValue) (by decide)
    · rw [if_neg hmin]
      have hform : OfInt span (- -n) _ := .negation (opposite_nonneg hn hmin)
      rwa [Int64.neg_neg] at hform

variable {span : Span} {n : Int64} {e : Expr}

/-- The tree means the integer, in every scope and in every heap. -/
theorem OfInt.answers (h : OfInt span n e) (scope : ScopeId) (heap : Heap) :
    Answers scope (.expr e) heap (some (.int n)) heap := by
  cases h with
  | literal => exact ⟨1, rfl⟩
  | negation => exact ⟨2, rfl⟩
  | difference => exact ⟨3, rfl⟩

/-- There is no negative literal in the tree. -/
theorem OfInt.wellFormed (h : OfInt span n e) : e.WellFormed := by
  cases h with
  | literal hn => exact hn
  | negation hn => exact hn
  | difference hn => exact ⟨hn, show (0 : Int64) ≤ 1 by decide⟩

/-- No form has a negative literal in it. -/
theorem OfInt.nonneg_of_mem_postorder (h : OfInt span n e) {t : Token} {m : Int64}
    (hmem : .expr (.int t m) ∈ (Node.expr e).postorder) : 0 ≤ m := by
  cases h with
  | literal hn | negation hn =>
      obtain ⟨-, rfl⟩ : t = _ ∧ m = _ := by
        simpa [Node.postorder_eq, Node.children, Expr.children, mkInt, mkUnary] using hmem
      exact hn
  | difference hn =>
      obtain ⟨-, rfl⟩ | ⟨-, rfl⟩ : (t = _ ∧ m = _) ∨ (t = _ ∧ m = 1) := by
        simpa [Node.postorder_eq, Node.children, Expr.children, mkInt, mkUnary, mkBinary] using hmem
      · exact hn
      · decide

/-- All of it is placed where the integer is spliced. -/
theorem OfInt.tokens (h : OfInt span n e) : ∀ t ∈ e.tokens, t.span = span := by
  cases h <;> simp [mkInt, mkUnary, mkBinary, Expr.tokens, Token.fixed]

end Expr

end QuoteScript
