import QuoteScript.Proofs.Eval.Integers
import QuoteScript.Proofs.Session.Dump
import QuoteScript.Proofs.Tree.Arithmetic

/-!
# `QuoteScript.Proofs.Session.Arithmetic`: arithmetic from text to answer

A text with the tokens of an arithmetic tree is run with fresh scopes. It
is parsed as the tree, there are no macros to expand in it, and it is
evaluated to the value that the tree has: operation by operation, the
64-bit words are those of the integers that are computed with, and a
division by zero stops both at the same place.

* `StandsFor`: the value that stands for a result, or for a division by
  zero.
* `ArithmeticTree.ReadAs.answers`: the tree is evaluated.
* `run_expression`: a text that is parsed as one expression is run.
* `arithmetic_is_exact`: what the text of a tree, or of a comparison,
  answers.
-/

set_option autoImplicit false

namespace QuoteScript

open EvalM

/-! ### Values for integers -/

/-- The value that stands for the outcome of a computation with integers:
what stands for its result, or a division of this dividend by zero. -/
inductive StandsFor {α : Type} (result : α → Value → Prop) : Except Int α → Value → Prop where
  | ok {a : α} {v : Value} (h : result a v) : StandsFor result (.ok a) v
  | divisionByZero (a : Int64) : StandsFor result (.error a.toInt) (.fault (.divisionByZero a))

/-- A word stands for its integer. -/
inductive WordFor : Int → Value → Prop where
  | mk (n : Int64) : WordFor n.toInt (.int n)

/-- A truth value stands for itself. -/
inductive TruthFor : Bool → Value → Prop where
  | mk (b : Bool) : TruthFor b (.bool b)

variable {scope : ScopeId} {heap : Heap}

/-- The operators compute with words as with integers that are
wrapped. -/
theorem ArithmeticOp.applyBinary_eq (op : ArithmeticOp) (a b : Int64) (heap : Heap) :
    ∃ v, StandsFor WordFor (op.apply a.toInt b.toInt) v ∧
      applyBinary op.toBinaryOp (.int a) (.int b) heap = .ok (v, heap) := by
  cases op with
  | add =>
      have hsum : wrapped (a.toInt + b.toInt) = (a + b).toInt := (Int64.toInt_add a b).symm
      exact ⟨.int (a + b), .ok (hsum ▸ .mk _), rfl⟩
  | subtract =>
      have hdifference : wrapped (a.toInt - b.toInt) = (a - b).toInt := (Int64.toInt_sub a b).symm
      exact ⟨.int (a - b), .ok (hdifference ▸ .mk _), rfl⟩
  | multiply =>
      have hproduct : wrapped (a.toInt * b.toInt) = (a * b).toInt := (Int64.toInt_mul a b).symm
      exact ⟨.int (a * b), .ok (hproduct ▸ .mk _), rfl⟩
  | divide =>
      -- Division is the one operator that may fail, on either side for the same divisor.
      have hzero : b.toInt = 0 ↔ b = 0 := by rw [← Int64.toInt_zero, Int64.toInt_inj]
      unfold apply toBinaryOp
      by_cases hb : b = 0
      · rw [if_pos (hzero.mpr hb)]
        refine ⟨_, .divisionByZero a, ?_⟩
        rw [applyBinary, applyInts, if_pos hb]
        rfl
      · have hquotient : wrapped (a.toInt.tdiv b.toInt) = (a / b).toInt :=
          (Int64.toInt_div a b).symm
        rw [if_neg (mt hzero.mp hb)]
        refine ⟨.int (a / b), .ok (hquotient ▸ .mk _), ?_⟩
        rw [applyBinary, applyInts, if_neg hb, quotient, if_neg hb]
        rfl

/-- Comparisons of words are those of integers. -/
theorem ComparisonOp.applyBinary_eq (op : ComparisonOp) (a b : Int64) (heap : Heap) :
    applyBinary op.toBinaryOp (.int a) (.int b) heap
      = .ok (.bool (op.holds a.toInt b.toInt), heap) := by
  have hholds : applyInts op.toBinaryOp a b = pure (.bool (op.holds a.toInt b.toInt)) := by
    cases op with
    | less => rw [holds, ← decide_eq_decide.mpr Int64.lt_iff_toInt_lt]; rfl
    | greater => rw [holds, ← decide_eq_decide.mpr Int64.lt_iff_toInt_lt]; rfl
    | equal => simp [applyInts, toBinaryOp, holds, Int64.toInt_inj, beq_eq_decide]
    | notEqual => simp [applyInts, toBinaryOp, holds, Int64.toInt_inj, bne, beq_eq_decide]
  exact congrArg (fun x : EvalM Value => x heap) hholds

/-! ### Evaluation -/

/-- Operands that stand for integers, or for a division by zero, are
evaluated from left to right. -/
theorem answers_between {α : Type} {result : α → Value → Prop} {x y : Except Int Int} {l r : Expr}
    {v w : Value} {op : BinaryOp} {f : Int → Int → Except Int α} (t : Token)
    (hx : StandsFor WordFor x v) (hl : Answers scope (.expr l) heap (some v) heap)
    (hy : StandsFor WordFor y w) (hr : Answers scope (.expr r) heap (some w) heap)
    (hop : ∀ a b : Int64, ∃ u, StandsFor result (f a.toInt b.toInt) u ∧
      applyBinary op (.int a) (.int b) heap = .ok (u, heap)) :
    ∃ u, StandsFor result (do f (← x) (← y)) u ∧
      Answers scope (.expr (.binary t op l r)) heap (some u) heap := by
  cases hx with
  | divisionByZero a => exact ⟨_, .divisionByZero a, answers_binary_iff.mpr ⟨_, heap, hl, rfl, rfl⟩⟩
  | ok hv =>
      obtain ⟨a⟩ := hv
      cases hy with
      | divisionByZero b =>
          exact ⟨_, .divisionByZero b,
            answers_binary_iff.mpr ⟨_, heap, hl, _, heap, hr, rfl, rfl⟩⟩
      | ok hw =>
          obtain ⟨b⟩ := hw
          obtain ⟨u, hu, happly⟩ := hop a b
          exact ⟨u, hu, answers_binary_iff.mpr ⟨_, heap, hl, _, heap, hr, happly⟩⟩

/-- An expression that is a tree answers with the value of the tree, and
leaves the heap alone. -/
theorem ArithmeticTree.ReadAs.answers {tree : ArithmeticTree} {e : Expr} (h : tree.ReadAs e)
    (scope : ScopeId) (heap : Heap) :
    ∃ v, StandsFor WordFor tree.value v ∧ Answers scope (.expr e) heap (some v) heap := by
  induction h with
  | @literal n _ t => exact ⟨.int n, .ok (.mk n), ⟨1, rfl⟩⟩
  | @negative n _ t t' =>
      have hanswers : Answers scope (.expr (.unary t .negate (.int t' (-n)))) heap
          (some (.int (- -n))) heap := ⟨2, rfl⟩
      -- The minus of a negative literal is an operator in the text.
      rw [Int64.neg_neg] at hanswers
      exact ⟨.int n, .ok (.mk n), hanswers⟩
  | @negate tree e t _ ih =>
      obtain ⟨v, hv, he⟩ := ih
      unfold value
      generalize tree.value = x at hv
      cases hv with
      | divisionByZero a => exact ⟨_, .divisionByZero a, answers_unary_iff.mpr ⟨_, he, rfl⟩⟩
      | ok hv =>
          obtain ⟨n⟩ := hv
          have hopposite : wrapped (-n.toInt) = (-n).toInt := (Int64.toInt_neg n).symm
          exact ⟨.int (-n), .ok (hopposite ▸ .mk _), answers_unary_iff.mpr ⟨_, he, rfl⟩⟩
  | @binary op _ _ _ _ t _ _ ihl ihr =>
      obtain ⟨v, hv, hl⟩ := ihl
      obtain ⟨w, hw, hr⟩ := ihr
      exact answers_between t hv hl hw hr fun a b => op.applyBinary_eq a b heap

/-- A comparison that is read off is evaluated to its truth value, or to
the first division by zero. -/
theorem Comparison.ReadAs.answers {c : Comparison} {e : Expr} (h : c.ReadAs e)
    (scope : ScopeId) (heap : Heap) :
    ∃ v, StandsFor TruthFor c.value v ∧ Answers scope (.expr e) heap (some v) heap := by
  obtain ⟨t, hleft, hright⟩ := h
  obtain ⟨v, hv, hl⟩ := hleft.answers scope heap
  obtain ⟨w, hw, hr⟩ := hright.answers scope heap
  exact answers_between t hv hl hw hr fun a b =>
    ⟨_, .ok (.mk _), c.op.applyBinary_eq a b heap⟩

/-! ### Runs -/

/-- A text that is parsed as one expression answers with the value of the
expression. -/
theorem run_expression {source : String} {macros : ScopeId} {t : Token} {e : Expr} {v : Value}
    {heap' : Heap} (hmacros : heap.Fresh macros) (herrors : (parse source).errors = [])
    (hprogram : (parse source).program = [.expr t e])
    (hanswers : Answers scope (.expr e) heap (some v) heap') :
    ∃ enough, ∀ fuel ≥ enough,
      (run fuel source scope macros).run heap = .ok (.ok (some v.unwrapReturn), heap') := by
  have hnone : ∀ st ∈ (parse source).program, macroDefinition? st = none := by
    rw [hprogram]
    exact List.forall_mem_singleton.mpr rfl
  refine Filter.eventually_atTop.mp ?_
  filter_upwards [hanswers.eventually] with fuel heval
  -- The source is this one expression: no macro is defined, and nothing comes behind.
  have hstmt : evalStmt (evalExpr fuel) scope (.expr t e) heap = .ok (some v, heap') :=
    bind_run heval
  have hbody : evalBody (evalExpr fuel) scope none [.expr t e] heap = .ok (some v, heap') := by
    refine (bind_run hstmt).trans ?_
    split <;> rfl
  refine (bind_run_of_ok (expand_run_of_fresh hmacros herrors hnone fuel)).trans ?_
  rw [hprogram]
  have hprogramEval : evalProgram fuel scope [.expr t e] heap = .ok (some v.unwrapReturn, heap') :=
    bind_run hbody
  exact lift_run hprogramEval

/-- In this heap, a text answers with a value and leaves the heap alone,
whatever fuel there is from some amount on. -/
def AnswersWith (heap : Heap) (source : String) (scope macros : ScopeId) (v : Value) : Prop :=
  ∃ enough, ∀ fuel ≥ enough,
    (run fuel source scope macros).run heap = .ok (.ok (some v), heap)

/-- A text with the tokens of an arithmetic tree, with blank space
between them or not, is run where no macros are bound. It answers with
the integer that is the value of the tree. If an evaluation from left to
right comes to a division by zero, it answers with the fault that names
the dividend of the first one. The heap is left as it was.

A text with the tokens of two trees and a comparison between them answers
with the truth of the comparison, or with the first division by zero.

The text of a tree, and of a comparison, is such a text. -/
theorem arithmetic_is_exact {heap : Heap} (scope : ScopeId) {macros : ScopeId}
    (hmacros : heap.Fresh macros) :
    (∀ (tree : ArithmeticTree) source, lexemes source.toList = tree.spelling →
      (∀ z, tree.value = .ok z → ∃ n : Int64, n.toInt = z ∧
        AnswersWith heap source scope macros (.int n)) ∧
      (∀ a, tree.value = .error a → ∃ f : Fault,
        f.message = "Division by zero: " ++ a.repr ++ " / 0" ∧
          AnswersWith heap source scope macros (.fault f))) ∧
    (∀ (c : Comparison) source, lexemes source.toList = c.spelling →
      (∀ a b, c.left.value = .ok a → c.right.value = .ok b →
        AnswersWith heap source scope macros (.bool (c.op.holds a b))) ∧
      (∀ a, c.value = .error a → ∃ f : Fault,
        f.message = "Division by zero: " ++ a.repr ++ " / 0" ∧
          AnswersWith heap source scope macros (.fault f))) ∧
    (∀ tree : ArithmeticTree, lexemes tree.text.toList = tree.spelling) ∧
    ∀ c : Comparison, lexemes c.text.toList = c.spelling := by
  have hmessage (a : Int64) : (Fault.divisionByZero a).message =
      "Division by zero: " ++ a.toInt.repr ++ " / 0" := by
    rw [← Text.writeInt_eq_repr]
    rfl
  have hscanned {text : String} {cores : List Core} (h : ScannedAs text cores) :
      lexemes text.toList = cores := by
    have hlex := h [] endsWord_nil
    rwa [lexemes_nil, List.append_nil, List.append_nil] at hlex
  refine ⟨fun tree source hsource => ?tree, fun c source hsource => ?comparison,
    fun tree => hscanned tree.scannedAs, fun c => hscanned c.scannedAs⟩
  case tree =>
    obtain ⟨herrors, t, e, hprogram, hread⟩ := ArithmeticTree.parses hsource
    obtain ⟨v, hv, hanswers⟩ := hread.answers scope heap
    have hrun := run_expression hmacros herrors hprogram hanswers
    constructor
    · intro z hz
      rw [hz] at hv
      obtain ⟨⟨n⟩⟩ := hv
      exact ⟨n, rfl, hrun⟩
    · intro a ha
      rw [ha] at hv
      obtain _ | ⟨n⟩ := hv
      exact ⟨_, hmessage n, hrun⟩
  case comparison =>
    obtain ⟨herrors, t, e, hprogram, hread⟩ := Comparison.parses hsource
    obtain ⟨v, hv, hanswers⟩ := hread.answers scope heap
    have hrun := run_expression hmacros herrors hprogram hanswers
    constructor
    · intro a b ha hb
      -- Neither side divides by zero, so the operator is applied to both values.
      have hvalue : c.value = .ok (c.op.holds a b) := by
        rw [Comparison.value, ha, hb]
        rfl
      rw [hvalue] at hv
      obtain ⟨⟨_⟩⟩ := hv
      exact hrun
    · intro a ha
      rw [ha] at hv
      obtain _ | ⟨n⟩ := hv
      exact ⟨_, hmessage n, hrun⟩

/-- The smallest integer divided by the opposite of one, a division by
zero in front of another one, and a comparison. -/
theorem arithmetic_is_exact_smallest :
    let heap : Heap := ((({} : Heap).newScope none).2.newScope none).2
    let one : ArithmeticTree := .const 1 (by decide)
    let zero : ArithmeticTree := .const 0 (by decide)
    let smallest : ArithmeticTree :=
      .binary .subtract (.const (-9223372036854775807) (by decide)) one
    let quotient : ArithmeticTree := .binary .divide smallest (.negate one)
    let divided : ArithmeticTree := .binary .divide smallest (.binary .subtract one one)
    let twice : ArithmeticTree := .binary .multiply divided (.binary .divide one zero)
    let compared : Comparison := ⟨.less, quotient, zero⟩
    heap.Fresh ⟨1⟩ ∧ quotient.text = "(-9223372036854775807 - 1) / -1" ∧
      AnswersWith heap quotient.text ⟨0⟩ ⟨1⟩ (.int Int64.minValue) ∧
      twice.text = "(-9223372036854775807 - 1) / (1 - 1) * (1 / 0)" ∧
      (∃ f : Fault, f.message = "Division by zero: -9223372036854775808 / 0" ∧
        AnswersWith heap twice.text ⟨0⟩ ⟨1⟩ (.fault f)) ∧
      compared.text = "(-9223372036854775807 - 1) / -1 < 0" ∧
      AnswersWith heap compared.text ⟨0⟩ ⟨1⟩ (.bool true) := by
  intro heap one zero smallest quotient divided twice compared
  have hfresh : heap.Fresh ⟨1⟩ := .newScope (({} : Heap).newScope none).2
  obtain ⟨htrees, hcomparisons, htext, hcompared⟩ := arithmetic_is_exact ⟨0⟩ hfresh
  -- The smallest integer divided by minus one wraps around to itself.
  have hvalue : quotient.value = .ok (-9223372036854775808) := rfl
  obtain ⟨n, hn, hquotient⟩ := (htrees quotient _ (htext quotient)).1 _ hvalue
  obtain rfl : n = Int64.minValue := Int64.toInt_inj.mp hn
  have hfault := (htrees twice _ (htext twice)).2 (-9223372036854775808) rfl
  have hless := (hcomparisons compared _ (hcompared compared)).1 _ 0 hvalue rfl
  exact ⟨hfresh, by decide +kernel, hquotient, by decide +kernel, hfault, by decide +kernel, hless⟩

end QuoteScript
