import QuoteScript.Eval.Expression
import QuoteScript.Proofs.Eval.Logic
import QuoteScript.Proofs.Scope.Change

/-!
# `QuoteScript.Proofs.Eval.Writes`: evaluation writes its own scope

Evaluation binds names in one place: a `let` binds its name in the scope
that it is evaluated in. The statements of a branch are evaluated in the
scope around it. The body of a closure is evaluated in a scope of its
own, which is made for the call. So of the scopes that are there before,
an evaluation changes at most the one it was given, and a call changes
none.

* `EvalM.Moves c x P`: `x` changes the heap as `c` allows, and its
  answer has the property `P`.
* `evalWith_writes`: one level of evaluation, given the levels below.
* `evalExpr_writes`: evaluation, by induction on the fuel.
* `evalNode_writes`, `applyValue_extends`, `evalClosureBody_extends`:
  nodes, calls and bodies of closures.
-/

set_option autoImplicit false

namespace QuoteScript

namespace EvalM

variable {α β : Type}

/-- If `x` ends, the heap has changed as `c` allows, and the answer has
the property `P`. -/
def Moves (c : Change) (x : EvalM α) (P : α → Prop) : Prop :=
  ∀ heap a heap', x heap = .ok (a, heap') → c.allows heap heap' ∧ P a

namespace Moves

variable {c : Change} {P : α → Prop} {Q : β → Prop}

/-- A heap that is left as it is has changed in any admitted way. -/
theorem pure {a : α} (h : P a) : Moves c (Pure.pure a) P := by
  intro heap b heap' hrun
  cases hrun
  exact ⟨c.refl heap, h⟩

/-- Two changes in a row are one change. -/
theorem bind {x : EvalM α} {next : α → EvalM β} (hx : Moves c x P)
    (hnext : ∀ a, P a → Moves c (next a) Q) : Moves c (x >>= next) Q := by
  intro heap b heap' hrun
  obtain ⟨a, heap₁, hfirst, hrun⟩ := bind_run_eq_ok hrun
  obtain ⟨hallows, ha⟩ := hx heap a heap₁ hfirst
  obtain ⟨hallows', hb⟩ := hnext a ha heap₁ b heap' hrun
  exact ⟨c.trans hallows hallows', hb⟩

/-- A change may be admitted more generously, and less be said of the
answer. -/
theorem mono {x : EvalM α} {c' : Change} {P' : α → Prop} (h : Moves c x P)
    (hc : ∀ heap heap', c.allows heap heap' → c'.allows heap heap') (hP : ∀ a, P a → P' a) :
    Moves c' x P' :=
  fun heap a heap' hrun => ⟨hc heap heap' (h heap a heap' hrun).1, hP a (h heap a heap' hrun).2⟩

end Moves

/-- What is answered by computations that change the heap as `c`
allows. -/
def moves (c : Change) : Guarantee EvalM where
  gives := Moves c
  pure := .pure
  bind := .bind

/-- All scopes stay as they are, apart from new ones. -/
abbrev Extends (x : EvalM α) : Prop :=
  Moves .extending x fun _ => True

/-- All scopes stay as they are, apart from new ones and from bindings
in `scope`. -/
abbrev Writes (scope : ScopeId) (x : EvalM α) : Prop :=
  Moves (.writing scope) x fun _ => True

/-- What leaves the old scopes alone writes to no other than the given
one. -/
theorem Extends.writes {x : EvalM α} (h : Extends x) (scope : ScopeId) : Writes scope x :=
  h.mono (fun _ _ hextends => hextends.writes scope) fun _ _ => trivial

end EvalM

open EvalM

/-! ### Operations that make values -/

section Values

variable {α : Type}

/-- A computation that stops leaves no heap behind. -/
theorem extends_stop (stop : Stop) : Extends (throw stop : EvalM α) := by
  intro heap a heap' hrun
  cases hrun

/-- A new handle touches no scope. -/
theorem newHandle_extends : Extends newHandle := by
  intro heap handle heap' hrun
  cases hrun
  exact ⟨fun _ _ hframe => hframe, trivial⟩

/-- Looking a name up touches none either. -/
theorem lookup_extends (scope : ScopeId) (name : String) : Extends (EvalM.lookup scope name) := by
  intro heap v heap' hrun
  cases hrun
  exact ⟨fun _ _ hframe => hframe, trivial⟩

/-- Nor does a new array. -/
theorem newArray_extends (items : List Value) : Extends (newArray items) :=
  newHandle_extends.bind fun _ _ => .pure trivial

/-- Nor a new dict. -/
theorem newDict_extends (entries : List (Key × Value)) : Extends (newDict entries) :=
  newHandle_extends.bind fun _ _ => .pure trivial

/-- Nor a new closure: it only captures its scope. -/
theorem newClosure_extends (kind : LambdaKind) (params : List String) (body : Block)
    (scope : ScopeId) : Extends (newClosure kind params body scope) :=
  newHandle_extends.bind fun _ _ => .pure trivial

/-- Nor a new quote. -/
theorem newQuote_extends (node : Node) : Extends (newQuote node) :=
  newHandle_extends.bind fun _ _ => .pure trivial

/-- Arithmetic touches no scope. -/
theorem applyInts_extends (op : BinaryOp) (a b : Int64) : Extends (applyInts op a b) := by
  cases op with
  | divide =>
      by_cases hb : b = 0
      · rw [applyInts, if_pos hb]
        exact .pure trivial
      · rw [applyInts, if_neg hb, quotient, if_neg hb]
        exact .pure trivial
  | _ => exact .pure trivial

/-- No infix operator touches a scope. -/
theorem applyBinary_extends (op : BinaryOp) (a b : Value) : Extends (applyBinary op a b) := by
  unfold applyBinary
  split
  · exact applyInts_extends op _ _
  · exact .pure trivial
  · split <;> exact .pure trivial

/-- No native function on an array touches a scope. -/
theorem Native.applyToArray_extends (native : Native) (items args : List Value) :
    Extends (native.applyToArray items args) := by
  cases native with
  -- Only these two make an array.
  | rest =>
      unfold applyToArray
      dsimp only
      split
      · exact .pure trivial
      · cases items with
        | nil => exact (extends_stop _).bind fun _ _ => newArray_extends _
        | cons v rest => exact newArray_extends rest
  | push =>
      cases args with
      | nil => exact extends_stop _
      | cons v more => exact newArray_extends _
  | _ => exact .pure trivial

/-- Nor does one on any other argument. -/
theorem Native.apply_extends (native : Native) (args : List Value) :
    Extends (native.apply args) := by
  unfold apply
  split
  · exact extends_stop _
  · exact native.applyToArray_extends _ _
  · split <;> exact .pure trivial

/-- Spelling an integer as a tree touches no scope. -/
theorem spliceInt_extends (n : Int64) (span : Span) : Extends (spliceInt n span) := by
  unfold spliceInt
  by_cases hn : 0 ≤ n
  · rw [if_pos hn]
    exact .pure trivial
  · rw [if_neg hn]
    by_cases hmin : n = Int64.minValue
    · rw [if_pos hmin]
      exact .pure trivial
    · rw [if_neg hmin, opposite, if_neg hmin]
      exact .pure trivial

/-- Nor does spelling another value. -/
theorem spliceValue_extends (v : Value) (span : Span) : Extends (spliceValue v span) := by
  cases v with
  | int n => exact (spliceInt_extends n span).bind fun _ _ => .pure trivial
  | _ => exact .pure trivial

end Values

/-! ### Statements -/

/-- Every expression is evaluated so that only its own scope is
written. -/
def EvaluatorWrites (eval : Evaluator) : Prop :=
  ∀ scope e, Writes scope (eval scope e)

/-- Both parts write to the same scope. -/
theorem unlessUnwinding_writes {scope : ScopeId} {x : EvalM Value} {next : Value → EvalM Value}
    (hx : Writes scope x) (hnext : ∀ v, Writes scope (next v)) :
    Writes scope (unlessUnwinding x next) := by
  refine hx.bind fun v _ => ?_
  split
  · exact .pure trivial
  · exact hnext v

/-- Binding a name writes to its scope. -/
theorem bindName_writes (scope : ScopeId) (name : String) (v : Value) :
    Writes scope (bindName scope name v) := by
  intro heap a heap' hrun
  cases hrun
  exact ⟨heap.writes_bind scope name v, trivial⟩

/-- So does binding several names. -/
theorem bindAll_writes (scope : ScopeId) (names : List String) (values : List Value) :
    Writes scope (bindAll scope names values) := by
  induction names generalizing values with
  | nil => exact .pure trivial
  | cons name names ih =>
      cases values with
      | nil => exact .pure trivial
      | cons v values => exact (bindName_writes scope name v).bind fun _ _ => ih values

section Evaluation

variable {eval : Evaluator} (h : EvaluatorWrites eval) (scope : ScopeId)

include h

/-- A statement writes to the scope it is evaluated in. -/
theorem evalStmt_writes (s : Stmt) : Writes scope (evalStmt eval scope s) := by
  cases s with
  | letIn t name value =>
      refine (h scope value).bind fun v _ => ?_
      split
      · exact .pure trivial
      · exact (bindName_writes scope name v).bind fun _ _ => .pure trivial
  | ret t value =>
      refine (h scope value).bind fun v _ => ?_
      split <;> exact .pure trivial
  | expr t value => exact (h scope value).bind fun _ _ => .pure trivial

/-- So do statements in a row. -/
theorem evalBody_writes (last : Option Value) (body : List Stmt) :
    Writes scope (evalBody eval scope last body) := by
  induction body generalizing last with
  | nil => exact .pure trivial
  | cons s rest ih =>
      refine (evalStmt_writes h scope s).bind fun v _ => ?_
      split
      · exact .pure trivial
      · exact ih v

/-- A block has no scope of its own, and writes to the one around it. -/
theorem evalBlock_writes (b : Block) : Writes scope (evalBlock eval scope b) :=
  evalBody_writes h scope none b.body

/-! ### Calls -/

/-- The body of a closure writes the scope that is made for it, so no
scope that was there before. -/
theorem evalClosureBody_extends (params : List String) (body : Block) (outer : ScopeId)
    (args : List Value) : Extends (evalClosureBody eval params body outer args) := by
  intro heap v heap' hrun
  have hinner : Writes ⟨heap.frames.size⟩ (do
      bindAll ⟨heap.frames.size⟩ params args
      let v ← evalBlock eval ⟨heap.frames.size⟩ body
      return (v.map Value.unwrapReturn).getD .null) :=
    (bindAll_writes _ params args).bind fun _ _ =>
      (evalBlock_writes h _ body).bind fun _ _ => .pure trivial
  -- Only the new scope is written, and the heap in front of the call does not have it.
  have hwrites := (hinner (heap.newScope (some outer)).2 v heap' hrun).1
  have hnew : heap.frame? ⟨heap.frames.size⟩ = none := Array.getElem?_size
  exact ⟨hwrites.extends_of_new hnew (heap.extends_newScope (some outer)), trivial⟩

/-- A call writes to the scope it makes, which is new to the caller. -/
theorem applyValue_extends (callee : Value) (args : List Value) :
    Extends (applyValue eval callee args) := by
  unfold applyValue
  split
  · split
    · exact evalClosureBody_extends h _ _ _ args
    · exact .pure trivial
  · split
    · exact Native.apply_extends _ args
    · exact .pure trivial
  · exact .pure trivial

/-! ### Expressions -/

/-- A quote evaluates its splices in the scope it stands in. -/
theorem quoteNode_writes (e : Expr) : Writes scope (quoteNode (eval scope) (.expr e)) := by
  have hsplice : Preserves (moves (.writing scope)) .full (spliceCall (eval scope)) := by
    intro node _
    unfold spliceCall
    split
    · exact .pure node.over_full
    · next span arg _ =>
        refine Moves.bind (h scope arg) fun v _ => ?_
        refine Moves.bind ((spliceValue_extends _ span).writes scope) fun spliced _ => ?_
        exact .pure (Node.over_full _)
  -- The full lexicon asks nothing of a tree, so the pass is followed for its effects only.
  have hpass := Node.transformM_expr_gives hsplice e.over_full (P := fun _ => True)
    fun e' _ => (hsplice (.expr e') e'.over_full).mono (fun _ _ hc => hc) fun _ _ => trivial
  exact Moves.bind hpass fun node _ => (newQuote_extends node).writes scope

/-- Arguments and items are evaluated in the same scope. -/
theorem evalAll_writes (es : List Expr) : Writes scope (evalAll (eval scope) es) := by
  induction es with
  | nil => exact .pure trivial
  | cons e rest ih =>
      refine (h scope e).bind fun v _ => ?_
      split
      · exact .pure trivial
      · refine ih.bind fun r _ => ?_
        split <;> exact .pure trivial

/-- So are the pairs of a dict. -/
theorem evalPairs_writes (entries : List (Key × Value)) (pairs : List (Expr × Expr)) :
    Writes scope (evalPairs (eval scope) entries pairs) := by
  induction pairs generalizing entries with
  | nil => exact (newDict_extends entries).writes scope
  | cons pair rest ih =>
      refine unlessUnwinding_writes (h scope pair.1) fun k => ?_
      split
      · exact .pure trivial
      · exact unlessUnwinding_writes (h scope pair.2) fun v => ih _

omit h in
/-- A name is only looked up. -/
theorem evalName_writes (name : String) : Writes scope (evalName scope name) := by
  refine ((lookup_extends scope name).writes scope).bind fun v _ => ?_
  split
  · exact .pure trivial
  · split <;> exact .pure trivial

/-- One level of evaluation writes its own scope only, if the levels
below do. -/
theorem evalWith_writes (e : Expr) : Writes scope (evalWith eval scope e) := by
  cases e with
  | ident _ name => exact evalName_writes scope name
  | int _ _ | str _ _ | bool _ _ => exact .pure trivial
  | unary _ op operand => exact unlessUnwinding_writes (h scope operand) fun v => .pure trivial
  | binary _ op left right =>
      refine unlessUnwinding_writes (h scope left) fun a => ?_
      refine unlessUnwinding_writes (h scope right) fun b => ?_
      exact (applyBinary_extends op a b).writes scope
  | cond _ condition consequence alternative =>
      refine unlessUnwinding_writes (h scope condition) fun v => ?_
      split
      · exact (evalBlock_writes h scope consequence).bind fun _ _ => .pure trivial
      · cases alternative with
        | none => exact .pure trivial
        | some b => exact (evalBlock_writes h scope b).bind fun _ _ => .pure trivial
  | lambda _ kind params body => exact (newClosure_extends kind params body scope).writes scope
  | call _ callee args =>
      rw [evalWith]
      split
      · next arg _ => exact quoteNode_writes h scope arg
      · refine unlessUnwinding_writes (h scope callee) fun f => ?_
        refine (evalAll_writes h scope args).bind fun r _ => ?_
        split
        -- The body of what is called has a scope of its own, so the caller's is not written to.
        · exact (applyValue_extends h f _).writes scope
        · exact .pure trivial
  | array _ items =>
      refine (evalAll_writes h scope items).bind fun r _ => ?_
      split
      · exact (newArray_extends _).writes scope
      · exact .pure trivial
  | index _ left index =>
      refine unlessUnwinding_writes (h scope left) fun v => ?_
      exact unlessUnwinding_writes (h scope index) fun i => .pure trivial
  | dict _ pairs => exact evalPairs_writes h scope [] pairs

end Evaluation

/-- Evaluation writes its own scope only, with any fuel. -/
theorem evalExpr_writes (fuel : Nat) : EvaluatorWrites (evalExpr fuel) := by
  induction fuel with
  -- Without fuel nothing is done at all.
  | zero => exact fun _ _ => (extends_stop _).writes _
  | succ fuel ih => exact fun scope e => evalWith_writes ih scope e

/-- A program writes to the scope it is run in. -/
theorem evalProgram_writes (fuel : Nat) (scope : ScopeId) (program : Program) :
    Writes scope (evalProgram fuel scope program) :=
  (evalBody_writes (evalExpr_writes fuel) scope none program).bind fun _ _ => .pure trivial

/-- So does any node. -/
theorem evalNode_writes (fuel : Nat) (scope : ScopeId) (node : Node) :
    Writes scope (evalNode fuel scope node) := by
  have h := evalExpr_writes fuel
  -- Whatever the node is, what it answers is unwrapped in the same way.
  have hparts : ∀ {x : EvalM (Option Value)}, Writes scope x →
      Writes scope (x >>= fun v => pure (v.getD .null).unwrapReturn) :=
    fun hx => hx.bind fun _ _ => .pure trivial
  cases node with
  | program p => exact hparts (evalProgram_writes fuel scope p)
  | stmt s => exact hparts (evalStmt_writes h scope s)
  | block b => exact hparts (evalBlock_writes h scope b)
  | expr e => exact hparts ((h scope e).bind fun _ _ => .pure trivial)

end QuoteScript
