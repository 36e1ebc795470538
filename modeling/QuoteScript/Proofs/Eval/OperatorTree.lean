import QuoteScript.Proofs.Eval.Integers
import QuoteScript.Proofs.Value.Renaming

/-!
# `QuoteScript.Proofs.Eval.OperatorTree`: operators around what is spliced

A quote may hold operators around names that are spliced, and around any
other operands. When the names mean integers, evaluating what the quote
holds is evaluating the operators around the names themselves.

Two things have to go in step. The passes over the two quoted trees do,
because for a name that is spliced, the name is looked up and nothing
else happens. So the calls in the other operands are evaluated in the
same heaps. And the two trees that come out are evaluated in step,
because the tree of an integer leaves the heap alone, as a name does.

All of this relies on what the names mean when they are looked up. The
operands to the left of a name are evaluated before that, and a `let` in
a branch binds in the scope around it. So the assumption is made where
the name is looked up, and not at the start.

* `OperatorTree`: operators around names and operands, with three ways
  to write it.
* `OperatorTree.Bound`: the names mean their integers.
* `OperatorTree.visits_alongside`: the two passes.
* `OperatorTree.filled_answers_iff`: the two trees that come out.
* `OperatorTree.Means.bound`: names that mean their integers at the
  start, and operands that keep it that way.
* `integer_splices_keep_value`: what is made of an integer, and what
  operators around it mean.
-/

set_option autoImplicit false

namespace QuoteScript

open EvalM

variable {scope : ScopeId} {heap heap' : Heap}

/-! ### Two computations in the same heap -/

/-- In this heap, two computations stop for the same reason, or both
leave the same heap, with answers that are related. -/
def Alongside {α β : Type} (heap : Heap) (x : EvalM α) (y : EvalM β) (R : α → β → Prop) : Prop :=
  (∃ stop, x heap = .error stop ∧ y heap = .error stop) ∨
    ∃ a b heap', x heap = .ok (a, heap') ∧ y heap = .ok (b, heap') ∧ R a b

namespace Alongside

variable {α β γ δ : Type} {x : EvalM α} {y : EvalM β} {R : α → β → Prop}

/-- A computation goes alongside itself. -/
theorem same {R : α → α → Prop} (x : EvalM α) (h : ∀ a, R a a) : Alongside heap x x R := by
  cases hx : x heap with
  | error stop => exact .inl ⟨stop, hx, hx⟩
  | ok r => exact .inr ⟨r.1, r.1, r.2, hx, hx, h r.1⟩

/-- Two answers that are there, and a heap that is left as it is. -/
theorem pure {a : α} {b : β} (h : R a b) : Alongside heap (Pure.pure a) (Pure.pure b) R :=
  .inr ⟨a, b, heap, rfl, rfl, h⟩

/-- Two computations in sequence: the second parts start from the same
heap. -/
theorem bind {next : α → EvalM γ} {next' : β → EvalM δ} {Q : γ → δ → Prop}
    (h : Alongside heap x y R)
    (hnext : ∀ a b heap', y heap = .ok (b, heap') → R a b →
      Alongside heap' (next a) (next' b) Q) :
    Alongside heap (x >>= next) (y >>= next') Q := by
  obtain ⟨stop, hx, hy⟩ | ⟨a, b, heap', hx, hy, hab⟩ := h
  · exact .inl ⟨stop, bind_run_of_error hx, bind_run_of_error hy⟩
  · obtain ⟨stop, hx', hy'⟩ | ⟨c, d, heap'', hx', hy', hcd⟩ := hnext a b heap' hy hab
    · exact .inl ⟨stop, (bind_run hx).trans hx', (bind_run hy).trans hy'⟩
    · exact .inr ⟨c, d, heap'', (bind_run hx).trans hx', (bind_run hy).trans hy', hcd⟩

end Alongside

/-! ### Operators around names -/

/-- Operators around names that are spliced, and around other operands.
For every name there is the integer that it is to mean. -/
inductive OperatorTree where
  | splice (call callee argument : Token) (name : String) (n : Int64)
    (hcallee : callee.literal = "unquote")
  | operand (e : Expr)
  | unary (token : Token) (op : UnaryOp) (tree : OperatorTree)
  | binary (token : Token) (op : BinaryOp) (left right : OperatorTree)

namespace OperatorTree

/-- The operators around calls that splice the names. -/
def quoted : OperatorTree → Expr
  | splice call callee argument name _ _ =>
    .call call (.ident callee "unquote") [.ident argument name]
  | operand e => e
  | unary token op tree => .unary token op tree.quoted
  | binary token op left right => .binary token op left.quoted right.quoted

/-- The operators around the names. -/
def named : OperatorTree → Expr
  | splice _ _ argument name _ _ => .ident argument name
  | operand e => e
  | unary token op tree => .unary token op tree.named
  | binary token op left right => .binary token op left.named right.named

/-- The operators around the trees of the integers. -/
def filled : OperatorTree → Expr
  | splice call _ _ _ n _ => .ofInt n call.span
  | operand e => e
  | unary token op tree => .unary token op tree.filled
  | binary token op left right => .binary token op left.filled right.filled

/-- The same operators around the same names. Only the other operands
may differ. -/
inductive SameNames : OperatorTree → OperatorTree → Prop where
  | splice {call callee argument : Token} {name : String} {n : Int64}
      {hcallee : callee.literal = "unquote"} :
      SameNames (.splice call callee argument name n hcallee)
        (.splice call callee argument name n hcallee)
  | operand {e e' : Expr} : SameNames (.operand e) (.operand e')
  | unary {token : Token} {op : UnaryOp} {tree tree' : OperatorTree} (h : SameNames tree tree') :
      SameNames (.unary token op tree) (.unary token op tree')
  | binary {token : Token} {op : BinaryOp} {left left' right right' : OperatorTree}
      (hleft : SameNames left left') (hright : SameNames right right') :
      SameNames (.binary token op left right) (.binary token op left' right')

/-- Each name means its integer in the heap in which it is looked up.
`goes e heap heap'` says that `heap'` is what is left of `heap` when `e`
is dealt with, and that what is to the right of `e` is next. -/
def Bound (scope : ScopeId) (goes : Expr → Heap → Heap → Prop) : OperatorTree → Heap → Prop
  | splice _ _ _ name n _, heap => heap.lookup scope name = some (.int n)
  | operand _, _ => True
  | unary _ _ tree, heap => tree.Bound scope goes heap
  | binary _ _ left right, heap =>
    left.Bound scope goes heap ∧ ∀ heap', goes left.named heap heap' → right.Bound scope goes heap'

/-- Each name means its integer in this heap. -/
def Means (scope : ScopeId) (heap : Heap) : OperatorTree → Prop
  | splice _ _ _ name n _ => heap.lookup scope name = some (.int n)
  | operand _ => True
  | unary _ _ tree => tree.Means scope heap
  | binary _ _ left right => left.Means scope heap ∧ right.Means scope heap

/-- The operands that are no names. -/
def operands : OperatorTree → List Expr
  | splice .. => []
  | operand e => [e]
  | unary _ _ tree => tree.operands
  | binary _ _ left right => left.operands ++ right.operands

/-- Names mean the same when such an operand has been dealt with. -/
def Kept (scope : ScopeId) (goes : Expr → Heap → Heap → Prop) (tree : OperatorTree) : Prop :=
  ∀ e ∈ tree.operands, ∀ heap heap', goes e heap heap' →
    ∀ name, heap'.lookup scope name = heap.lookup scope name

end OperatorTree

/-- The pass over a quoted expression leaves `heap'`. -/
def QuotePasses (scope : ScopeId) (e : Expr) (heap heap' : Heap) : Prop :=
  ∃ fuel answer, (Node.expr e).transformM (spliceCall (evalExpr fuel scope)) heap =
    .ok (answer, heap')

/-- A pass over an expression ends, said of the visit of its root. -/
theorem quotePasses_iff {e : Expr} :
    QuotePasses scope e heap heap' ↔
      ∃ fuel v, (Node.expr e).visit (spliceCall (evalExpr fuel scope)) heap = .ok (v, heap') := by
  simp only [QuotePasses, Node.transformM_eq_visit, map_eq_pure_bind]
  constructor
  · rintro ⟨fuel, answer, hrun⟩
    obtain ⟨v, heap₁, hvisit, hanswer⟩ := bind_run_eq_ok hrun
    cases hanswer
    exact ⟨fuel, v, hvisit⟩
  · rintro ⟨fuel, v, hvisit⟩
    exact ⟨fuel, v.answer, bind_run hvisit⟩

/-! ### The two passes -/

section Pass

variable {eval : Expr → EvalM Value}

/-- A pass goes through a prefix operator to its operand. -/
theorem visit_spliceCall_unary (token : Token) (op : UnaryOp) (e : Expr) :
    (Node.expr (.unary token op e)).visit (spliceCall eval) = (do
      let v ← (Node.expr e).visit (spliceCall eval)
      return (Node.expr (.unary token op (v.expr e))).unchanged) := by
  have hnone (e : Expr) : spliceCall eval (.expr (.unary token op e)) =
      pure (.expr (.unary token op e)) :=
    spliceCall_of_none rfl
  rw [Node.visit_eq]
  simp [Node.children, Expr.children, Node.refill, Expr.refill, hnone, Node.unchanged]

/-- It goes through an infix operator to its operands, the left one
first. -/
theorem visit_spliceCall_binary (token : Token) (op : BinaryOp) (l r : Expr) :
    (Node.expr (.binary token op l r)).visit (spliceCall eval) = (do
      let v ← (Node.expr l).visit (spliceCall eval)
      let w ← (Node.expr r).visit (spliceCall eval)
      return (Node.expr (.binary token op (v.expr l) (w.expr r))).unchanged) := by
  have hnone (l r : Expr) : spliceCall eval (.expr (.binary token op l r)) =
      pure (.expr (.binary token op l r)) :=
    spliceCall_of_none rfl
  rw [Node.visit_eq]
  simp [Node.children, Expr.children, Node.refill, Expr.refill, hnone, Node.unchanged]

end Pass

/-- An expression fits in the place of an expression. -/
theorem Visit.answer_eq_expr {v : Visit} (h : v.answer.expr?.isSome) (e : Expr) :
    v.answer = .expr (v.expr e) := by
  obtain ⟨handed, answer⟩ := v
  cases answer with
  | expr answer => rfl
  | program p => cases h
  | stmt s => cases h
  | block b => cases h

namespace OperatorTree

/-- What the visits of `tree.quoted` and of `tree.named` come to: the
same tree of operators, with other operands. -/
def Agree (tree : OperatorTree) (v w : Visit) : Prop :=
  ∃ tree', tree.SameNames tree' ∧ v.expr tree.quoted = tree'.filled ∧
    w.expr tree.named = tree'.named ∧ v.answer.expr?.isSome = w.answer.expr?.isSome

/-- The two passes go alongside each other, when each name means its
integer where it is looked up. -/
theorem visits_alongside (fuel : Nat) {tree : OperatorTree}
    (hbound : tree.Bound scope (QuotePasses scope) heap) :
    Alongside heap ((Node.expr tree.quoted).visit (spliceCall (evalExpr (fuel + 1) scope)))
      ((Node.expr tree.named).visit (spliceCall (evalExpr (fuel + 1) scope))) tree.Agree := by
  induction tree generalizing heap with
  | splice call callee argument name n hcallee =>
      have hname (t : Token) (name : String) :
          (Node.expr (.ident t name)).visit (spliceCall (evalExpr (fuel + 1) scope)) heap =
            .ok ((Node.expr (.ident t name)).unchanged, heap) :=
        visit_spliceCall_of_none (by simp [Node.postorder_ident, unquotedArgument?]) heap
      have hvalue := evalExpr_of_lookup hbound fuel argument
      have hanswer : spliceCall (evalExpr (fuel + 1) scope)
          (.expr (.call call (.ident callee "unquote") [.ident argument name])) heap =
            .ok (.expr (.ofInt n call.span), heap) := by
        rw [spliceCall, unquotedArgument?_call (by exact hcallee)]
        refine (bind_run hvalue).trans ?_
        show (spliceValue (.int n) call.span >>= _) heap = _
        rw [spliceValue, spliceInt_eq]
        rfl
      -- The name in the call is visited first, and stays, so the call is still an unquote.
      have hparts : ∀ c ∈ (Node.expr (.call call (.ident callee "unquote")
          [.ident argument name])).children,
            c.visit (spliceCall (evalExpr (fuel + 1) scope)) heap = .ok (c.unchanged, heap) :=
        List.forall_mem_cons.mpr ⟨hname _ _, List.forall_mem_singleton.mpr (hname _ _)⟩
      exact .inr ⟨_, _, heap, Node.visit_of_unchanged hparts hanswer, hname _ _, _, .splice, rfl,
        rfl, rfl⟩
  | operand e => exact .same _ fun v => ⟨.operand (v.expr e), .operand, rfl, rfl, rfl⟩
  | unary token op tree ih =>
      rw [quoted, named, visit_spliceCall_unary, visit_spliceCall_unary]
      refine (ih hbound).bind fun v w _ _ hagree => .pure ?_
      obtain ⟨tree', hsame, hv, hw, _⟩ := hagree
      rw [hv, hw]
      exact ⟨.unary token op tree', .unary hsame, rfl, rfl, rfl⟩
  | binary token op left right ihleft ihright =>
      rw [quoted, named, visit_spliceCall_binary, visit_spliceCall_binary]
      refine (ihleft hbound.1).bind fun v w heap₁ hrun hagree => ?_
      obtain ⟨left', hleft, hv, hw, _⟩ := hagree
      -- To the right, names mean what they mean when the pass over the left is done.
      have hgoes := quotePasses_iff.mpr ⟨fuel + 1, w, hrun⟩
      refine (ihright (hbound.2 heap₁ hgoes)).bind fun v' w' _ _ hagree' => .pure ?_
      obtain ⟨right', hright, hv', hw', _⟩ := hagree'
      rw [hv, hw, hv', hw']
      exact ⟨.binary token op left' right', .binary hleft hright, rfl, rfl, rfl⟩

/-- What a quote holds is what the pass leaves. -/
theorem answers_quote_iff {t t' : Token} {e answer : Expr} {handle : Handle} {after : Heap} :
    Answers scope (.expr (.call t (.ident t' "quote") [e])) heap
        (some (.quote handle (.expr answer))) after ↔
      ∃ fuel v heap₁, (Node.expr e).visit (spliceCall (evalExpr (fuel + 1) scope)) heap =
        .ok (v, heap₁) ∧ v.answer = .expr answer ∧ handle = heap₁.newHandle.1 ∧
          after = heap₁.newHandle.2 := by
  constructor
  · intro h
    -- One level of fuel is for the call and one for the splices in it.
    obtain ⟨fuel, hrun, hfuel⟩ := (h.eventually.and (Filter.eventually_ge_atTop 2)).exists
    obtain ⟨fuel, rfl⟩ := Nat.exists_eq_add_of_le' hfuel
    rw [evalExpr_quote_eq, quoteNode_run_iff] at hrun
    obtain ⟨_, heap₁, ⟨v, hvisit, rfl⟩, hvalue, hafter⟩ := hrun
    obtain ⟨hhandle, hanswer⟩ := Value.quote.inj hvalue
    exact ⟨fuel, v, heap₁, hvisit, hanswer.symm, hhandle, hafter⟩
  · rintro ⟨fuel, v, heap₁, hvisit, hanswer, rfl, rfl⟩
    have hrun := evalExpr_quote_eq (fuel + 1) scope t t' e
    refine .of_evalExpr ((congrFun hrun heap).trans (quoteNode_run_iff.mpr ?_))
    exact ⟨_, heap₁, ⟨v, hvisit, hanswer⟩, rfl, rfl⟩

/-- With the names bound, both trees are quoted or neither is. If they
are, the quotes hold the same tree of operators. -/
theorem quotes_alongside {tree : OperatorTree}
    (hbound : tree.Bound scope (QuotePasses scope) heap) (t t' : Token) :
    (∀ handle e after, Answers scope (.expr (.call t (.ident t' "quote") [tree.quoted])) heap
        (some (.quote handle (.expr e))) after → ∃ tree', tree.SameNames tree' ∧
      e = tree'.filled ∧ Answers scope (.expr (.call t (.ident t' "quote") [tree.named])) heap
        (some (.quote handle (.expr tree'.named))) after) ∧
    (∀ handle e after, Answers scope (.expr (.call t (.ident t' "quote") [tree.named])) heap
        (some (.quote handle (.expr e))) after →
      ∃ e', Answers scope (.expr (.call t (.ident t' "quote") [tree.quoted])) heap
        (some (.quote handle (.expr e'))) after) := by
  constructor
  · intro handle e after h
    obtain ⟨fuel, v, heap₁, hvisit, hanswer, rfl, rfl⟩ := answers_quote_iff.mp h
    obtain ⟨stop, hstop, -⟩ | ⟨v', w, heap₂, hv, hw, tree', hsame, hfilled, hnamed, hexpr⟩ :=
      visits_alongside fuel hbound
    · cases hvisit.symm.trans hstop
    · cases hvisit.symm.trans hv
      -- An expression is quoted here, so the other pass leaves an expression too.
      have hv : v.answer.expr?.isSome := by rw [hanswer]; rfl
      have hnamed' := Visit.answer_eq_expr (hexpr ▸ hv) tree.named
      rw [hnamed] at hnamed'
      refine ⟨tree', hsame, ?_, answers_quote_iff.mpr ⟨fuel, w, heap₁, hw, hnamed', rfl, rfl⟩⟩
      have hfilled' := Visit.answer_eq_expr hv tree.quoted
      rw [hfilled, hanswer] at hfilled'
      exact Node.expr.inj hfilled'
  · intro handle e after h
    obtain ⟨fuel, w, heap₁, hvisit, hanswer, rfl, rfl⟩ := answers_quote_iff.mp h
    obtain ⟨stop, -, hstop⟩ | ⟨v, w', heap₂, hv, hw, tree', hsame, hfilled, hnamed, hexpr⟩ :=
      visits_alongside fuel hbound
    · cases hvisit.symm.trans hstop
    · cases hvisit.symm.trans hw
      have hw : w.answer.expr?.isSome := by rw [hanswer]; rfl
      have hquoted := Visit.answer_eq_expr (hexpr.symm ▸ hw) tree.quoted
      exact ⟨_, answers_quote_iff.mpr ⟨fuel, v, heap₁, hv, hquoted, rfl, rfl⟩⟩

/-! ### The trees that come out -/

/-- The operators around the trees of the integers mean what the
operators around the names do, when each name means its integer where
it is looked up. -/
theorem filled_answers_iff {tree : OperatorTree}
    (hbound : tree.Bound scope (fun e => Passes scope (.expr e)) heap) {v : Value} :
    Answers scope (.expr tree.filled) heap (some v) heap' ↔
      Answers scope (.expr tree.named) heap (some v) heap' := by
  induction tree generalizing heap heap' v with
  -- Where a splice stood there is a literal on one side and a bound name on the other.
  | splice call callee argument name n hcallee =>
      have hname : Answers scope (.expr (.ident argument name)) heap (some (.int n)) heap :=
        .of_evalExpr (evalExpr_of_lookup hbound 0 argument)
      have hint := (Expr.ofInt_form n call.span).answers scope heap
      exact hint.iff_of.trans hname.iff_of.symm
  | operand e => exact .rfl
  | unary token op tree ih => simp only [filled, named, answers_unary_iff, ih hbound]
  | binary token op left right ihleft ihright =>
      rw [filled, named, answers_binary_iff, answers_binary_iff]
      refine exists_congr fun a => exists_congr fun heap₁ => ?_
      rw [ihleft hbound.1]
      refine and_congr_right fun hleft => ?_
      split
      · exact .rfl
      · next ha =>
          -- The right operand is evaluated in the heap that the left one has left.
          have hright := hbound.2 heap₁ (passes_expr_iff.mpr ⟨a, hleft, Bool.eq_false_iff.mpr ha⟩)
          simp only [ihright hright]

/-! ### What the names mean at the start -/

/-- A name is dealt with in one heap, and operators are dealt with by
dealing with their operands. -/
structure Composes (goes : Expr → Heap → Heap → Prop) : Prop where
  ident {t : Token} {name : String} {heap heap' : Heap} :
    goes (.ident t name) heap heap' → heap' = heap
  unary {t : Token} {op : UnaryOp} {e : Expr} {heap heap' : Heap} :
    goes (.unary t op e) heap heap' → goes e heap heap'
  binary {t : Token} {op : BinaryOp} {l r : Expr} {heap heap' : Heap} :
    goes (.binary t op l r) heap heap' → ∃ heap₁, goes l heap heap₁ ∧ goes r heap₁ heap'

section Kept

variable {goes : Expr → Heap → Heap → Prop} (hgoes : Composes goes)

include hgoes

/-- Operators change what names mean only if an operand does. -/
theorem lookup_of_kept {tree : OperatorTree}
    (hkept : tree.Kept scope goes)
    (h : goes tree.named heap heap') (name : String) :
    heap'.lookup scope name = heap.lookup scope name := by
  induction tree generalizing heap heap' with
  | splice call callee argument name' n hcallee => rw [hgoes.ident h]
  | operand e => exact hkept e (List.mem_singleton_self e) heap heap' h name
  | unary token op tree ih => exact ih hkept (hgoes.unary h)
  | binary token op left right ihleft ihright =>
      obtain ⟨heap₁, hleft, hright⟩ := hgoes.binary h
      obtain ⟨hkeptleft, hkeptright⟩ := List.forall_mem_append.mp hkept
      exact (ihright hkeptright hright).trans (ihleft hkeptleft hleft)

omit hgoes in
/-- What a tree means depends on the bindings of its names only. -/
theorem Means.of_lookup {tree : OperatorTree} (h : tree.Means scope heap)
    (hlookup : ∀ name, heap'.lookup scope name = heap.lookup scope name) :
    tree.Means scope heap' := by
  induction tree with
  | splice call callee argument name n hcallee => exact (hlookup name).trans h
  | operand e => exact h
  | unary token op tree ih => exact ih h
  | binary token op left right ihleft ihright => exact ⟨ihleft h.1, ihright h.2⟩

/-- If no operand changes what names mean, it is enough that they mean
their integers at the start. -/
theorem Means.bound {tree : OperatorTree} (h : tree.Means scope heap)
    (hkept : tree.Kept scope goes) :
    tree.Bound scope goes heap := by
  induction tree generalizing heap with
  | splice call callee argument name n hcallee => exact h
  | operand e => trivial
  | unary token op tree ih => exact ih h hkept
  | binary token op left right ihleft ihright =>
      obtain ⟨hkeptleft, hkeptright⟩ := List.forall_mem_append.mp hkept
      refine ⟨ihleft h.1 hkeptleft, fun heap' hgo => ihright ?_ hkeptright⟩
      exact h.2.of_lookup (lookup_of_kept hgoes hkeptleft hgo)

end Kept

/-- Looking a name up leaves the heap alone. -/
theorem evalName_run {name : String} {v : Value} (h : evalName scope name heap = .ok (v, heap')) :
    heap' = heap := by
  obtain ⟨found, heap₁, hlookup, hrest⟩ := bind_run_eq_ok h
  cases hlookup
  cases hfound : heap.lookup scope name with
  | some v =>
      rw [hfound] at hrest
      cases hrest
      rfl
  | none =>
      rw [hfound] at hrest
      cases hnative : Native.ofName? name <;> rw [hnative] at hrest <;> cases hrest <;> rfl

/-- An operator lets evaluation pass if its operands do, one after the
other. -/
theorem composes_passes (scope : ScopeId) : Composes fun e => Passes scope (.expr e) where
  ident h := by
    obtain ⟨w, h, -⟩ := passes_expr_iff.mp h
    obtain ⟨fuel, hrun⟩ := answers_expr_iff.mp h
    exact evalName_run hrun
  unary h := by
    obtain ⟨w, h, hw⟩ := passes_expr_iff.mp h
    obtain ⟨u, hu, rfl⟩ := answers_unary_iff.mp h
    cases hclean : u.isUnwinding with
    | false => exact passes_expr_iff.mpr ⟨u, hu, hclean⟩
    | true =>
        rw [if_pos hclean, hclean] at hw
        cases hw
  binary {_ op _ _ _ _} h := by
    obtain ⟨w, h, hw⟩ := passes_expr_iff.mp h
    obtain ⟨a, heap₁, hl, hrest⟩ := answers_binary_iff.mp h
    split at hrest
    · next ha =>
        obtain ⟨rfl, rfl⟩ := hrest
        cases hw.symm.trans ha
    · next ha =>
        obtain ⟨b, heap₂, hr, hrest⟩ := hrest
        split at hrest
        · next hb =>
            obtain ⟨rfl, rfl⟩ := hrest
            cases hw.symm.trans hb
        · next hb =>
            -- Between the two values nothing happens to the heap.
            obtain ⟨u, -, happly⟩ := applyBinary_plain op a b
            rw [happly] at hrest
            cases hrest
            exact ⟨heap₁, passes_expr_iff.mpr ⟨a, hl, Bool.eq_false_iff.mpr ha⟩,
              passes_expr_iff.mpr ⟨b, hr, Bool.eq_false_iff.mpr hb⟩⟩

/-- So does a quote's pass over one. -/
theorem composes_quotePasses (scope : ScopeId) : Composes (QuotePasses scope) where
  ident h := by
    obtain ⟨fuel, v, hrun⟩ := quotePasses_iff.mp h
    -- A name is not a call, so there is nothing to splice.
    rw [visit_spliceCall_of_none (by rw [Node.postorder_ident]; simp [unquotedArgument?])] at hrun
    cases hrun
    rfl
  unary h := by
    obtain ⟨fuel, v, hrun⟩ := quotePasses_iff.mp h
    rw [visit_spliceCall_unary] at hrun
    obtain ⟨w, heap₁, hrun, hrest⟩ := bind_run_eq_ok hrun
    cases hrest
    exact quotePasses_iff.mpr ⟨fuel, w, hrun⟩
  binary h := by
    obtain ⟨fuel, v, hrun⟩ := quotePasses_iff.mp h
    rw [visit_spliceCall_binary] at hrun
    obtain ⟨w, heap₁, hl, hrun⟩ := bind_run_eq_ok hrun
    obtain ⟨w', heap₂, hr, hrest⟩ := bind_run_eq_ok hrun
    cases hrest
    exact ⟨heap₁, quotePasses_iff.mpr ⟨fuel, w, hl⟩, quotePasses_iff.mpr ⟨fuel, w', hr⟩⟩

end OperatorTree

/-! ### Integers that are spliced -/

/-- What is spliced for an integer is a tree that means the integer, in
every scope and in every heap. No literal in it is negative, all of it is
placed where the call stood, and its text is parsed as the same tree.

So it makes no difference to operators around a name whether the name is
spliced, as long as it means an integer when it is looked up: if the
operators around `unquote(x)` are quoted, so are the operators around
`x`, and the other way round, with the same heap left. The other operands
are the same in both quotes, and the two trees that are quoted answer the
same in every scope in which the names mean their integers again.

For that it is enough that the names mean their integers at the start,
if no other operand changes what names mean. -/
theorem integer_splices_keep_value :
    (∀ (n : Int64) (span : Span),
      (∀ heap, spliceValue (.int n) span heap = .ok (some (.expr (.ofInt n span)), heap)) ∧
      (∀ scope heap, Answers scope (.expr (.ofInt n span)) heap (some (.int n)) heap) ∧
      (∀ t m, .expr (.int t m) ∈ (Node.expr (.ofInt n span)).postorder → 0 ≤ m) ∧
      (∀ t ∈ (Expr.ofInt n span).tokens, t.span = span) ∧
      (Expr.ofInt n span).ReadFrom (Expr.ofInt n span).render) ∧
    (∀ (tree : OperatorTree) (scope : ScopeId) (heap : Heap) (t t' : Token),
      tree.Bound scope (QuotePasses scope) heap →
        (∀ handle e after, Answers scope (.expr (.call t (.ident t' "quote") [tree.quoted])) heap
            (some (.quote handle (.expr e))) after →
          ∃ tree', tree.SameNames tree' ∧ e = tree'.filled ∧
            Answers scope (.expr (.call t (.ident t' "quote") [tree.named])) heap
              (some (.quote handle (.expr tree'.named))) after ∧
            ∀ scope' heap', tree'.Bound scope' (fun e => Passes scope' (.expr e)) heap' →
              ∀ v after', Answers scope' (.expr e) heap' (some v) after' ↔
                Answers scope' (.expr tree'.named) heap' (some v) after') ∧
        (∀ handle e after, Answers scope (.expr (.call t (.ident t' "quote") [tree.named])) heap
            (some (.quote handle (.expr e))) after →
          ∃ e', Answers scope (.expr (.call t (.ident t' "quote") [tree.quoted])) heap
            (some (.quote handle (.expr e'))) after)) ∧
    (∀ (tree : OperatorTree) (scope : ScopeId) (heap : Heap), tree.Means scope heap →
      (tree.Kept scope (QuotePasses scope) → tree.Bound scope (QuotePasses scope) heap) ∧
      (tree.Kept scope (fun e => Passes scope (.expr e)) →
        tree.Bound scope (fun e => Passes scope (.expr e)) heap)) := by
  refine ⟨fun n span => ?tree, fun tree scope heap t t' hbound => ?operators,
    fun tree scope heap hmeans => ⟨fun hkept => ?quote, fun hkept => ?value⟩⟩
  case tree =>
    have hform := Expr.ofInt_form n span
    refine ⟨fun heap => ?_, hform.answers, fun t m => hform.nonneg_of_mem_postorder, hform.tokens,
      Expr.reads_back hform.wellFormed⟩
    rw [spliceValue, spliceInt_eq]
    rfl
  case operators =>
    obtain ⟨hquoted, hnamed⟩ := OperatorTree.quotes_alongside hbound t t'
    refine ⟨fun handle e after h => ?_, hnamed⟩
    obtain ⟨tree', hsame, rfl, h'⟩ := hquoted handle e after h
    -- The names of the spliced tree are those of the tree that was written.
    exact ⟨tree', hsame, rfl, h', fun _ _ hbound' _ _ => OperatorTree.filled_answers_iff hbound'⟩
  case quote => exact hmeans.bound (OperatorTree.composes_quotePasses scope) hkept
  case value => exact hmeans.bound (OperatorTree.composes_passes scope) hkept

/-- The expression `quote((-unquote(x)) - 1)`, where `x` is bound to the
smallest integer. -/
theorem integer_splices_keep_value_smallest :
    let t : Token := .fixed .leftParen {}
    let x : OperatorTree := .splice t ⟨.ident, "unquote", {}⟩ t "x" Int64.minValue rfl
    let tree : OperatorTree := .binary t .subtract (.unary t .negate x) (.operand (.mkInt 1))
    let heap : Heap := (({} : Heap).newScope none).2.bind ⟨0⟩ "x" (.int Int64.minValue)
    tree.Bound ⟨0⟩ (QuotePasses ⟨0⟩) heap ∧
      Answers ⟨0⟩ (.expr (.call t (.ident t "quote") [tree.quoted])) heap
        (some (.quote ⟨0⟩ (.expr tree.filled))) heap.newHandle.2 ∧
      tree.filled.render = "((-((-9223372036854775807) - 1)) - 1)" ∧
      Answers ⟨0⟩ (.expr tree.filled) heap (some (.int Int64.maxValue)) heap := by
  intro t x tree heap
  have hbound : tree.Bound ⟨0⟩ (QuotePasses ⟨0⟩) heap := ⟨rfl, fun _ _ => trivial⟩
  have hquote : Answers ⟨0⟩ (.expr (.call t (.ident t "quote") [tree.quoted])) heap
      (some (.quote ⟨0⟩ (.expr tree.filled))) heap.newHandle.2 := ⟨3, rfl⟩
  refine ⟨hbound, hquote, by decide +kernel, ?_⟩
  obtain ⟨-, hoperators, -⟩ := integer_splices_keep_value
  obtain ⟨tree', hsame, hfilled, -, hiff⟩ := (hoperators tree ⟨0⟩ heap t t hbound).1 _ _ _ hquote
  -- The other tree has the same name in it, and the same operand.
  change (OperatorTree.binary _ _ (.unary _ _ (.splice _ _ _ _ _ _)) (.operand _)).SameNames _
    at hsame
  obtain _ | _ | _ | ⟨_ | _ | ⟨hx⟩, hright⟩ := hsame
  cases hx
  cases hright
  obtain ⟨-, -, -, rfl⟩ := Expr.binary.inj hfilled
  exact (hiff ⟨0⟩ heap ⟨rfl, fun _ _ => trivial⟩ _ _).mpr ⟨3, rfl⟩

end QuoteScript
