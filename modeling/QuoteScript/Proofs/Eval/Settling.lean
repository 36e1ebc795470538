import QuoteScript.Proofs.Eval.Nesting
import QuoteScript.Proofs.Value.FunctionFree

/-!
# `QuoteScript.Proofs.Eval.Settling`: evaluation without functions

Where no function is written and none can be seen, an evaluation never
enters a body. So it goes down the tree, part by part, and the only thing
it may have to wait for is an argument that is spliced.

That a node *settles* says two things at once: with enough fuel it is
evaluated, and no function comes out of it. The second is needed for the
parts behind it, and for what is evaluated from a quote.

A part is only looked at in the heap in which the evaluation gets to it.
So the lemmas on lists are told which parts stand in front, and how these
have been evaluated.

* `Finishes`: the rules for computations with enough fuel.
* `Settles`, `PartsSettle`, `SplicesSettle`: a node, its parts, and what
  is spliced in it.
* `evalAll_finishes`, `evalPairs_finishes`, `evalBody_finishes`,
  `mapM_visit_finishes`: parts in a row.
* `visit_finishes`: a pass, by induction on the quoted tree.
* `PartsSettle.expr`, `PartsSettle.stmt`, `PartsSettle.block`,
  `PartsSettle.program`: one level of evaluation.
* `settles_of_splices`: evaluation, by induction on the tree.
* `settles_of_acc`: the arguments as well, by induction on what an
  evaluation waits for.
-/

set_option autoImplicit false

namespace QuoteScript

open EvalM

variable {scope : ScopeId} {heap heap' heap₁ heap₂ : Heap} {node part t c : Node} {arg : Expr}

/-! ### Computations with enough fuel -/

section Finishes

variable {α β : Type}

/-- With every large amount of fuel `x` ends in the same way, and the
answer and the heap have the property `Q`. -/
def Finishes (x : Nat → EvalM α) (heap : Heap) (Q : α → Heap → Prop) : Prop :=
  ∃ a heap', (∀ᶠ fuel in Filter.atTop, x fuel heap = .ok (a, heap')) ∧ Q a heap'

namespace Finishes

variable {x : Nat → EvalM α} {P : α → Heap → Prop} {Q : β → Heap → Prop}

/-- An answer that is there. -/
theorem pure {a : α} (h : P a heap) : Finishes (fun _ => Pure.pure a) heap P :=
  ⟨a, heap, .of_forall fun _ => rfl, h⟩

/-- Two computations in sequence: enough fuel for both is enough. -/
theorem bind {next : Nat → α → EvalM β} (hx : Finishes x heap P)
    (hnext : ∀ a heap₁, P a heap₁ → Finishes (fun fuel => next fuel a) heap₁ Q) :
    Finishes (fun fuel => x fuel >>= next fuel) heap Q := by
  obtain ⟨a, heap₁, hrun, hP⟩ := hx
  obtain ⟨b, heap₂, hrest, hQ⟩ := hnext a heap₁ hP
  refine ⟨b, heap₂, ?_, hQ⟩
  filter_upwards [hrun, hrest] with fuel hrun hrest
  exact (bind_run hrun).trans hrest

end Finishes

end Finishes

/-- A value without functions, and a scope in which none is bound. -/
def Harmless (scope : ScopeId) (v : Value) (heap : Heap) : Prop :=
  v.FunctionFree ∧ heap.FunctionFree scope

/-- The same for what may have no value. -/
def OptionHarmless (scope : ScopeId) (v : Option Value) (heap : Heap) : Prop :=
  (∀ w ∈ v, w.FunctionFree) ∧ heap.FunctionFree scope

/-- A node is evaluated, and no function comes out of it. -/
def Settles (scope : ScopeId) (node : Node) (heap : Heap) : Prop :=
  Finishes (fun fuel => evalPart fuel scope node) heap fun v heap' =>
    Answers scope node heap v heap' ∧ OptionHarmless scope v heap'

/-- Every part of a node settles in a heap in which the evaluation gets
to it. -/
def PartsSettle (scope : ScopeId) (node : Node) (heap : Heap) : Prop :=
  ∀ part heap₁, Enters scope node heap part heap₁ → heap₁.FunctionFree scope →
    Settles scope part heap₁

/-- Every argument settles that is evaluated in the pass over a tree. -/
def PassSettles (scope : ScopeId) (t : Node) (heap : Heap) : Prop :=
  ∀ arg heap₁, PassGetsTo scope t heap arg heap₁ → (Node.expr arg).LambdaFree →
    heap₁.FunctionFree scope → Settles scope (.expr arg) heap₁

/-- Every argument settles that is spliced in the evaluation of a node,
and not inside another one. -/
def SplicesSettle (scope : ScopeId) (node : Node) (heap : Heap) : Prop :=
  ∀ arg heap₁, Splices scope node heap arg heap₁ → (Node.expr arg).LambdaFree →
    heap₁.FunctionFree scope → Settles scope (.expr arg) heap₁

/-- A node settles if its evaluation ends so. -/
theorem Settles.of_finishes
    (h : Finishes (fun fuel => evalPart fuel scope node) heap (OptionHarmless scope)) :
    Settles scope node heap := by
  obtain ⟨v, heap', hrun, hv⟩ := h
  exact ⟨v, heap', hrun, (evalPart_steady scope node).ends_iff.mpr hrun, hv⟩

/-- An expression settles if one level of evaluation ends so. -/
theorem Settles.of_evalWith {e : Expr}
    (h : Finishes (fun fuel => evalWith (evalExpr fuel) scope e) heap (Harmless scope)) :
    Settles scope (.expr e) heap := by
  obtain ⟨v, heap', hrun, hv, hheap⟩ := h
  have hanswers := Answers.of_evalWith hrun
  refine .of_finishes ⟨some v, heap', (evalPart_steady scope _).ends_iff.mp hanswers, ?_, hheap⟩
  exact fun w hw => Option.some.inj hw ▸ hv

/-- What is known when an expression has been evaluated. -/
theorem Settles.expr {e : Expr} (h : Settles scope (.expr e) heap) :
    Finishes (fun fuel => evalExpr fuel scope e) heap fun v heap' =>
      Answers scope (.expr e) heap (some v) heap' ∧ Harmless scope v heap' := by
  obtain ⟨o, heap', -, ⟨fuel, hpart⟩, hvalue, hheap⟩ := h
  obtain ⟨v, rfl, hrun⟩ := evalPart_expr_iff.mp hpart
  have hanswers : Answers scope (.expr e) heap (some v) heap' := .of_evalExpr hrun
  exact ⟨v, heap', hanswers.eventually, hanswers, hvalue v rfl, hheap⟩

/-- What unwinds is the value of the whole. -/
theorem Settles.unlessUnwinding {e : Expr} {next : Nat → Value → EvalM Value}
    (h : Settles scope (.expr e) heap)
    (hnext : ∀ v heap₁, Answers scope (.expr e) heap (some v) heap₁ → v.isUnwinding = false →
      Harmless scope v heap₁ → Finishes (fun fuel => next fuel v) heap₁ (Harmless scope)) :
    Finishes (fun fuel => unlessUnwinding (evalExpr fuel scope e) (next fuel)) heap
      (Harmless scope) := by
  refine Finishes.bind h.expr fun v heap₁ ⟨hanswers, hv⟩ => ?_
  cases hunwinding : v.isUnwinding with
  | true => exact .pure hv
  | false => exact hnext v heap₁ hanswers hunwinding hv

/-- What is done without fuel. -/
theorem EndsFunctionFree.finishes {x : EvalM Value} (h : EndsFunctionFree x)
    (hheap : heap.FunctionFree scope) : Finishes (fun _ => x) heap (Harmless scope) := by
  obtain ⟨v, heap', hrun, hv, hheap'⟩ := h heap scope hheap
  exact ⟨v, heap', .of_forall fun _ => hrun, hv, hheap'⟩

/-! ### Lists -/

/-- Expressions in a row are evaluated if each one is, as soon as the
evaluation gets to it. -/
theorem evalAll_finishes {es : List Expr} (hheap : heap.FunctionFree scope)
    (hparts : ∀ before e behind heap₁, es = before ++ e :: behind →
      PassesAll scope (before.map .expr) heap heap₁ → heap₁.FunctionFree scope →
        Settles scope (.expr e) heap₁) :
    Finishes (fun fuel => evalAll (evalExpr fuel scope) es) heap fun r heap' =>
      heap'.FunctionFree scope ∧ (∀ values, r = .ok values → ∀ v ∈ values, v.FunctionFree) ∧
        ∀ v, r = .error v → v.FunctionFree := by
  induction es generalizing heap with
  | nil => exact .pure ⟨hheap, fun _ hr => by cases hr; exact nofun, nofun⟩
  | cons e rest ih =>
      have hfirst := (hparts [] e rest heap rfl .nil hheap).expr
      refine Finishes.bind hfirst fun v heap₁ ⟨hanswers, hv, hheap₁⟩ => ?_
      cases hunwinding : v.isUnwinding with
      | true => exact .pure ⟨hheap₁, nofun, fun w hw => Except.error.inj hw ▸ hv⟩
      | false =>
          -- For the expressions behind it, the first one is one more that stands in front.
          have hpasses : Passes scope (.expr e) heap heap₁ := ⟨some v, hanswers, hunwinding⟩
          have hrest := ih hheap₁ fun before e' behind heap₂ heq hbefore =>
            hparts (e :: before) e' behind heap₂ (congrArg (e :: ·) heq) (.cons hpasses hbefore)
          refine Finishes.bind hrest fun r heap₂ ⟨hheap₂, hok, herror⟩ => ?_
          cases r with
          | ok values =>
              refine .pure ⟨hheap₂, fun all hall => ?_, nofun⟩
              cases hall
              exact List.forall_mem_cons.mpr ⟨hv, hok values rfl⟩
          | error u =>
              exact .pure ⟨hheap₂, nofun, fun w hw => Except.error.inj hw ▸ herror u rfl⟩

/-- The same for the pairs of a dict. -/
theorem evalPairs_finishes {pairs : List (Expr × Expr)} {entries : List (Key × Value)}
    (hheap : heap.FunctionFree scope) (hentries : ∀ entry ∈ entries, entry.2.FunctionFree)
    (hkeys : ∀ before k v behind heap₁, pairs = before ++ (k, v) :: behind →
      PairsPass scope before heap heap₁ → heap₁.FunctionFree scope → Settles scope (.expr k) heap₁)
    (hvalues : ∀ before k v behind heap₁ heap₂, pairs = before ++ (k, v) :: behind →
      PairsPass scope before heap heap₁ → KeyPasses scope k heap₁ heap₂ →
        heap₂.FunctionFree scope → Settles scope (.expr v) heap₂) :
    Finishes (fun fuel => evalPairs (evalExpr fuel scope) entries pairs) heap
      (Harmless scope) := by
  induction pairs generalizing heap entries with
  | nil => exact (EndsFunctionFree.newDict hentries).finishes hheap
  | cons pair rest ih =>
      obtain ⟨k, v⟩ := pair
      refine (hkeys [] k v rest heap rfl .nil hheap).unlessUnwinding ?_
      intro u heap₁ hanswers _ ⟨_, hheap₁⟩
      cases hkey : u.key? with
      | none => exact .pure ⟨.plain (.fault _), hheap₁⟩
      | some key =>
          rw [Value.key?_eq_some_iff.mp hkey] at hanswers
          have hpasses : KeyPasses scope k heap heap₁ := ⟨key, hanswers⟩
          refine (hvalues [] k v rest heap heap₁ rfl .nil hpasses hheap₁).unlessUnwinding ?_
          intro w heap₂ hvalue hunwinding ⟨hw, hheap₂⟩
          have hpair {before : List (Expr × Expr)} {heap₃ : Heap}
              (hbefore : PairsPass scope before heap₂ heap₃) :
              PairsPass scope ((k, v) :: before) heap heap₃ :=
            .cons hpasses ⟨some w, hvalue, hunwinding⟩ hbefore
          -- The pairs that are left start where this one has passed.
          refine ih hheap₂ (fun entry hentry => ?_) ?_ ?_
          · rcases mem_putEntry hentry with rfl | hold
            · exact hw
            · exact hentries entry hold
          · exact fun before k' v' behind heap₃ heq hbefore =>
              hkeys ((k, v) :: before) k' v' behind heap₃ (congrArg (_ :: ·) heq) (hpair hbefore)
          · exact fun before k' v' behind heap₃ heap₄ heq hbefore =>
              hvalues ((k, v) :: before) k' v' behind heap₃ heap₄ (congrArg (_ :: ·) heq)
                (hpair hbefore)

/-- The same for statements. -/
theorem evalBody_finishes {body : List Stmt} {last : Option Value}
    (hlast : OptionHarmless scope last heap)
    (hparts : ∀ before s behind heap₁, body = before ++ s :: behind →
      PassesAll scope (before.map .stmt) heap heap₁ → heap₁.FunctionFree scope →
        Settles scope (.stmt s) heap₁) :
    Finishes (fun fuel => evalBody (evalExpr fuel) scope last body) heap
      (OptionHarmless scope) := by
  induction body generalizing heap last with
  | nil => exact .pure hlast
  | cons s rest ih =>
      refine Finishes.bind (hparts [] s rest heap rfl .nil hlast.2) ?_
      intro v heap₁ ⟨hanswers, hv⟩
      cases hunwinds : unwinds v with
      | true => exact .pure hv
      | false =>
          have hpasses : Passes scope (.stmt s) heap heap₁ := ⟨v, hanswers, hunwinds⟩
          -- What comes in front of a later statement is this one and those in between.
          exact ih hv fun before s' behind heap₂ heq hbefore =>
            hparts (s :: before) s' behind heap₂ (congrArg (s :: ·) heq) (.cons hpasses hbefore)

/-! ### Passes -/

/-- What is left by a visit of a node in a tree without lambdas. -/
structure Visit.Harmless (t : Node) (v : Visit) : Prop extends v.FitsIn t where
  lambdaFree : v.answer.LambdaFree

/-- The parts that a harmless pass answers with have no functions in
them. -/
theorem answers_lambdaFree {ts : List Node} {visits : List Visit}
    (h : List.Forall₂ Visit.Harmless ts visits) : ∀ v ∈ visits, v.answer.LambdaFree := by
  induction h with
  | nil => nofun
  | cons hv _ ih => exact List.forall_mem_cons.mpr ⟨hv.lambdaFree, ih⟩

/-- Nodes in a row are visited if each one is, as soon as the pass gets
to it. -/
theorem mapM_visit_finishes {ts : List Node} (hheap : heap.FunctionFree scope)
    (hparts : ∀ before c behind visits heap₁, ts = before ++ c :: behind →
      Visited scope before heap visits heap₁ → heap₁.FunctionFree scope →
        Finishes (fun fuel => c.visit (spliceCall (evalExpr fuel scope))) heap₁ fun v heap' =>
          v.Harmless c ∧ heap'.FunctionFree scope) :
    Finishes (fun fuel => ts.mapM (Node.visit (spliceCall (evalExpr fuel scope)))) heap
      fun visits heap' => Visited scope ts heap visits heap' ∧
        List.Forall₂ Visit.Harmless ts visits ∧ heap'.FunctionFree scope := by
  induction ts generalizing heap with
  | nil => exact .pure ⟨⟨0, rfl⟩, .nil, hheap⟩
  | cons t ts ih =>
      obtain ⟨v, heap₁, hrun, hv, hheap₁⟩ := hparts [] t ts [] heap rfl ⟨0, rfl⟩ hheap
      -- The visit of the first tree and those of the others end with the same fuel.
      have hcons {ts : List Node} {visits : List Visit} {heap₂ : Heap}
          (hrest : Visited scope ts heap₁ visits heap₂) :
          Visited scope (t :: ts) heap (v :: visits) heap₂ := by
        obtain ⟨fuel, hrun, hrest⟩ :=
          (hrun.and ((mapM_visit_steady scope ts).ends_iff.mp hrest)).exists
        refine ⟨fuel, ?_⟩
        dsimp only
        rw [List.mapM_cons]
        exact (bind_run hrun).trans (bind_run hrest)
      obtain ⟨visits, heap₂, -, hvisited, hvisits, hheap₂⟩ :=
        ih hheap₁ fun before c behind visits heap₂ heq hbefore =>
          hparts (t :: before) c behind (v :: visits) heap₂ (congrArg (t :: ·) heq)
            (hcons hbefore)
      have hall := hcons hvisited
      exact ⟨v :: visits, heap₂, (mapM_visit_steady scope _).ends_iff.mp hall, hall,
        .cons hv hvisits, hheap₂⟩

/-- What is handed to the transform is left, or replaced by something
that fits, and no lambda comes in. -/
theorem spliceCall_finishes (ht : t.LambdaFree) (hheap : heap.FunctionFree scope)
    (hsettles : ∀ span arg, unquotedArgument? t = some (span, arg) →
      Settles scope (.expr arg) heap) :
    Finishes (fun fuel => spliceCall (evalExpr fuel scope) t) heap fun answer heap' =>
      (t.Fits answer ∧ answer.LambdaFree) ∧ heap'.FunctionFree scope := by
  unfold spliceCall
  cases hcall : unquotedArgument? t with
  | none => exact .pure ⟨⟨.refl t, ht⟩, hheap⟩
  | some call =>
      obtain ⟨span, arg⟩ := call
      refine Finishes.bind (hsettles span arg hcall).expr fun v heap₁ ⟨_, hv, hheap₁⟩ => ?_
      obtain ⟨o, hspliced, ho⟩ := spliceValue_functionFree hv.unwrapReturn span
      rw [hspliced]
      refine .pure ⟨?_, hheap₁⟩
      cases o with
      | none => exact ⟨.refl t, ht⟩
      | some e =>
          -- A call is no name, so any expression fits in its place.
          obtain ⟨token, callee, arg', rfl, -⟩ := unquotedArgument?_isSome (by rw [hcall]; rfl)
          exact ⟨.expr rfl e, ho e rfl⟩

/-- The pass over a tree without lambdas ends if every argument that is
evaluated in it settles. -/
theorem visit_finishes (ht : t.LambdaFree) (hheap : heap.FunctionFree scope)
    (hsplices : PassSettles scope t heap) :
    Finishes (fun fuel => t.visit (spliceCall (evalExpr fuel scope))) heap fun v heap' =>
      v.Harmless t ∧ heap'.FunctionFree scope := by
  induction t using Node.induction generalizing heap with
  | step t ih =>
      have hparts (before : List Node) (c : Node) (behind : List Node) (visits : List Visit)
          (heap₁ : Heap) (heq : t.children = before ++ c :: behind)
          (hbefore : Visited scope before heap visits heap₁)
          (hheap₁ : heap₁.FunctionFree scope) :
          Finishes (fun fuel => c.visit (spliceCall (evalExpr fuel scope))) heap₁ fun v heap' =>
            v.Harmless c ∧ heap'.FunctionFree scope := by
        have hc : c ∈ t.children := by
          rw [heq]
          exact List.mem_append_right before List.mem_cons_self
        exact ih c hc (ht.child hc) hheap₁ fun arg heap₂ hgets =>
          hsplices arg heap₂ (.child heq hbefore hgets)
      simp only [Node.visit_eq]
      refine Finishes.bind (mapM_visit_finishes hheap hparts) ?_
      intro visits heap₁ ⟨hvisited, hharmless, hheap₁⟩
      have hfits : List.Forall₂ Visit.FitsIn t.children visits :=
        hharmless.imp fun _ _ hv => hv.toFitsIn
      have hfree : (t.refill visits).LambdaFree :=
        Node.lambdaFree_refill ht (fitAll_of_fitsIn hfits) (answers_lambdaFree hharmless)
      -- The refilled node may be a splice: this is where the pass evaluates something.
      have hsettles (span : Span) (arg : Expr)
          (hcall : unquotedArgument? (t.refill visits) = some (span, arg)) :
          Settles scope (.expr arg) heap₁ :=
        hsplices arg heap₁ (.here hvisited hcall)
          (hfree.child (Node.mem_children_of_unquotedArgument? hcall)) hheap₁
      refine Finishes.bind (spliceCall_finishes hfree hheap₁ hsettles) ?_
      intro answer heap₂ ⟨⟨hanswer, hlambda⟩, hheap₂⟩
      exact .pure ⟨⟨⟨t.fits_refill visits, hanswer⟩, hlambda⟩, hheap₂⟩

/-- A call that quotes has one argument, and the name `quote` in
front. -/
theorem eq_of_quotedArgument? {f e : Expr} {args : List Expr}
    (h : quotedArgument? f args = some e) : ∃ t, f = .ident t "quote" ∧ args = [e] := by
  unfold quotedArgument? at h
  split at h
  · split at h
    · next t _ _ hname =>
        cases h
        exact ⟨t, congrArg _ hname, rfl⟩
    · cases h
  · cases h

/-- A quote is made if every argument that is evaluated for it
settles. -/
theorem quoteNode_finishes {e : Expr} (he : (Node.expr e).LambdaFree)
    (hheap : heap.FunctionFree scope) (hsplices : PassSettles scope (.expr e) heap) :
    Finishes (fun fuel => quoteNode (evalExpr fuel scope) (.expr e)) heap (Harmless scope) := by
  obtain ⟨v, heap', hrun, hv, hheap'⟩ := visit_finishes he hheap hsplices
  obtain ⟨e', he'⟩ := (hv.handed.trans hv.answer).eq_expr
  have hquote : Harmless scope (.quote heap'.newHandle.1 (.expr e')) heap'.newHandle.2 :=
    ⟨.quote (he' ▸ hv.lambdaFree), hheap'.newHandle⟩
  refine ⟨_, _, ?_, hquote⟩
  filter_upwards [hrun] with fuel hrun
  exact quoteNode_run_iff.mpr ⟨_, heap', ⟨v, hrun, he'⟩, rfl, rfl⟩

/-! ### One level of evaluation -/

namespace PartsSettle

variable (hheap : heap.FunctionFree scope)

include hheap

/-- A statement settles if its value does. -/
theorem stmt {s : Stmt} (hparts : PartsSettle scope (.stmt s) heap) :
    Settles scope (.stmt s) heap := by
  refine .of_finishes ?_
  cases s with
  | letIn t name e =>
      refine Finishes.bind (hparts _ heap .letIn hheap).expr fun v heap₁ ⟨_, hv, hheap₁⟩ => ?_
      cases v.isUnwinding with
      | true => exact .pure ⟨fun w hw => Option.some.inj hw ▸ hv, hheap₁⟩
      -- Binding takes no fuel, and the bound value has no functions in it.
      | false => exact ⟨none, _, .of_forall fun _ => rfl, nofun, hheap₁.bind name hv⟩
  | ret t e =>
      refine Finishes.bind (hparts _ heap .ret hheap).expr fun v heap₁ ⟨_, hv, hheap₁⟩ => ?_
      cases v.isUnwinding with
      | true => exact .pure ⟨fun w hw => Option.some.inj hw ▸ hv, hheap₁⟩
      | false => exact .pure ⟨fun w hw => Option.some.inj hw ▸ .returned hv, hheap₁⟩
  | expr t e =>
      refine Finishes.bind (hparts _ heap .expr hheap).expr fun v heap₁ ⟨_, hv, hheap₁⟩ => ?_
      exact .pure ⟨fun w hw => Option.some.inj hw ▸ hv, hheap₁⟩

/-- A block settles if its statements do. -/
theorem block {b : Block} (hparts : PartsSettle scope (.block b) heap) :
    Settles scope (.block b) heap := by
  obtain ⟨t, body⟩ := b
  refine .of_finishes (evalBody_finishes ⟨nofun, hheap⟩ ?_)
  rintro before s behind heap₁ rfl hbefore
  exact hparts _ heap₁ (.block hbefore)

/-- So does a program. -/
theorem program {p : Program} (hparts : PartsSettle scope (.program p) heap) :
    Settles scope (.program p) heap := by
  refine .of_finishes (Finishes.bind (evalBody_finishes ⟨nofun, hheap⟩ ?_) ?_)
  · rintro before s behind heap₁ rfl hbefore
    exact hparts _ heap₁ (.program hbefore)
  · refine fun v heap₁ ⟨hv, hheap₁⟩ => .pure ⟨fun w hw => ?_, hheap₁⟩
    obtain ⟨u, hu, rfl⟩ := Option.map_eq_some_iff.mp hw
    exact (hv u hu).unwrapReturn

/-- The call of a value with arguments, when no quote is written
there. -/
theorem call {t : Token} {f : Expr} {args : List Expr}
    (hparts : PartsSettle scope (.expr (.call t f args)) heap)
    (hquote : quotedArgument? f args = none) :
    Finishes (fun fuel => evalWith (evalExpr fuel) scope (.call t f args)) heap
      (Harmless scope) := by
  simp only [evalWith, hquote]
  refine (hparts _ heap (.callee hquote) hheap).unlessUnwinding ?_
  rintro callee heap₁ hanswers hunwinding ⟨hcallee, hheap₁⟩
  have hpasses : Passes scope (.expr f) heap heap₁ := ⟨some callee, hanswers, hunwinding⟩
  refine Finishes.bind (evalAll_finishes hheap₁ ?_) ?_
  · rintro before e behind heap₂ rfl hbefore
    exact hparts _ heap₂ (.argument hquote hpasses hbefore)
  · rintro r heap₂ ⟨hheap₂, hok, herror⟩
    cases r with
    | error u => exact .pure ⟨herror u rfl, hheap₂⟩
    | ok values =>
        -- Without functions to call, only native ones are left, and these take no fuel.
        obtain ⟨x, hends, heq⟩ := applyValue_functionFree hcallee (hok values rfl)
        simp only [heq]
        exact hends.finishes hheap₂

/-- A conditional needs its condition and the branch that is taken. -/
theorem cond {t : Token} {c : Expr} {b : Block} {a : Option Block}
    (hparts : PartsSettle scope (.expr (.cond t c b a)) heap) :
    Finishes (fun fuel => evalWith (evalExpr fuel) scope (.cond t c b a)) heap
      (Harmless scope) := by
  have hbranch {b : Block} {heap₁ : Heap} (hsettles : Settles scope (.block b) heap₁) :
      Finishes (fun fuel => do return (← evalBlock (evalExpr fuel) scope b).getD .null) heap₁
        (Harmless scope) :=
    Finishes.bind hsettles fun _ _ ⟨_, hv, hheap₁⟩ => .pure ⟨.getD hv, hheap₁⟩
  refine (hparts _ heap .condition hheap).unlessUnwinding fun v heap₁ hc hv ⟨_, hheap₁⟩ => ?_
  cases htruthy : v.isTruthy with
  | true => exact hbranch (hparts _ heap₁ (.consequence hv htruthy hc) hheap₁)
  | false =>
      cases a with
      | none => exact .pure ⟨.plain .null, hheap₁⟩
      | some a => exact hbranch (hparts _ heap₁ (.alternative hv htruthy hc) hheap₁)

/-- A quote waits for what is spliced; every other expression waits for
its parts only. -/
theorem expr {e : Expr} (hparts : PartsSettle scope (.expr e) heap)
    (hfree : (Node.expr e).LambdaFree) (hsplices : SplicesSettle scope (.expr e) heap) :
    Settles scope (.expr e) heap := by
  refine .of_evalWith ?_
  cases e with
  | int | bool | str => exact .pure ⟨.plain (by constructor), hheap⟩
  | ident t name =>
      obtain ⟨v, hrun, hv⟩ := evalName_functionFree hheap name
      exact ⟨v, heap, .of_forall fun _ => hrun, hv, hheap⟩
  -- There is no function in the expression: this is where that is needed.
  | lambda => cases (Node.lambdaFree_iff.mp hfree).1
  | unary t op e =>
      refine (hparts _ heap .operand hheap).unlessUnwinding fun v heap₁ _ _ ⟨_, hheap₁⟩ => ?_
      exact .pure ⟨.plain (applyUnary_plain op v), hheap₁⟩
  | binary t op l r =>
      refine (hparts _ heap .left hheap).unlessUnwinding fun a heap₁ hl ha ⟨_, hheap₁⟩ => ?_
      refine (hparts _ heap₁ (.right ⟨some a, hl, ha⟩) hheap₁).unlessUnwinding ?_
      intro b heap₂ _ _ ⟨_, hheap₂⟩
      -- Operators answer with plain values, whatever their operands are.
      obtain ⟨u, hu, heq⟩ := applyBinary_plain op a b
      rw [heq]
      exact .pure ⟨.plain hu, hheap₂⟩
  | index t l i =>
      refine (hparts _ heap .indexed hheap).unlessUnwinding fun v heap₁ hl hv ⟨hleft, hheap₁⟩ => ?_
      refine (hparts _ heap₁ (.index ⟨some v, hl, hv⟩) hheap₁).unlessUnwinding ?_
      exact fun w heap₂ _ _ ⟨_, hheap₂⟩ => .pure ⟨functionFree_applyIndex hleft w, hheap₂⟩
  | cond t c b a => exact hparts.cond hheap
  | array t items =>
      refine Finishes.bind (evalAll_finishes hheap ?_) ?_
      · rintro before e behind heap₁ rfl hbefore
        exact hparts _ heap₁ (.item hbefore)
      · intro r heap₁ ⟨hheap₁, hok, herror⟩
        cases r with
        | ok values => exact (EndsFunctionFree.newArray (hok values rfl)).finishes hheap₁
        | error u => exact .pure ⟨herror u rfl, hheap₁⟩
  | dict t pairs =>
      refine evalPairs_finishes hheap (List.forall_mem_nil _) ?_ ?_
      · rintro before k v behind heap₁ rfl hbefore
        exact hparts _ heap₁ (.key hbefore)
      · rintro before k v behind heap₁ heap₂ rfl hbefore hkey
        exact hparts _ heap₂ (.value hbefore hkey)
  | call t f args =>
      cases hquote : quotedArgument? f args with
      | none => exact hparts.call hheap hquote
      | some e =>
          obtain ⟨t', rfl, rfl⟩ := eq_of_quotedArgument? hquote
          simp only [evalWith, hquote]
          have he := hfree.child (List.mem_cons_of_mem _ List.mem_cons_self)
          exact quoteNode_finishes he hheap fun arg heap₁ hgets =>
            hsplices arg heap₁ (.intro .here hgets)

end PartsSettle

/-! ### Evaluation -/

/-- A tree without lambdas settles if every argument that is spliced in
it does. -/
theorem settles_of_splices (hnode : node.LambdaFree) (hheap : heap.FunctionFree scope)
    (hsplices : SplicesSettle scope node heap) : Settles scope node heap := by
  induction node using Node.induction generalizing heap with
  | step node ih =>
      have hparts : PartsSettle scope node heap := by
        intro part heap₁ henters hheap₁
        have hpart := henters.mem_children
        -- The splices of a part are among those of the node, wherever the part is evaluated.
        exact ih part hpart (hnode.child hpart) hheap₁ fun arg heap₂ hinner =>
          hsplices arg heap₂ (hinner.of_enters henters)
      cases node with
      | program p => exact hparts.program hheap
      | stmt s => exact hparts.stmt hheap
      | block b => exact hparts.block hheap
      | expr e => exact hparts.expr hheap hnode hsplices

/-- A tree without lambdas settles if there is an induction on what its
evaluation waits for. -/
theorem settles_of_acc {start : Node × Heap} (h : Acc (WaitsFor scope) start)
    (hnode : start.1.LambdaFree) (hheap : start.2.FunctionFree scope) :
    Settles scope start.1 start.2 := by
  induction h with
  | intro start _ ih =>
      exact settles_of_splices hnode hheap fun arg heap₁ hsplices harg hheap₁ =>
        ih (.expr arg, heap₁) ⟨arg, rfl, hsplices⟩ harg hheap₁

/-- The evaluation of a tree without lambdas ends, where no function can
be seen, if and only if splices are not nested in it without end. -/
theorem returns_iff_not_nestsEndlessly (hnode : node.LambdaFree)
    (hheap : heap.FunctionFree scope) :
    (∃ fuel, Returns (evalPart fuel scope node) heap) ↔ ¬NestsEndlessly scope node heap := by
  rw [← acc_waitsFor_iff]
  constructor
  · exact fun ⟨fuel, h⟩ => acc_of_returns h
  · intro h
    obtain ⟨v, heap', -, ⟨fuel, hrun⟩, -⟩ := settles_of_acc h hnode hheap
    exact ⟨fuel, _, hrun⟩

end QuoteScript
