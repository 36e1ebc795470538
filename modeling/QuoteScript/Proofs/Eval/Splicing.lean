import QuoteScript.Proofs.Eval.Stored
import QuoteScript.Proofs.Tree.Fitting

/-!
# `QuoteScript.Proofs.Eval.Splicing`: what a quote evaluates

A quoted tree is walked over from the bottom up, and some of its calls
are evaluated on the way. Here this is taken apart: there is a list of
what is spliced, one entry for each call, with the argument that is
evaluated and with its value; the tree that is quoted follows from these
values; and the heap follows from evaluating these arguments in this
order.

The argument of a call that splices may contain another one. What is
evaluated is the argument with the inner call replaced already.

* `Value.spliced?`: the tree of a value.
* `Node.Spliced`, `AllSpliced`: the tree that is quoted.
* `Evaluates`: the heap.
* `Node.Spliced.calls`: the calls that are evaluated.
* `Node.visit_spliceCall_iff`: the pass over the quoted tree.
-/

set_option autoImplicit false

namespace QuoteScript

open EvalM

/-! ### The tree of a value -/

/-- The tree of an integer: a literal, the negation of one, or a
difference for the smallest integer. -/
def Expr.ofInt (n : Int64) (span : Span) : Expr :=
  if 0 ≤ n then .mkInt n span
  else if n = Int64.minValue then
    .mkBinary .subtract (.mkUnary .negate (.mkInt Int64.maxValue span) span) (.mkInt 1 span) span
  else .mkUnary .negate (.mkInt (-n) span) span

/-- The tree of a value, if it has one: booleans, integers and quotes
do. -/
def Value.spliced? (v : Value) (span : Span) : Option Expr :=
  match v with
  | .bool b => some (.mkBool b span)
  | .int n => some (.ofInt n span)
  | .quote _ node => node.expr?
  | _ => none

/-- What stands in the place of a call when its argument has a value. A
value without a tree leaves the call there. -/
def Value.splicedFor (v : Value) (call : Expr) : Expr :=
  (v.unwrapReturn.spliced? call.token.span).getD call

/-- An integer is spliced as one tree, without a defect and without a
change to the heap. -/
theorem spliceInt_eq (n : Int64) (span : Span) : spliceInt n span = pure (.ofInt n span) := by
  unfold spliceInt Expr.ofInt
  by_cases hn : 0 ≤ n
  · rw [if_pos hn, if_pos hn]
  · rw [if_neg hn, if_neg hn]
    by_cases hmin : n = Int64.minValue
    · rw [if_pos hmin, if_pos hmin]
    · rw [if_neg hmin, if_neg hmin, opposite, if_neg hmin]
      rfl

/-- Where quotes hold expressions, the tree of a value is one. -/
theorem spliceValue_eq {v : Value} (hv : v.Answer .expressions) (span : Span) :
    spliceValue v span = pure ((v.spliced? span).map .expr) := by
  cases hv with
  | fault => rfl
  | stored h =>
      cases v with
      | int n =>
          rw [spliceValue, spliceInt_eq]
          rfl
      | quote handle node =>
          -- Over expressions, what is quoted is an expression.
          obtain ⟨-, ⟨e, rfl⟩ | hany⟩ := h
          · rfl
          · cases hany
      | _ => rfl

/-! ### Calls that splice -/

/-- A call of `unquote` with one argument is a splice. -/
theorem unquotedArgument?_call {callee : Expr} (h : callee.token.literal = "unquote")
    (token : Token) (arg : Expr) :
    unquotedArgument? (.expr (.call token callee [arg])) = some (token.span, arg) := by
  rw [unquotedArgument?, if_pos h]

/-- Nothing but a call is a splice. -/
theorem unquotedArgument?_of_not_call {t : Node}
    (h : ∀ token callee args, t ≠ .expr (.call token callee args)) :
    unquotedArgument? t = none := by
  unfold unquotedArgument?
  split
  · exact absurd rfl (h _ _ _)
  · rfl

/-- What is no call, and what does not splice, is left as it is. -/
theorem spliceCall_of_none {eval : Expr → EvalM Value} {node : Node}
    (h : unquotedArgument? node = none) : spliceCall eval node = pure node := by
  rw [spliceCall, h]

/-- A call of `quote` with one argument is a pass over the argument. -/
theorem evalExpr_quote_eq (fuel : Nat) (scope : ScopeId) (t t' : Token) (e : Expr) :
    evalExpr (fuel + 1) scope (.call t (.ident t' "quote") [e]) =
      quoteNode (evalExpr fuel scope) (.expr e) := by
  have hquoted : quotedArgument? (.ident t' "quote") [e] = some e := by
    rw [quotedArgument?, if_pos rfl]
  rw [evalExpr, evalWith, hquoted]

/-- A call splices if it has one argument and its callee is written
`unquote`. -/
theorem unquotedArgument?_isSome {t : Node} (h : (unquotedArgument? t).isSome) :
    ∃ token callee arg, t = .expr (.call token callee [arg]) ∧
      callee.token.literal = "unquote" := by
  unfold unquotedArgument? at h
  split at h
  · next token callee arg =>
      split at h
      · next hcallee => exact ⟨token, callee, arg, rfl, hcallee⟩
      · cases h
  · cases h

/-- No call that splices is the callee of a call. -/
def Node.CallsNoSplice (t : Node) : Prop :=
  ∀ token callee args, .expr (.call token callee args) ∈ t.postorder →
    unquotedArgument? (.expr callee) = none

/-- The parts of a tree call no splice, if the tree calls none. -/
theorem Node.CallsNoSplice.of_mem {t node : Node} (h : t.CallsNoSplice)
    (hnode : node ∈ t.postorder) : node.CallsNoSplice :=
  fun token callee args hcall => h token callee args (mem_postorder_trans hnode hcall)

/-! ### What stays as it is -/

section Unchanged

variable {heap heap' : Heap}

/-- A node is handed out as it is, if the nodes below it stay as they
are. -/
theorem Node.visit_of_unchanged {f : Node → EvalM Node} {t answer : Node}
    (hparts : ∀ c ∈ t.children, c.visit f heap = .ok (c.unchanged, heap))
    (h : f t heap = .ok (answer, heap')) : t.visit f heap = .ok (⟨t, answer⟩, heap') := by
  have hvisits (ts : List Node) (hts : ∀ c ∈ ts, c.visit f heap = .ok (c.unchanged, heap)) :
      (ts.mapM (Node.visit f) : EvalM _) heap = .ok (ts.map Node.unchanged, heap) := by
    induction ts with
    | nil => rfl
    | cons c rest ih =>
        obtain ⟨hc, hrest⟩ := List.forall_mem_cons.mp hts
        rw [List.mapM_cons]
        exact (bind_run hc).trans (bind_run (ih hrest))
  rw [Node.visit_eq]
  refine (bind_run (hvisits t.children hparts)).trans ?_
  -- The places are filled with what was in them.
  rw [Node.refill_unchanged]
  exact bind_run h

/-- Nothing is evaluated in a tree in which no call splices, and it
stays as it is. -/
theorem visit_spliceCall_of_none {eval : Expr → EvalM Value} {t : Node}
    (hnone : ∀ node ∈ t.postorder, unquotedArgument? node = none) (heap : Heap) :
    t.visit (spliceCall eval) heap = .ok (t.unchanged, heap) := by
  induction t using Node.induction with
  | step t ih =>
      have hroot : spliceCall eval t = pure t := spliceCall_of_none (hnone t t.self_mem_postorder)
      refine Node.visit_of_unchanged (fun c hc => ih c hc fun node hnode => ?_)
        (congrFun hroot heap)
      exact hnone node (Node.mem_postorder_of_child hc hnode)

end Unchanged

/-! ### What is spliced -/

/-- A call that splices, the argument that is evaluated for it, and its
value. -/
structure Splice where
  call : Node
  argument : Expr
  value : Value

mutual

/-- `t.Spliced splices t'`: the node `t` becomes `t'` when the calls in
it are replaced by what they splice. Every other node keeps its token. -/
inductive Node.Spliced : Node → List Splice → Node → Prop where
  | kept {t : Node} {splices : List Splice} {parts : List Node}
      (ht : unquotedArgument? t = none) (hparts : AllSpliced t.children splices parts) :
      Node.Spliced t splices (t.rebuild parts)
  | call {token : Token} {callee arg callee' arg' : Expr} {splices : List Splice}
      (hcallee : callee.token.literal = "unquote")
      (hparts : AllSpliced [.expr callee, .expr arg] splices [.expr callee', .expr arg'])
      (v : Value) :
      Node.Spliced (.expr (.call token callee [arg]))
        (splices ++ [⟨.expr (.call token callee [arg]), arg', v⟩])
        (.expr (v.splicedFor (.call token callee' [arg'])))

/-- The same for nodes in a row. -/
inductive AllSpliced : List Node → List Splice → List Node → Prop where
  | nil : AllSpliced [] [] []
  | cons {t t' : Node} {ts ts' : List Node} {splices others : List Splice}
      (ht : t.Spliced splices t') (hrest : AllSpliced ts others ts') :
      AllSpliced (t :: ts) (splices ++ others) (t' :: ts')

end

/-- The arguments are evaluated one after the other, and their values
are those in the list. -/
inductive Evaluates (eval : Expr → EvalM Value) : Heap → List Splice → Heap → Prop where
  | nil {heap : Heap} : Evaluates eval heap [] heap
  | cons {heap heap₁ after : Heap} {splice : Splice} {rest : List Splice}
      (hfirst : eval splice.argument heap = .ok (splice.value, heap₁))
      (hrest : Evaluates eval heap₁ rest after) : Evaluates eval heap (splice :: rest) after

section Evaluates

variable {eval : Expr → EvalM Value} {heap after : Heap} {splices others : List Splice}

/-- Splices are evaluated one after the other. -/
theorem evaluates_append :
    Evaluates eval heap (splices ++ others) after ↔
      ∃ heap₁, Evaluates eval heap splices heap₁ ∧ Evaluates eval heap₁ others after := by
  constructor
  · intro h
    -- The heap between the two lists is the one the first list ends in.
    induction splices generalizing heap with
    | nil => exact ⟨heap, .nil, h⟩
    | cons splice splices ih =>
        cases h with
        | cons hfirst hrest =>
            obtain ⟨heap₁, hsplices, hothers⟩ := ih hrest
            exact ⟨heap₁, .cons hfirst hsplices, hothers⟩
  · rintro ⟨heap₁, hsplices, hothers⟩
    induction hsplices with
    | nil => exact hothers
    | cons hfirst _ ih => exact .cons hfirst (ih hothers)

/-- A single splice is evaluated on its own. -/
theorem evaluates_singleton {splice : Splice} :
    Evaluates eval heap [splice] after ↔
      eval splice.argument heap = .ok (splice.value, after) := by
  constructor
  · intro h
    obtain _ | ⟨hfirst, _ | _⟩ := h
    exact hfirst
  · exact fun h => .cons h .nil

end Evaluates

/-! ### The calls that are evaluated -/

/-- The calls of nodes in a row, given those of each node. -/
theorem AllSpliced.calls {ts ts' : List Node} {splices : List Splice}
    (ih : ∀ t ∈ ts, ∀ splices t', t.Spliced splices t' →
      splices.map Splice.call = t.postorder.filter fun node => (unquotedArgument? node).isSome)
    (h : AllSpliced ts splices ts') : splices.map Splice.call =
      (ts.flatMap Node.postorder).filter fun node => (unquotedArgument? node).isSome := by
  induction ts generalizing splices ts' with
  | nil =>
      cases h
      rfl
  | cons t ts ihts =>
      -- The splices of the first tree come in front of those of the others, as its nodes do.
      obtain ⟨hfirst, hothers⟩ := List.forall_mem_cons.mp ih
      cases h with
      | cons ht hrest =>
          rw [List.map_append, List.flatMap_cons, List.filter_append, hfirst _ _ ht,
            ihts hothers hrest]

/-- All calls that splice are evaluated, each of them once, and in
postorder. -/
theorem Node.Spliced.calls {t t' : Node} {splices : List Splice} (h : t.Spliced splices t') :
    splices.map Splice.call = t.postorder.filter fun node => (unquotedArgument? node).isSome := by
  induction t using Node.induction generalizing splices t' with
  | step t ih =>
      rw [t.postorder_eq, List.filter_append]
      cases h with
      | kept ht hparts => simp [hparts.calls fun c hc _ _ => ih c hc, ht]
      | call hcallee hparts v =>
          have hcalls := hparts.calls fun c hc _ _ => ih c hc
          simp [hcalls, unquotedArgument?_call hcallee, Node.children, Expr.children]

/-! ### The pass over the quoted tree -/

/-- What is known of the visit of a node: everything fits in its place,
and only calls that splice are replaced. -/
structure Visit.KeepsOthers (t : Node) (v : Visit) : Prop extends v.FitsIn t where
  kept : unquotedArgument? t = none → ∃ parts, v.answer = t.rebuild parts

/-- Answers that keep all but splices fit in their places. -/
theorem fitsIn_of_keepsOthers {ts : List Node} {visits : List Visit}
    (h : List.Forall₂ Visit.KeepsOthers ts visits) : List.Forall₂ Visit.FitsIn ts visits :=
  h.imp fun _ _ hv => hv.toFitsIn

/-- The parts of a call whose places have been filled. -/
theorem Expr.refill_call {token : Token} {callee : Expr} {args : List Expr} {visits : List Visit}
    (h : List.Forall₂ Visit.KeepsOthers (Node.expr (.call token callee args)).children visits) :
    ∃ callee' args', (Expr.call token callee args).refill visits = .call token callee' args' ∧
      visits.map Visit.answer = .expr callee' :: args'.map .expr ∧ args'.length = args.length ∧
      (unquotedArgument? (.expr callee) = none → ∃ parts, callee' = callee.refill parts) := by
  have hchildren := Expr.children_refill (.call token callee args)
    (fitAll_of_fitsIn (fitsIn_of_keepsOthers h))
  obtain _ | ⟨hv, hargs⟩ := h
  refine ⟨_, _, rfl, hchildren.symm, ?_, fun hcallee => ?_⟩
  -- A call has as many arguments as before: each place is filled once.
  · have hargs' := hargs.length_eq
    simp only [List.length_map] at hargs'
    rw [List.length_zipWith, ← hargs', Nat.min_self]
  · obtain ⟨parts, hparts⟩ := hv.kept hcallee
    have hanswer := Visit.expr_of_fits (hv.handed.trans hv.answer) callee
    exact ⟨_, Node.expr.inj (hanswer.trans hparts)⟩

/-- The same for a call that splices a name: the name stays. -/
theorem Expr.refill_call_ident {token t : Token} {callee : Expr} {name : String}
    {visits : List Visit}
    (h : List.Forall₂ Visit.KeepsOthers
      (Node.expr (.call token callee [.ident t name])).children visits)
    (hcallee : unquotedArgument? (.expr callee) = none) :
    ∃ parts, (Expr.call token callee [.ident t name]).refill visits =
      .call token (callee.refill parts) [.ident t name] := by
  obtain ⟨callee', args', hrefill, hanswers, hlength, hkept⟩ := Expr.refill_call h
  obtain ⟨parts, rfl⟩ := hkept hcallee
  obtain ⟨arg', rfl⟩ := List.length_eq_one_iff.mp hlength
  obtain _ | ⟨-, _ | ⟨hname, _ | _⟩⟩ := fitAll_of_fitsIn (fitsIn_of_keepsOthers h)
  have hargs := (List.cons.inj hanswers).2
  -- A name is never replaced, as it is not a splice.
  rw [List.map_cons, hname.eq_ident] at hargs
  cases hargs
  exact ⟨parts, hrefill⟩

/-- A node that does not splice does not splice when its places have
been filled. -/
theorem Node.unquotedArgument?_refill {t : Node} (hcalls : t.CallsNoSplice)
    {visits : List Visit} (h : List.Forall₂ Visit.KeepsOthers t.children visits)
    (ht : unquotedArgument? t = none) : unquotedArgument? (t.refill visits) = none := by
  obtain ⟨token, callee, args, rfl⟩ | hnocall := t.refill_call_cases visits
  · obtain ⟨callee', args', hrefill, -, hlength, hkept⟩ := Expr.refill_call h
    obtain ⟨parts, rfl⟩ := hkept (hcalls token callee args (Node.self_mem_postorder _))
    show unquotedArgument? (.expr (Expr.refill _ visits)) = none
    rw [hrefill]
    by_contra hsplices
    -- There are as many arguments as before, and the callee is written as before.
    obtain ⟨_, _, arg', heq, hwritten⟩ :=
      unquotedArgument?_isSome (Option.isSome_iff_ne_none.mpr hsplices)
    cases heq
    obtain ⟨arg, rfl⟩ := List.length_eq_one_iff.mp hlength.symm
    rw [Expr.token_refill] at hwritten
    rw [unquotedArgument?_call hwritten] at ht
    cases ht
  · exact unquotedArgument?_of_not_call hnocall

section Pass

variable {eval : Evaluator} {scope : ScopeId} {heap after : Heap}

/-- What a call that splices answers. -/
theorem spliceCall_call_iff (heval : SafeEvaluator .expressions eval)
    (hheap : heap.Over .expressions) {token : Token} {callee arg : Expr}
    (hcallee : callee.token.literal = "unquote") {answer : Node} :
    spliceCall (eval scope) (.expr (.call token callee [arg])) heap = .ok (answer, after) ↔
      ∃ v, eval scope arg heap = .ok (v, after) ∧
        answer = .expr (v.splicedFor (.call token callee [arg])) := by
  -- The run is determined by the value of the argument, which serves both directions.
  have hrun {v : Value} {heap₁ : Heap} (hv : eval scope arg heap = .ok (v, heap₁)) :
      spliceCall (eval scope) (.expr (.call token callee [arg])) heap =
        .ok (.expr (v.splicedFor (.call token callee [arg])), heap₁) := by
    have harg := arg.over_of_unrestricted Lexicon.unrestricted_expressions
    have houtcome := ((heval scope arg harg).of_run hheap hv).2
    rw [spliceCall, unquotedArgument?_call hcallee]
    refine (bind_run hv).trans ?_
    rw [spliceValue_eq houtcome.unwrapReturn]
    have hanswer : ((v.unwrapReturn.spliced? token.span).map Node.expr).getD
        (.expr (.call token callee [arg])) =
          .expr ((v.unwrapReturn.spliced? token.span).getD (.call token callee [arg])) := by
      cases v.unwrapReturn.spliced? token.span <;> rfl
    exact congrArg (fun node => Except.ok (node, heap₁)) hanswer
  constructor
  · intro h
    have hparts := h
    rw [spliceCall, unquotedArgument?_call hcallee] at hparts
    obtain ⟨v, heap₁, hv, -⟩ := bind_run_eq_ok hparts
    obtain ⟨rfl, rfl⟩ := Prod.mk.inj (Except.ok.inj ((hrun hv).symm.trans h))
    exact ⟨v, hv, rfl⟩
  · rintro ⟨v, hv, rfl⟩
    exact hrun hv

/-- The visit of a node, with the heap that it leaves in order. -/
theorem Node.visit_spliceCall_safe (heval : SafeEvaluator .expressions eval) (scope : ScopeId)
    {t : Node} (hcalls : t.CallsNoSplice) :
    Safe .expressions (t.visit (spliceCall (eval scope))) (Visit.KeepsOthers t) := by
  refine Node.visit_gives (G := EvalM.keeps (Heap.Over .expressions))
    fun node hnode visits hvisits => ?_
  cases hsplices : unquotedArgument? node with
  | none =>
      have hnone := node.unquotedArgument?_refill (hcalls.of_mem hnode) hvisits hsplices
      rw [spliceCall_of_none hnone]
      refine EvalM.Keeps.pure ⟨⟨node.fits_refill visits, .refl _⟩, fun _ => ?_⟩
      exact ⟨_, node.refill_eq_rebuild (answers_fit (fitsIn_of_keepsOthers hvisits))⟩
  | some call =>
      obtain ⟨token, callee, arg, rfl, -⟩ := unquotedArgument?_isSome (by rw [hsplices]; rfl)
      -- An expression is handed out, and an expression is the answer.
      have hquotable : ((Node.expr (.call token callee [arg])).refill visits).Quotable
          .expressions :=
        ⟨Node.over_of_unrestricted Lexicon.unrestricted_expressions _, .inl ⟨_, rfl⟩⟩
      have hspliced := spliceCall_quotable (fun _ _ => trivial) heval scope hquotable
      refine hspliced.mono fun answer hanswer => ⟨⟨Node.fits_refill _ visits, ?_⟩, ?_⟩
      · obtain ⟨-, ⟨e, rfl⟩ | hany⟩ := hanswer
        · exact .expr (Expr.name?_refill _ visits) e
        · cases hany
      · exact fun hnone => absurd (hsplices.symm.trans hnone) (Option.some_ne_none _)

/-- The visits of nodes in a row, given those of each node. -/
theorem mapM_visit_spliceCall_iff (heval : SafeEvaluator .expressions eval) {ts answers : List Node}
    (hcalls : ∀ t ∈ ts, t.CallsNoSplice)
    (ih : ∀ t ∈ ts, ∀ {heap after : Heap} {answer : Node}, heap.Over .expressions →
      ((∃ v, t.visit (spliceCall (eval scope)) heap = .ok (v, after) ∧ v.answer = answer) ↔
        ∃ splices, t.Spliced splices answer ∧ Evaluates (eval scope) heap splices after))
    (hheap : heap.Over .expressions) :
    (∃ visits, ts.mapM (Node.visit (spliceCall (eval scope))) heap = .ok (visits, after) ∧
      visits.map Visit.answer = answers) ↔
        ∃ splices, AllSpliced ts splices answers ∧ Evaluates (eval scope) heap splices after := by
  induction ts generalizing heap answers with
  | nil =>
      constructor
      · rintro ⟨visits, hrun, rfl⟩
        cases hrun
        exact ⟨[], .nil, .nil⟩
      · rintro ⟨splices, hspliced, hevaluates⟩
        cases hspliced
        cases hevaluates
        exact ⟨[], rfl, rfl⟩
  | cons t ts ihts =>
      obtain ⟨hfirst, hothers⟩ := List.forall_mem_cons.mp ih
      obtain ⟨hcall, hrest⟩ := List.forall_mem_cons.mp hcalls
      have hsafe := Node.visit_spliceCall_safe heval scope hcall
      constructor
      · rintro ⟨visits, hrun, rfl⟩
        rw [List.mapM_cons] at hrun
        obtain ⟨v, heap₁, hv, hrun⟩ := bind_run_eq_ok hrun
        obtain ⟨vs, heap₂, hvs, hrun⟩ := bind_run_eq_ok hrun
        cases hrun
        -- The first visit leaves a heap in order, so the other ones can start from it.
        have hheap₁ := (hsafe.of_run hheap hv).1
        obtain ⟨splices, hspliced, hevaluates⟩ := (hfirst hheap).mp ⟨v, hv, rfl⟩
        obtain ⟨others, hall, hevaluates'⟩ := (ihts hrest hothers hheap₁).mp ⟨vs, hvs, rfl⟩
        exact ⟨_, .cons hspliced hall, evaluates_append.mpr ⟨_, hevaluates, hevaluates'⟩⟩
      · rintro ⟨splices, hspliced, hevaluates⟩
        cases hspliced with
        | cons ht hall =>
            obtain ⟨heap₁, hevaluates, hevaluates'⟩ := evaluates_append.mp hevaluates
            obtain ⟨v, hv, rfl⟩ := (hfirst hheap).mpr ⟨_, ht, hevaluates⟩
            have hheap₁ := (hsafe.of_run hheap hv).1
            obtain ⟨vs, hvs, rfl⟩ := (ihts hrest hothers hheap₁).mpr ⟨_, hall, hevaluates'⟩
            refine ⟨v :: vs, ?_, rfl⟩
            rw [List.mapM_cons]
            exact (bind_run hv).trans ((bind_run hvs).trans rfl)

/-- A visit is the visits of the children, and then the call of the
transform. -/
theorem Node.visit_run_iff {f : Node → EvalM Node} {t answer : Node} :
    (∃ v, t.visit f heap = .ok (v, after) ∧ v.answer = answer) ↔
      ∃ visits heap₁, t.children.mapM (Node.visit f) heap = .ok (visits, heap₁) ∧
        f (t.refill visits) heap₁ = .ok (answer, after) := by
  rw [Node.visit_eq]
  constructor
  · rintro ⟨v, hrun, rfl⟩
    obtain ⟨visits, heap₁, hvisits, hrun⟩ := bind_run_eq_ok hrun
    obtain ⟨answer, heap₂, hanswer, hrun⟩ := bind_run_eq_ok hrun
    cases hrun
    exact ⟨visits, heap₁, hvisits, hanswer⟩
  · rintro ⟨visits, heap₁, hvisits, hanswer⟩
    exact ⟨⟨t.refill visits, answer⟩, (bind_run hvisits).trans (bind_run hanswer), rfl⟩

/-- A quote is made when the pass has ended. -/
theorem quoteNode_run_iff {eval : Expr → EvalM Value} {t : Node} {v : Value} :
    quoteNode eval t heap = .ok (v, after) ↔
      ∃ tree heap₁, (∃ visit, t.visit (spliceCall eval) heap = .ok (visit, heap₁) ∧
        visit.answer = tree) ∧ v = .quote heap₁.newHandle.1 tree ∧ after = heap₁.newHandle.2 := by
  rw [quoteNode, Node.transformM_eq_visit, map_eq_pure_bind]
  constructor
  · intro hrun
    obtain ⟨tree, heap₁, hpass, hquote⟩ := bind_run_eq_ok hrun
    obtain ⟨visit, heap₂, hvisit, hanswer⟩ := bind_run_eq_ok hpass
    cases hanswer
    -- The quote gets its handle behind the pass, from the heap that the pass has left.
    cases hquote
    exact ⟨_, _, ⟨visit, hvisit, rfl⟩, rfl, rfl⟩
  · rintro ⟨_, heap₁, ⟨visit, hvisit, rfl⟩, rfl, rfl⟩
    exact bind_run (bind_run hvisit)

/-- What becomes of a node whose places have been filled. Only a call
that splices evaluates anything. -/
theorem spliceCall_refill_iff (heval : SafeEvaluator .expressions eval)
    (hheap : heap.Over .expressions) {t answer : Node} (hcalls : t.CallsNoSplice)
    {visits : List Visit} (h : List.Forall₂ Visit.KeepsOthers t.children visits) :
    spliceCall (eval scope) (t.refill visits) heap = .ok (answer, after) ↔
      (unquotedArgument? t = none ∧ answer = t.rebuild (visits.map Visit.answer) ∧ after = heap) ∨
      ∃ token callee arg callee' arg' v, t = .expr (.call token callee [arg]) ∧
        callee.token.literal = "unquote" ∧
        visits.map Visit.answer = [.expr callee', .expr arg'] ∧
        eval scope arg' heap = .ok (v, after) ∧
        answer = .expr (v.splicedFor (.call token callee' [arg'])) := by
  cases hsplices : unquotedArgument? t with
  | none =>
      rw [spliceCall_of_none (t.unquotedArgument?_refill hcalls h hsplices),
        ← t.refill_eq_rebuild (answers_fit (fitsIn_of_keepsOthers h))]
      constructor
      · intro hrun
        cases hrun
        exact .inl ⟨rfl, rfl, rfl⟩
      · rintro (⟨-, rfl, rfl⟩ | ⟨token, callee, arg, -, -, -, rfl, hcallee, -⟩)
        · rfl
        · rw [unquotedArgument?_call hcallee] at hsplices
          cases hsplices
  | some call =>
      obtain ⟨token, callee, arg, rfl, hcallee⟩ := unquotedArgument?_isSome (by rw [hsplices]; rfl)
      -- The refilled call is still a splice, of what its argument has become.
      obtain ⟨callee', args', hrefill, hanswers, hlength, hkept⟩ := Expr.refill_call h
      obtain ⟨parts, rfl⟩ := hkept (hcalls token callee _ (Node.self_mem_postorder _))
      obtain ⟨arg', rfl⟩ := List.length_eq_one_iff.mp hlength
      have hcallee' : (callee.refill parts).token.literal = "unquote" := by
        rw [Expr.token_refill, hcallee]
      show spliceCall (eval scope) (.expr (Expr.refill _ visits)) heap = _ ↔ _
      rw [hrefill, spliceCall_call_iff heval hheap hcallee']
      constructor
      · rintro ⟨v, hv, rfl⟩
        exact .inr ⟨token, callee, arg, _, arg', v, rfl, hcallee, hanswers, hv, rfl⟩
      · rintro (⟨hnone, -⟩ | ⟨_, _, _, _, _, v, heq, -, hanswers', hv, rfl⟩)
        · cases hnone
        · cases heq
          cases hanswers.symm.trans hanswers'
          exact ⟨v, hv, rfl⟩

/-- The visit of a node evaluates what is spliced in it, and answers
what this makes of the node. -/
theorem Node.visit_spliceCall_iff (heval : SafeEvaluator .expressions eval) {t answer : Node}
    (hcalls : t.CallsNoSplice) (hheap : heap.Over .expressions) :
    (∃ v, t.visit (spliceCall (eval scope)) heap = .ok (v, after) ∧ v.answer = answer) ↔
      ∃ splices, t.Spliced splices answer ∧ Evaluates (eval scope) heap splices after := by
  induction t using Node.induction generalizing heap after answer with
  | step t ih =>
      have hchild (c : Node) (hc : c ∈ t.children) : c.CallsNoSplice :=
        hcalls.of_mem (mem_postorder_of_child hc c.self_mem_postorder)
      -- The children come first, and what is left is the call of the transform.
      have hparts (answers : List Node) (heap₁ : Heap) :
          (∃ visits, t.children.mapM (Node.visit (spliceCall (eval scope))) heap =
            .ok (visits, heap₁) ∧ visits.map Visit.answer = answers) ↔
              ∃ splices, AllSpliced t.children splices answers ∧
                Evaluates (eval scope) heap splices heap₁ :=
        mapM_visit_spliceCall_iff heval hchild (fun c hc _ _ _ => ih c hc (hchild c hc)) hheap
      have hsafe : Safe .expressions (t.children.mapM (Node.visit (spliceCall (eval scope))))
          (List.Forall₂ Visit.KeepsOthers t.children) :=
        Guarantee.mapM (G := EvalM.keeps (Heap.Over .expressions)) fun c hc =>
          c.visit_spliceCall_safe heval scope (hchild c hc)
      rw [Node.visit_run_iff]
      constructor
      · rintro ⟨visits, heap₁, hvisits, hanswer⟩
        obtain ⟨hheap₁, hkeeps⟩ := hsafe.of_run hheap hvisits
        obtain ⟨splices, hall, hevaluates⟩ := (hparts _ heap₁).mp ⟨visits, hvisits, rfl⟩
        obtain ⟨hnone, rfl, rfl⟩ | ⟨_, _, _, callee', arg', v, rfl, hcallee, hanswers, hv, rfl⟩ :=
          (spliceCall_refill_iff heval hheap₁ hcalls hkeeps).mp hanswer
        · exact ⟨splices, .kept hnone hall, hevaluates⟩
        · -- The node itself is spliced, behind all that is spliced below.
          rw [hanswers] at hall
          have hlast (call : Node) : Evaluates (eval scope) heap₁ [⟨call, arg', v⟩] after :=
            evaluates_singleton.mpr hv
          exact ⟨_, .call hcallee hall v, evaluates_append.mpr ⟨heap₁, hevaluates, hlast _⟩⟩
      · rintro ⟨splices, hspliced, hevaluates⟩
        cases hspliced with
        | kept hnone hall =>
            obtain ⟨visits, hvisits, rfl⟩ := (hparts _ after).mpr ⟨splices, hall, hevaluates⟩
            obtain ⟨hheap₁, hkeeps⟩ := hsafe.of_run hheap hvisits
            refine ⟨visits, after, hvisits, ?_⟩
            exact (spliceCall_refill_iff heval hheap₁ hcalls hkeeps).mpr (.inl ⟨hnone, rfl, rfl⟩)
        | call hcallee hall v =>
            obtain ⟨heap₁, hevaluates, hlast⟩ := evaluates_append.mp hevaluates
            obtain ⟨visits, hvisits, hanswers⟩ := (hparts _ heap₁).mpr ⟨_, hall, hevaluates⟩
            obtain ⟨hheap₁, hkeeps⟩ := hsafe.of_run hheap hvisits
            refine ⟨visits, heap₁, hvisits, ?_⟩
            exact (spliceCall_refill_iff heval hheap₁ hcalls hkeeps).mpr (.inr
              ⟨_, _, _, _, _, v, rfl, hcallee, hanswers, evaluates_singleton.mp hlast, rfl⟩)

end Pass

end QuoteScript
