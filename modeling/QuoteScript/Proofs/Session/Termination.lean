import QuoteScript.Proofs.Eval.Settling
import QuoteScript.Proofs.Session.Dump

/-!
# `QuoteScript.Proofs.Session.Termination`: programs without functions

There are no loops, so without functions one may expect every program to
end. But a quoted call of `unquote` whose argument has no tree is left in
the quote, and a name may bring it back into the argument of another
`unquote`, where it is evaluated. A text can be written that brings back
itself in this way, again and again.

Nothing else keeps a program without functions from ending. It ends if
and only if splices are not nested in it without end. And this can be
seen from the text if no splice is written inside another one: then an
argument is evaluated as it is written, whatever the quotes that are
bound hold.

* `Node.SplicesNothing`, `Node.SplicesApart`: trees without splices, and
  with none inside another one.
* `PassGetsTo.splicesNothing`: what is evaluated there.
* `Expr.QuotesTwice.runs_out`: the text that brings back itself.
* `programs_without_functions_end`: when a program ends.
* `kept_splices_nest_without_end`: a program that does not.
-/

set_option autoImplicit false

namespace QuoteScript

open EvalM

variable {scope : ScopeId} {heap heap' heap₁ : Heap} {t : Node} {arg : Expr}

/-! ### Trees whose splices stand apart -/

/-- No call in a tree splices. -/
def Node.SplicesNothing (t : Node) : Prop :=
  ∀ node ∈ t.postorder, unquotedArgument? node = none

/-- No call that splices stands in the argument of another one, and none
is the callee of a call. -/
structure Node.SplicesApart (t : Node) : Prop where
  callees : t.CallsNoSplice
  arguments : ∀ node ∈ t.postorder, ∀ span arg, unquotedArgument? node = some (span, arg) →
    (Node.expr arg).SplicesNothing

/-- The parts of a tree keep their splices apart, if the tree does. -/
theorem Node.SplicesApart.of_mem {node : Node} (h : t.SplicesApart) (hnode : node ∈ t.postorder) :
    node.SplicesApart where
  callees := h.callees.of_mem hnode
  arguments _ hinner := h.arguments _ (mem_postorder_trans hnode hinner)

/-- A tree keeps its splices apart if its root does and its children do. -/
theorem Node.SplicesApart.of_children
    (hcallee : ∀ token callee args, t = .expr (.call token callee args) →
      unquotedArgument? (.expr callee) = none)
    (harg : ∀ span arg, unquotedArgument? t = some (span, arg) → (Node.expr arg).SplicesNothing)
    (hchildren : ∀ c ∈ t.children, c.SplicesApart) : t.SplicesApart where
  callees := by
    have hall : ∀ node ∈ t.postorder, ∀ token callee args,
        node = .expr (.call token callee args) → unquotedArgument? (.expr callee) = none := by
      refine forall_mem_postorder_iff.mpr ⟨hcallee, ?_⟩
      rintro c hc _ hnode token callee args rfl
      exact (hchildren c hc).callees token callee args hnode
    exact fun token callee args hcall => hall _ hcall token callee args rfl
  arguments := forall_mem_postorder_iff.mpr ⟨harg, fun c hc => (hchildren c hc).arguments⟩

/-- What is no call splices nothing itself. -/
theorem Node.SplicesApart.of_not_call
    (hcall : ∀ token callee args, t ≠ .expr (.call token callee args))
    (hchildren : ∀ c ∈ t.children, c.SplicesApart) : t.SplicesApart := by
  refine .of_children (fun token callee args h => absurd h (hcall token callee args)) ?_ hchildren
  intro span arg harg
  rw [unquotedArgument?_of_not_call hcall] at harg
  cases harg

/-- A name splices nothing. -/
theorem Node.splicesNothing_ident (t : Token) (name : String) :
    (Node.expr (.ident t name)).SplicesNothing :=
  forall_mem_postorder_iff.mpr ⟨rfl, nofun⟩

/-- As many nodes are visited as there are. -/
theorem length_of_mapM_run {α β : Type} {f : α → EvalM β} {as : List α} {bs : List β}
    (h : as.mapM f heap = .ok (bs, heap')) : bs.length = as.length := by
  induction as generalizing bs heap with
  | nil =>
      cases h
      rfl
  | cons a as ih =>
      rw [List.mapM_cons] at h
      obtain ⟨b, heap₁, -, h⟩ := bind_run_eq_ok h
      obtain ⟨rest, heap₂, hrest, h⟩ := bind_run_eq_ok h
      cases h
      exact congrArg (· + 1) (ih hrest)

/-- Nodes that splice nothing stay as they are. -/
theorem visited_of_splicesNothing {ts : List Node} (h : ∀ t ∈ ts, t.SplicesNothing)
    (scope : ScopeId) (heap : Heap) : Visited scope ts heap (ts.map Node.unchanged) heap := by
  refine ⟨0, ?_⟩
  dsimp only
  induction ts with
  | nil => rfl
  | cons t ts ih =>
      obtain ⟨ht, hrest⟩ := List.forall_mem_cons.mp h
      rw [List.mapM_cons]
      exact (bind_run (visit_spliceCall_of_none ht heap)).trans (bind_run (ih hrest))

/-- In a tree that splices nothing, the pass gets to no call that
splices. -/
theorem PassGetsTo.not_splicesNothing (h : PassGetsTo scope t heap arg heap₁) :
    ¬t.SplicesNothing := by
  intro hnone
  induction h with
  | child hchildren _ _ ih =>
      refine ih fun node hnode => hnone node (Node.mem_postorder_of_child ?_ hnode)
      rw [hchildren]
      exact List.mem_append_right _ List.mem_cons_self
  -- The parts splice nothing, so the pass puts the same parts back.
  | @here t _ _ _ heap _ hparts hcall =>
      have hkept := visited_of_splicesNothing (fun c hc node hnode =>
        hnone node (Node.mem_postorder_of_child hc hnode)) scope heap
      obtain ⟨rfl, -⟩ := (mapM_visit_steady scope t.children).ends_unique hkept hparts
      rw [Node.refill_unchanged, hnone t t.self_mem_postorder] at hcall
      cases hcall

/-- A tree that splices nothing keeps its evaluation from splicing. -/
theorem Splices.not_splicesNothing {node : Node} (h : Splices scope node heap arg heap₁) :
    ¬node.SplicesNothing := by
  intro hnone
  obtain ⟨hreach, hpass⟩ := h
  refine hpass.not_splicesNothing fun inner hinner => hnone inner ?_
  refine Node.mem_postorder_trans hreach.mem_postorder (Node.mem_postorder_of_child ?_ hinner)
  exact List.mem_cons_of_mem _ List.mem_cons_self

/-- A call after the visits of its callee, which keeps its token, and of
its arguments. -/
theorem refill_call_of_run {eval : Expr → EvalM Value} {token : Token} {callee : Expr}
    {args : List Expr} {visits : List Visit}
    (hcallee : ∀ v after, (Node.expr callee).visit (spliceCall eval) heap = .ok (v, after) →
      ∃ parts, v.answer = .expr (callee.refill parts))
    (hrun : (Node.expr (.call token callee args)).children.mapM
      (Node.visit (spliceCall eval)) heap = .ok (visits, heap')) :
    ∃ parts args', (Expr.call token callee args).refill visits =
        .call token (callee.refill parts) args' ∧ args'.length = args.length ∧
      ∀ arg, args = [arg] → (Node.expr arg).SplicesNothing → args' = [arg] := by
  rw [Node.children, Expr.children, List.mapM_cons] at hrun
  obtain ⟨v, heap₁, hv, hrun⟩ := bind_run_eq_ok hrun
  obtain ⟨vs, heap₂, hvs, hrun⟩ := bind_run_eq_ok hrun
  cases hrun
  obtain ⟨parts, hparts⟩ := hcallee v heap₁ hv
  have hplace : v.expr callee = callee.refill parts := by
    rw [Visit.expr, hparts]
    rfl
  refine ⟨parts, List.zipWith Visit.expr vs args, by rw [Expr.refill, hplace], ?_, ?_⟩
  · rw [List.length_zipWith, length_of_mapM_run hvs, List.length_map, Nat.min_self]
  -- A single argument that splices nothing is put back as it was.
  · rintro arg rfl harg
    rw [List.map_singleton, List.mapM_cons] at hvs
    obtain ⟨w, heap₃, hw, hvs⟩ := bind_run_eq_ok hvs
    cases (visit_spliceCall_of_none harg heap₁).symm.trans hw
    cases hvs
    rfl

/-- The root of an expression that does not splice keeps its form and its
token, and does not splice either when its places have been filled. -/
theorem exists_refill_of_visit_run {eval : Expr → EvalM Value} {e : Expr} {v : Visit}
    (hcalls : (Node.expr e).CallsNoSplice) (he : unquotedArgument? (.expr e) = none)
    (hrun : (Node.expr e).visit (spliceCall eval) heap = .ok (v, heap')) :
    ∃ parts, v.answer = .expr (e.refill parts) := by
  generalize ht : Node.expr e = t at *
  induction t using Node.induction generalizing e v heap heap' with
  | step t ih =>
      subst ht
      rw [Node.visit_eq] at hrun
      obtain ⟨visits, heap₁, hvisits, hrun⟩ := bind_run_eq_ok hrun
      obtain ⟨answer, heap₂, hanswer, hrun⟩ := bind_run_eq_ok hrun
      have hnone : unquotedArgument? ((Node.expr e).refill visits) = none := by
        obtain ⟨token, callee, args, heq⟩ | hnocall := (Node.expr e).refill_call_cases visits
        · cases heq
          have hcallee := hcalls token callee args (Node.self_mem_postorder _)
          have hmem : Node.expr callee ∈ (Node.expr (.call token callee args)).children :=
            List.mem_cons_self
          have hbelow := hcalls.of_mem (Node.mem_postorder_of_mem_children hmem)
          obtain ⟨parts, args', hrefill, hlength, -⟩ := refill_call_of_run
            (fun v after hv => ih _ hmem rfl hbelow hcallee hv) hvisits
          show unquotedArgument? (.expr (Expr.refill _ visits)) = none
          rw [hrefill]
          -- Were the refilled call a splice, the call that was written would be one.
          by_contra hsplices
          obtain ⟨_, _, arg', heq, hwritten⟩ :=
            unquotedArgument?_isSome (Option.isSome_iff_ne_none.mpr hsplices)
          cases heq
          obtain ⟨arg, rfl⟩ := List.length_eq_one_iff.mp hlength.symm
          rw [Expr.token_refill] at hwritten
          rw [unquotedArgument?_call hwritten] at he
          cases he
        · exact unquotedArgument?_of_not_call hnocall
      -- So the root is not spliced, and all the pass did was to fill its places.
      have hroot : spliceCall eval ((Node.expr e).refill visits) heap₁ =
          .ok ((Node.expr e).refill visits, heap₁) := congrFun (spliceCall_of_none hnone) heap₁
      cases hroot.symm.trans hanswer
      cases hrun
      exact ⟨visits, rfl⟩

/-- Where splices stand apart, an argument is evaluated as it is written,
and nothing splices in it. -/
theorem PassGetsTo.splicesNothing (h : PassGetsTo scope t heap arg heap₁) (ht : t.SplicesApart) :
    (Node.expr arg).SplicesNothing := by
  induction h with
  | @child t c _ _ _ _ _ _ _ hchildren _ _ ih =>
      have hc : c ∈ t.children := by
        rw [hchildren]
        exact List.mem_append_right _ List.mem_cons_self
      exact ih (ht.of_mem (Node.mem_postorder_of_mem_children hc))
  | @here t visits span arg heap heap₁ hparts hcall =>
      obtain ⟨token, callee, args, rfl⟩ | hnocall := t.refill_call_cases visits
      · have hcallee := ht.callees token callee args (Node.self_mem_postorder _)
        have hmem : Node.expr callee ∈ (Node.expr (.call token callee args)).children :=
          List.mem_cons_self
        obtain ⟨fuel, hvisits⟩ := hparts
        have hbelow := ht.callees.of_mem (Node.mem_postorder_of_mem_children hmem)
        obtain ⟨parts, args', hrefill, hlength, hkept⟩ := refill_call_of_run
          (fun v after hv => exists_refill_of_visit_run hbelow hcallee hv) hvisits
        have hcall' : unquotedArgument? (.expr (Expr.refill _ visits)) = some (span, arg) := hcall
        rw [hrefill] at hcall'
        obtain ⟨_, _, arg', heq, hwritten⟩ := unquotedArgument?_isSome (by rw [hcall']; rfl)
        cases heq
        rw [unquotedArgument?_call hwritten] at hcall'
        cases hcall'
        obtain ⟨written, rfl⟩ := List.length_eq_one_iff.mp hlength.symm
        rw [Expr.token_refill] at hwritten
        have hnothing := ht.arguments _ (Node.self_mem_postorder _) _ written
          (unquotedArgument?_call hwritten token written)
        -- The argument is the one that was written, which splices nothing by assumption.
        cases hkept written rfl hnothing
        exact hnothing
      · rw [unquotedArgument?_of_not_call hnocall] at hcall
        cases hcall

/-- A fresh scope binds nothing, and no functions. -/
theorem Heap.Fresh.functionFree (h : heap.Fresh scope) : heap.FunctionFree scope :=
  ⟨[], h, List.forall_mem_nil _⟩

/-- Where splices stand apart, none is nested in another one. -/
theorem Node.SplicesApart.not_nestsEndlessly {node : Node} (h : node.SplicesApart)
    (scope : ScopeId) (heap : Heap) : ¬NestsEndlessly scope node heap := by
  rintro ⟨args, heaps, ⟨hreach, hpass⟩, hnext⟩
  have hquoted : ∀ {t t' : Token} {e : Expr},
      Node.expr e ∈ (Node.expr (.call t (.ident t' "quote") [e])).children :=
    List.mem_cons_of_mem _ List.mem_cons_self
  have hapart := h.of_mem (Node.mem_postorder_trans hreach.mem_postorder
    (Node.mem_postorder_of_mem_children hquoted))
  exact (hnext 0).not_splicesNothing (hpass.splicesNothing hapart)

/-! ### A text that brings back itself -/

/-- A pass leaves a name as it is. -/
theorem visit_name (eval : Expr → EvalM Value) (t : Token) (name : String) (heap : Heap) :
    (Node.expr (.ident t name)).visit (spliceCall eval) heap =
      .ok ((Node.expr (.ident t name)).unchanged, heap) :=
  visit_spliceCall_of_none (Node.splicesNothing_ident t name) heap

/-- The visit of a call of a name with one argument. -/
theorem visit_namedCall (eval : Expr → EvalM Value) (t t' : Token) (name : String) (arg : Expr) :
    (Node.expr (.call t (.ident t' name) [arg])).visit (spliceCall eval) = do
      let v ← (Node.expr arg).visit (spliceCall eval)
      let handed := .expr (.call t (.ident t' name) [v.expr arg])
      let answer ← spliceCall eval handed
      return ⟨handed, answer⟩ := by
  have hname : (Node.expr (.ident t' name)).visit (spliceCall eval) =
      pure (Node.expr (.ident t' name)).unchanged := funext (visit_name eval t' name)
  rw [Node.visit_eq]
  simp only [Node.children, Expr.children, List.map_cons, List.map_nil, List.mapM_cons,
    List.mapM_nil, hname, pure_bind, bind_assoc]
  rfl

/-- A call that splices stops where its argument does. -/
theorem spliceCall_of_error {eval : Expr → EvalM Value} {span : Span} {stop : Stop}
    (hcall : unquotedArgument? t = some (span, arg)) (h : eval arg heap = .error stop) :
    spliceCall eval t heap = .error stop := by
  rw [spliceCall, hcall]
  exact bind_run_of_error h

/-- A quote is spliced as what it holds. -/
theorem spliceCall_of_quote {eval : Expr → EvalM Value} {span : Span} {handle : Handle}
    {node : Node} (hcall : unquotedArgument? t = some (span, arg))
    (h : eval arg heap = .ok (.quote handle node, heap₁)) :
    spliceCall eval t heap = .ok (node, heap₁) := by
  rw [spliceCall, hcall]
  exact bind_run h

/-- The text `quote(unquote(unquote(x)))`, wherever its tokens stand. -/
inductive Expr.QuotesTwice (x : String) : Expr → Prop where
  | intro {t t' u u' w w' z : Token} (hu : u'.literal = "unquote") (hw : w'.literal = "unquote") :
      QuotesTwice x (.call t (.ident t' "quote")
        [.call u (.ident u' "unquote") [.call w (.ident w' "unquote") [.ident z x]]])

/-- If `x` is bound to a quote of `quote(unquote(unquote(x)))`, this text
is evaluated again and again. -/
theorem Expr.QuotesTwice.runs_out {x : String} {handle : Handle} {e e' : Expr}
    (hbound : heap.lookup scope x = some (.quote handle (.expr e'))) (he' : e'.QuotesTwice x)
    (he : e.QuotesTwice x) (fuel : Nat) :
    evalExpr fuel scope e heap = .error .outOfFuel := by
  induction fuel generalizing e with
  | zero => rfl
  | succ fuel ih =>
      obtain @⟨t, t', u, u', w, w', z, hu, hw⟩ := he
      have houter (arg : Expr) : unquotedArgument? (.expr (.call u (.ident u' "unquote") [arg])) =
          some (u.span, arg) := if_pos hu
      have hinner : unquotedArgument? (.expr (.call w (.ident w' "unquote") [.ident z x])) =
          some (w.span, .ident z x) := if_pos hw
      rw [evalExpr_quote_eq, quoteNode, Node.transformM_eq_visit, map_eq_pure_bind]
      refine bind_run_of_error (bind_run_of_error ?_)
      rw [visit_namedCall, visit_namedCall]
      cases fuel with
      | zero =>
          refine bind_run_of_error ((bind_run (visit_name _ z x heap)).trans ?_)
          exact bind_run_of_error (spliceCall_of_error hinner rfl)
      | succ less =>
          -- The inner call is replaced by the text, and this is what the outer one evaluates.
          have hname : evalExpr (less + 1) scope (.ident z x) heap =
              .ok (.quote handle (.expr e'), heap) := evalExpr_of_lookup hbound less z
          refine (bind_run ((bind_run (visit_name _ z x heap)).trans
            (bind_run (spliceCall_of_quote hinner hname)))).trans ?_
          exact bind_run_of_error (spliceCall_of_error (houter e') (ih he'))

/-- The call of a name with one argument, by where it starts in a text
and where its parenthesis stands. -/
def Expr.callAt (name : String) (start paren : Nat) (arg : Expr) : Expr :=
  .call ⟨.leftParen, "(", ⟨paren, paren + 1⟩⟩ (.ident ⟨.ident, name, ⟨start, paren⟩⟩ name) [arg]

/-- The text `quote(unquote(unquote(x)))`, by where it starts. -/
def Expr.quoteTwiceAt (start : Nat) : Expr :=
  .callAt "quote" start (start + 5) <|
    .callAt "unquote" (start + 6) (start + 13) <|
      .callAt "unquote" (start + 14) (start + 21) <|
        .ident ⟨.ident, "x", ⟨start + 22, start + 23⟩⟩ "x"

/-- The expression quotes a splice of `x` in a splice. -/
theorem Expr.quotesTwice_quoteTwiceAt (start : Nat) : (quoteTwiceAt start).QuotesTwice "x" :=
  .intro rfl rfl

/-- It has no function in it. -/
theorem Expr.lambdaFree_quoteTwiceAt (start : Nat) :
    (Node.expr (quoteTwiceAt start)).LambdaFree :=
  lambdaFree_namedCall _ _ _ <| lambdaFree_namedCall _ _ _ <| lambdaFree_namedCall _ _ _ <|
    lambdaFree_ident _ _

/-- The tree of a program in which a name is bound to a quote of the
text, when nothing is bound to the name yet. -/
def keptSplices : Program :=
  [.letIn ⟨.letWord, "let", ⟨0, 3⟩⟩ "x" (.callAt "quote" 8 13 (.quoteTwiceAt 14)),
    .expr ⟨.ident, "typeof", ⟨43, 49⟩⟩ (.callAt "typeof" 43 49 (.quoteTwiceAt 50))]

/-- The program is what its source is parsed to. -/
theorem parse_keptSplices :
    (parse "let x = quote(quote(unquote(unquote(x)))); typeof(quote(unquote(unquote(x))))").program
      = keptSplices := by
  with_unfolding_all rfl

/-- It has no function in it either. -/
theorem lambdaFree_keptSplices : (Node.program keptSplices).LambdaFree := by
  refine Node.lambdaFree_iff.mpr ⟨rfl, List.forall_mem_cons.mpr ⟨?_, ?_⟩⟩
  · refine Node.lambdaFree_iff.mpr ⟨rfl, List.forall_mem_singleton.mpr ?_⟩
    exact Expr.lambdaFree_namedCall _ _ _ (Expr.lambdaFree_quoteTwiceAt 14)
  · refine List.forall_mem_singleton.mpr (Node.lambdaFree_iff.mpr ⟨rfl, ?_⟩)
    exact List.forall_mem_singleton.mpr
      (Expr.lambdaFree_namedCall _ _ _ (Expr.lambdaFree_quoteTwiceAt 50))

/-- In an empty scope, no call can be replaced, so the text is bound as
it is written; and then it is evaluated. -/
theorem keptSplices_reaches :
    let heap := (({} : Heap).newScope none).2
    ∃ handle heap₁, heap₁.lookup ⟨0⟩ "x" = some (.quote handle (.expr (.quoteTwiceAt 14))) ∧
      Reaches ⟨0⟩ (.program keptSplices) heap (.expr (.quoteTwiceAt 50)) heap₁ := by
  intro heap
  let heap₁ := heap.newHandle.2.bind ⟨0⟩ "x" (.quote ⟨0⟩ (.expr (.quoteTwiceAt 14)))
  have hlet : Passes ⟨0⟩ (.stmt (.letIn ⟨.letWord, "let", ⟨0, 3⟩⟩ "x"
      (.callAt "quote" 8 13 (.quoteTwiceAt 14)))) heap heap₁ := ⟨none, ⟨4, rfl⟩, rfl⟩
  have hcallee : Passes ⟨0⟩ (.expr (.ident ⟨.ident, "typeof", ⟨43, 49⟩⟩ "typeof")) heap₁ heap₁ :=
    ⟨some (.native .typeof), ⟨1, rfl⟩, rfl⟩
  exact ⟨⟨0⟩, heap₁, rfl, .inside (@Enters.program _ _ [_] _ _ _ (.cons hlet .nil)) <|
    .inside .expr <| .inside (@Enters.argument _ _ _ _ [] [] _ _ _ rfl hcallee .nil) .here⟩

/-! ### Termination -/

/-- A program in which no function and no macro is written ends, in a
fresh scope, if and only if splices are not nested in it without end.

There is nothing else that could keep it from ending. Splices can be
nested deeper than they are written, because an argument without a tree
leaves its call in the quote, and the call comes back into another
argument through a name.

In particular, a program ends if no call that splices stands in the
argument of another one, and none is the callee of a call. -/
theorem programs_without_functions_end (hfresh : heap.Fresh scope) {program : Program}
    (hfree : (Node.program program).LambdaFree) :
    ((∃ fuel v heap', evalProgram fuel scope program heap = .ok (v, heap')) ↔
        ¬NestsEndlessly scope (.program program) heap) ∧
      ((Node.program program).SplicesApart →
        ∃ fuel v heap', evalProgram fuel scope program heap = .ok (v, heap')) := by
  have hends : (∃ fuel v heap', evalProgram fuel scope program heap = .ok (v, heap')) ↔
      ¬NestsEndlessly scope (.program program) heap := by
    -- Without functions a run can only go on by quoting what it has quoted.
    rw [← returns_iff_not_nestsEndlessly hfree hfresh.functionFree]
    constructor
    · rintro ⟨fuel, v, heap', hrun⟩
      exact ⟨fuel, (v, heap'), hrun⟩
    · rintro ⟨fuel, ⟨v, heap'⟩, hrun⟩
      exact ⟨fuel, v, heap', hrun⟩
  exact ⟨hends, fun hapart => hends.mpr (hapart.not_nestsEndlessly scope heap)⟩

/-- A call is kept because `y` is not bound. It is spliced into another
quote, and is not evaluated again. -/
theorem programs_without_functions_end_kept :
    let t : Token := .eof 0
    let named (name : String) : Expr := .ident ⟨.ident, name, {}⟩ name
    let quoted (name : String) : Expr :=
      .call t (named "quote") [.call t (named "unquote") [named name]]
    let program : Program := [.letIn t "x" (quoted "y"), .expr t (quoted "x")]
    let heap := (({} : Heap).newScope none).2
    heap.Fresh ⟨0⟩ ∧ (Node.program program).LambdaFree ∧ (Node.program program).SplicesApart ∧
      ¬NestsEndlessly ⟨0⟩ (.program program) heap ∧
      ∃ fuel v heap', evalProgram fuel ⟨0⟩ program heap = .ok (v, heap') := by
  intro t named quoted program heap
  have hcall {name : String} {arg : Expr} (h : (Node.expr arg).LambdaFree) :
      (Node.expr (.call t (named name) [arg])).LambdaFree := Expr.lambdaFree_namedCall _ _ _ h
  have hfree : (Node.program program).LambdaFree := by
    have hquoted (name : String) : (Node.expr (quoted name)).LambdaFree :=
      hcall (hcall (Expr.lambdaFree_ident _ _))
    refine Node.lambdaFree_iff.mpr ⟨rfl, List.forall_mem_cons.mpr ⟨?_, ?_⟩⟩
    · exact Node.lambdaFree_iff.mpr ⟨rfl, List.forall_mem_singleton.mpr (hquoted "y")⟩
    · refine List.forall_mem_singleton.mpr (Node.lambdaFree_iff.mpr ⟨rfl, ?_⟩)
      exact List.forall_mem_singleton.mpr (hquoted "x")
  -- The first splice holds a name, and the second one, too: neither is inside the other.
  have hapart : (Node.program program).SplicesApart := by
    have hnamed (name : String) : (Node.expr (named name)).SplicesApart :=
      .of_not_call (by simp) (List.forall_mem_nil _)
    have hunquote (name : String) :
        (Node.expr (.call t (named "unquote") [named name])).SplicesApart := by
      refine .of_children ?_ ?_ (List.forall_mem_cons.mpr
        ⟨hnamed _, List.forall_mem_singleton.mpr (hnamed _)⟩)
      · rintro _ _ _ ⟨⟩
        rfl
      · rintro _ _ ⟨⟩
        exact Node.splicesNothing_ident _ _
    have hquoted (name : String) : (Node.expr (quoted name)).SplicesApart := by
      refine .of_children ?_ ?_ (List.forall_mem_cons.mpr
        ⟨hnamed _, List.forall_mem_singleton.mpr (hunquote _)⟩)
      · rintro _ _ _ ⟨⟩
        rfl
      · intro span arg hcall
        rw [unquotedArgument?, if_neg (by decide)] at hcall
        cases hcall
    refine .of_not_call (by simp) (List.forall_mem_cons.mpr ⟨?_, ?_⟩)
    · exact .of_not_call (by simp) (List.forall_mem_singleton.mpr (hquoted "y"))
    · refine List.forall_mem_singleton.mpr (.of_not_call (by simp) ?_)
      exact List.forall_mem_singleton.mpr (hquoted "x")
  have hfresh : heap.Fresh ⟨0⟩ := .newScope {}
  have hends := programs_without_functions_end hfresh hfree
  exact ⟨hfresh, hfree, hapart, hends.1.mp (hends.2 hapart), hends.2 hapart⟩

/-- Not every program without functions ends. Here an argument has no
tree, because its name is not bound yet, and so two calls are left in the
quote that the name is then bound to. -/
theorem kept_splices_nest_without_end :
    let source := "let x = quote(quote(unquote(unquote(x)))); typeof(quote(unquote(unquote(x))))"
    let heap := (({} : Heap).newScope none).2
    (parse source).errors = [] ∧ (Node.program (parse source).program).LambdaFree ∧
      heap.Fresh ⟨0⟩ ∧
      ¬∃ fuel v heap', evalProgram fuel ⟨0⟩ (parse source).program heap = .ok (v, heap') := by
  intro source heap
  rw [parse_keptSplices]
  refine ⟨by decide +kernel, lambdaFree_keptSplices, .newScope {}, ?_⟩
  rintro ⟨fuel, v, heap', hrun⟩
  obtain ⟨handle, heap₁, hbound, hreach⟩ := keptSplices_reaches
  -- What the program gets to has ended if the program has.
  have hreturns : Returns (evalPart fuel ⟨0⟩ (.program keptSplices)) heap := ⟨(v, heap'), hrun⟩
  obtain ⟨less, -, hends⟩ := hreach.descends hreturns
  obtain ⟨r, hends⟩ := returns_evalPart_expr.mp hends
  have hout := Expr.QuotesTwice.runs_out hbound (Expr.quotesTwice_quoteTwiceAt 14)
    (Expr.quotesTwice_quoteTwiceAt 50) less
  cases hout.symm.trans hends

end QuoteScript
