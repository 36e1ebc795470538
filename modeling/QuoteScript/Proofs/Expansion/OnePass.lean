import QuoteScript.Proofs.Expansion.Recursion
import QuoteScript.Proofs.Expansion.Writes

/-!
# `QuoteScript.Proofs.Expansion.OnePass`: programs that one pass expands

A tree that takes the place of a call is not expanded again. If all
macros quote trees in which no macro is called, there is no need to: one
pass leaves no call of a macro behind, wherever it stood in the program
and in however many copies an argument was spliced.

There are two passes to follow. The one over the program comes to a call
when its arguments have been expanded. The one over the quoted tree puts
these arguments in the place of parameters. In both of them no node that
is rebuilt becomes the call of a macro unnoticed: in the quoted tree a
callee stays what it is, and in the program a callee may become the name
of a macro, but then the call is handed out after that.

* `Heap.QuotesMacroFree`: macros of this kind.
* `Visit.Expanded`: what is known of a visit in either pass.
* `MacroCall.value_callsNoMacro`: the tree that a macro gives.
* `one_pass_expands_everything`: programs.
-/

set_option autoImplicit false

namespace QuoteScript

open EvalM

/-- No node of a tree is the call of a macro. -/
def Node.CallsNoMacro (heap : Heap) (macros : ScopeId) (t : Node) : Prop :=
  ∀ node ∈ t.postorder, heap.macroCall? macros node = none

/-- A tree in which no macro is called, in which every call that splices
names a parameter, and in which no such call is the callee of a call. -/
structure Expr.IsMacroFree (heap : Heap) (macros : ScopeId) (params : List String) (tree : Expr) :
    Prop where
  callsNoMacro : (Node.expr tree).CallsNoMacro heap macros
  names {node : Node} {span : Span} {arg : Expr} : node ∈ (Node.expr tree).postorder →
    unquotedArgument? node = some (span, arg) → ∃ t, ∃ p ∈ params, arg = .ident t p
  uncalled : (Node.expr tree).CallsNoSplice

/-- All macros have distinct parameters, and a body that quotes one such
tree. -/
def Heap.QuotesMacroFree (heap : Heap) (macros : ScopeId) : Prop :=
  ∀ name handle params body outer,
    heap.lookup macros name = some (.closure .macroRule handle params body outer) →
      params.Nodup ∧ ∃ t₁ t₂ t₃ t₄ tree, body = quotingBlock t₁ t₂ t₃ t₄ tree ∧
        tree.IsMacroFree heap macros params

/-! ### Calls of macros in a tree -/

section Calls

variable {heap : Heap} {macros : ScopeId}

/-- The call of a name, with its arguments. -/
theorem of_namedCall? {node : Node} {name : String} {args : List Expr}
    (h : namedCall? node = some (name, args)) :
    ∃ t t', node = .expr (.call t (.ident t' name) args) := by
  unfold namedCall? at h
  split at h
  · cases h
    exact ⟨_, _, rfl⟩
  · cases h

/-- The name in front of a call. -/
theorem namedCall?_call (token : Token) (callee : Expr) (args : List Expr) :
    namedCall? (.expr (.call token callee args)) = (Node.expr callee).name?.map (·, args) := by
  cases callee <;> rfl

/-- Nothing but a call calls a macro. -/
theorem Heap.macroCall?_of_not_call {node : Node}
    (h : ∀ token callee args, node ≠ .expr (.call token callee args)) :
    heap.macroCall? macros node = none := by
  rw [Option.eq_none_iff_forall_ne_some]
  intro call hcall
  obtain ⟨token, t', hnode⟩ := of_namedCall? (of_macroCall? hcall).1
  exact h _ _ _ hnode

/-- Whether a call is one of a macro depends on the name only. -/
theorem Heap.macroCall?_call_congr {token token' : Token} {callee callee' : Expr}
    {args args' : List Expr} (hname : (Node.expr callee').name? = (Node.expr callee).name?)
    (h : heap.macroCall? macros (.expr (.call token callee args)) = none) :
    heap.macroCall? macros (.expr (.call token' callee' args')) = none := by
  rw [macroCall?, namedCall?_call] at h ⊢
  rw [hname]
  -- Only the name of what is called counts.
  cases hnamed : (Node.expr callee).name? with
  | none => rfl
  | some name =>
      rw [hnamed] at h
      simp only [Option.map_some] at h ⊢
      split at h
      · cases h
      · rfl

/-- A tree calls no macro if its root does not, nor any tree below. -/
theorem Node.CallsNoMacro.of_children {t : Node} (ht : heap.macroCall? macros t = none)
    (h : ∀ c ∈ t.children, c.CallsNoMacro heap macros) : t.CallsNoMacro heap macros := by
  intro node hnode
  rw [t.postorder_eq, List.mem_append, List.mem_flatMap, List.mem_singleton] at hnode
  obtain ⟨c, hc, hnode⟩ | rfl := hnode
  · exact h c hc node hnode
  · exact ht

end Calls

/-! ### The quoted tree -/

/-- What is answered, if anything, by computations that keep an invariant
of the heap. -/
def keepsIfOk (inv : Heap → Prop) : Guarantee EvalM where
  gives x P := ∀ heap a after, inv heap → x heap = .ok (a, after) → inv after ∧ P a
  pure h := by
    intro heap a after hinv hrun
    cases hrun
    exact ⟨hinv, h⟩
  bind hx hnext := by
    intro heap b after hinv hrun
    obtain ⟨a, heap₁, hfirst, hrest⟩ := bind_run_eq_ok hrun
    obtain ⟨hinv₁, ha⟩ := hx heap a heap₁ hinv hfirst
    exact hnext a ha heap₁ b after hinv₁ hrest

section Quoted

variable {heap : Heap} {macros : ScopeId} {params : List String} {tree : Expr}

/-- What is known of the visit of a node in either pass: everything fits
in its place, and no macro is called in the answer. -/
structure Visit.Expanded (heap : Heap) (macros : ScopeId) (t : Node) (v : Visit) : Prop extends
    v.FitsIn t where
  callsNoMacro : v.answer.CallsNoMacro heap macros

/-- What is known besides in the quoted tree: only calls that splice are
replaced. -/
structure Visit.Substituted (heap : Heap) (macros : ScopeId) (t : Node) (v : Visit) : Prop extends
    v.KeepsOthers t, v.Expanded heap macros t

/-- No macro is called below a node that is rebuilt. -/
theorem Node.children_callNoMacro {t : Node} {visits : List Visit}
    (h : List.Forall₂ (Visit.Expanded heap macros) t.children visits) :
    ∀ c ∈ (t.refill visits).children, c.CallsNoMacro heap macros := by
  have hfits : List.Forall₂ Visit.FitsIn t.children visits := h.imp fun _ _ hv => hv.toFitsIn
  rw [t.children_refill (fitAll_of_fitsIn hfits)]
  refine List.forall_mem_map.mpr fun v hv => ?_
  obtain ⟨c, hc⟩ := exists_of_mem_left h.flip hv
  exact hc.callsNoMacro

/-- A node of the quoted tree does not become the call of a macro when
its places are filled. -/
theorem Node.macroCall?_refill {t : Node} (hcalls : t.CallsNoSplice) {visits : List Visit}
    (h : List.Forall₂ Visit.KeepsOthers t.children visits)
    (ht : heap.macroCall? macros t = none) : heap.macroCall? macros (t.refill visits) = none := by
  obtain ⟨token, callee, args, rfl⟩ | hnocall := t.refill_call_cases visits
  · obtain ⟨callee', args', hrefill, -, -, hkept⟩ := Expr.refill_call h
    -- The callee is no call that splices, so the name in front stays.
    obtain ⟨parts, rfl⟩ := hkept (hcalls token callee args (Node.self_mem_postorder _))
    show heap.macroCall? macros (.expr (Expr.refill _ visits)) = none
    rw [hrefill]
    exact Heap.macroCall?_call_congr (callee.name?_refill parts) ht
  · exact Heap.macroCall?_of_not_call hnocall

/-- What a name is given is one of the values. -/
theorem mem_of_lookup_zip {α : Type} {names : List String} {values : List α} {name : String} {a : α}
    (h : (names.zip values).lookup name = some a) : a ∈ values := by
  obtain ⟨before, after, hzip, -⟩ := List.lookup_eq_some_iff.mp h
  have hmem : (name, a) ∈ names.zip values := by simp [hzip]
  exact (List.of_mem_zip hmem).2

/-- A call that splices a parameter, if it is evaluated, answers the
argument for this parameter. -/
theorem spliceCall_gives_argument {bindings : List (String × Expr)} {heap₁ : Heap} {s : ScopeId}
    (hgives : heap₁.Gives s bindings) {p : String} {e : Expr} (he : bindings.lookup p = some e)
    {callee : Expr} (hcallee : callee.token.literal = "unquote") (fuel : Nat) (token t : Token) :
    (keepsIfOk (· = heap₁)).gives
      (spliceCall (evalExpr fuel s) (.expr (.call token callee [.ident t p]))) (· = .expr e) := by
  intro _ answer after hheap hrun
  subst hheap
  cases fuel with
  | zero =>
      -- Without fuel the parameter is not looked up.
      rw [spliceCall, unquotedArgument?_call hcallee] at hrun
      obtain ⟨v, heap₂, hv, -⟩ := bind_run_eq_ok hrun
      cases hv
  | succ fuel =>
      cases (spliceCall_run hgives he hcallee fuel token t).symm.trans hrun
      exact ⟨rfl, rfl⟩

/-- The pass over the quoted tree, in a scope that binds the parameters to
trees in which no macro is called. -/
theorem visit_macroFree_gives (htree : tree.IsMacroFree heap macros params) {args : List Expr}
    (hlength : params.length = args.length)
    (hargs : ∀ arg ∈ args, (Node.expr arg).CallsNoMacro heap macros) {heap₁ : Heap} {s : ScopeId}
    (hgives : heap₁.Gives s (params.zip args)) (fuel : Nat) :
    (keepsIfOk (· = heap₁)).gives ((Node.expr tree).visit (spliceCall (evalExpr fuel s)))
      (Visit.Substituted heap macros (.expr tree)) := by
  refine Node.visit_gives fun node hnode visits hvisits => ?_
  have hkeeps : List.Forall₂ Visit.KeepsOthers node.children visits :=
    hvisits.imp fun _ _ hv => hv.toKeepsOthers
  have hexpanded : List.Forall₂ (Visit.Expanded heap macros) node.children visits :=
    hvisits.imp fun _ _ hv => hv.toExpanded
  have hcalls := htree.uncalled.of_mem hnode
  cases hsplices : unquotedArgument? node with
  | none =>
      -- The node is rebuilt from what has become of its children.
      rw [spliceCall_of_none (node.unquotedArgument?_refill hcalls hkeeps hsplices)]
      have hroot := Node.macroCall?_refill hcalls hkeeps (htree.callsNoMacro node hnode)
      refine (keepsIfOk (· = heap₁)).pure ?_
      exact {
        handed := node.fits_refill visits
        answer := .refl _
        kept := fun _ =>
          ⟨_, node.refill_eq_rebuild (answers_fit (fitsIn_of_keepsOthers hkeeps))⟩
        callsNoMacro := .of_children hroot (Node.children_callNoMacro hexpanded) }
  | some call =>
      obtain ⟨token, callee, arg, rfl, hcallee⟩ := unquotedArgument?_isSome (by rw [hsplices]; rfl)
      obtain ⟨t, p, hp, rfl⟩ := htree.names hnode (unquotedArgument?_call hcallee token arg)
      obtain ⟨parts, hrefill⟩ :=
        Expr.refill_call_ident hkeeps (hcalls token callee _ (Node.self_mem_postorder _))
      have hcallee' : (callee.refill parts).token.literal = "unquote" := by
        rw [Expr.token_refill, hcallee]
      -- The argument is the name of a parameter, which means one of the arguments.
      obtain ⟨e, he⟩ := lookup_zip_of_mem hlength hp
      show (keepsIfOk (· = heap₁)).gives (spliceCall _ (.expr (Expr.refill _ visits))) _
      rw [hrefill]
      refine Guarantee.mono (spliceCall_gives_argument hgives he hcallee' fuel token t) ?_
      rintro _ rfl
      exact {
        handed := Node.fits_refill _ visits
        answer := .expr (Expr.name?_refill _ visits) e
        kept := fun hnone => absurd (hsplices.symm.trans hnone) (Option.some_ne_none _)
        callsNoMacro := hargs e (mem_of_lookup_zip he) }

end Quoted

/-! ### The tree that a macro gives -/

section Calls

variable {heap : Heap} {macros : ScopeId} {params : List String} {tree : Expr}

/-- The expression `quote(tree)`, if it is evaluated, gives a quote of a
tree in which no macro is called. -/
theorem evalExpr_quote_callsNoMacro (htree : tree.IsMacroFree heap macros params)
    {args : List Expr} (hlength : params.length = args.length)
    (hargs : ∀ arg ∈ args, (Node.expr arg).CallsNoMacro heap macros) {heap₁ after : Heap}
    {s : ScopeId} (hgives : heap₁.Gives s (params.zip args)) {fuel : Nat} {t t' : Token} {v : Value}
    (hrun : evalExpr fuel s (.call t (.ident t' "quote") [tree]) heap₁ = .ok (v, after)) :
    ∃ a e, v = .quote a (.expr e) ∧ (Node.expr e).CallsNoMacro heap macros := by
  cases fuel with
  | zero => cases hrun
  | succ fuel =>
      rw [evalExpr_quote_eq, quoteNode_run_iff] at hrun
      obtain ⟨_, heap₂, ⟨visit, hvisit, rfl⟩, rfl, -⟩ := hrun
      -- The pass puts macro-free arguments into a macro-free tree.
      obtain ⟨-, hvisited⟩ :=
        visit_macroFree_gives htree hlength hargs hgives fuel heap₁ visit heap₂ rfl hvisit
      obtain ⟨e, he⟩ := (hvisited.handed.trans hvisited.answer).eq_expr
      exact ⟨_, e, by rw [he], he ▸ hvisited.callsNoMacro⟩

/-- The body of a macro, if it ends, gives a quote of a tree in which no
macro is called. -/
theorem MacroCall.value_callsNoMacro {call : MacroCall} {t₁ t₂ t₃ t₄ : Token}
    (hbody : call.body = quotingBlock t₁ t₂ t₃ t₄ tree) (hparams : call.params.Nodup)
    (htree : tree.IsMacroFree heap macros call.params)
    (hlength : call.params.length = call.args.length)
    (hargs : ∀ arg ∈ call.args, (Node.expr arg).CallsNoMacro heap macros) {fuel : Nat}
    {before after : Heap} {v : Value} (hrun : call.value fuel before = .ok (v, after)) :
    ∃ a e, v = .quote a (.expr e) ∧ (Node.expr e).CallsNoMacro heap macros := by
  obtain ⟨values, heap₁, hquotes, -, hvalues⟩ := quoteAll_run call.args before
  let made := heap₁.newScope (some call.outer)
  have hframe : made.2.frame? made.1 = some ⟨[], some call.outer⟩ := Array.getElem?_push_size
  obtain ⟨heap₂, hbound, hgives⟩ := bindAll_gives hparams hvalues hframe
  have hscope : EvalM.newScope (some call.outer) heap₁ = .ok (made.1, made.2) := rfl
  -- What is left of the run is the evaluation of `quote(tree)` and the value of the block.
  rw [MacroCall.value, bind_run hquotes, evalClosureBody, bind_run hscope, bind_run hbound,
    hbody] at hrun
  obtain ⟨last, heap₃, hblock, hvalue⟩ := bind_run_eq_ok hrun
  obtain ⟨_, heap₄, hstmt, hlast⟩ := bind_run_eq_ok hblock
  obtain ⟨w, heap₅, hquote, hsome⟩ := bind_run_eq_ok hstmt
  cases hsome
  obtain ⟨a, e, rfl, he⟩ := evalExpr_quote_callsNoMacro htree hlength hargs hgives hquote
  cases hlast
  cases hvalue
  exact ⟨a, e, rfl, he⟩

end Calls

/-! ### Programs -/

section Programs

variable {heap heap₁ after : Heap} {macros : ScopeId}

namespace Heap

/-- When scopes are made, the same calls stay calls of macros. -/
theorem Nested.macroCall?_of_extends (hheap : heap.Nested) (h : heap.Extends heap₁)
    (hscope : macros.number < heap.frames.size) (node : Node) :
    heap₁.macroCall? macros node = heap.macroCall? macros node := by
  simp only [macroCall?, hheap.lookup_of_extends h hscope]

end Heap

/-- No macro is called in what takes the place of the call of a macro. -/
theorem expandCall_macroCall_callsNoMacro (hmacros : heap.QuotesMacroFree macros)
    (hlookup : ∀ name, heap₁.lookup macros name = heap.lookup macros name)
    {fuel : Nat} {node answer : Node} {call : MacroCall}
    (hcall : heap₁.macroCall? macros node = some call)
    (hargs : ∀ arg ∈ call.args, (Node.expr arg).CallsNoMacro heap macros)
    (hrun : (expandCall (evalExpr fuel) macros node).run heap₁ = .ok (.ok answer, after)) :
    ∃ e, answer = .expr e ∧ (Node.expr e).CallsNoMacro heap macros := by
  obtain ⟨-, a, hfound⟩ := Heap.of_macroCall? hcall
  -- All macros of the scope quote trees without calls of macros.
  obtain ⟨hparams, t₁, t₂, t₃, t₄, tree, hbody, htree⟩ :=
    hmacros _ _ _ _ _ ((hlookup _).symm.trans hfound)
  rw [Heap.expandCall_run_of_macroCall? hcall] at hrun
  by_cases hlength : call.params.length = call.args.length
  · rw [if_pos hlength, ExceptT.run_bind_lift] at hrun
    obtain ⟨v, heap₂, hvalue, hanswer⟩ := bind_run_eq_ok hrun
    obtain ⟨_, e, rfl, he⟩ := call.value_callsNoMacro hbody hparams htree hlength hargs hvalue
    cases hanswer
    exact ⟨e, rfl, he⟩
  · rw [if_neg hlength] at hrun
    cases hrun

/-- The visit of a node of the program, given the visits of the
children. -/
theorem expandCall_gives (hheap : heap.Nested) (hscope : macros.number < heap.frames.size)
    (hmacros : heap.QuotesMacroFree macros) (fuel : Nat) {t : Node} {visits : List Visit}
    (h : List.Forall₂ (Visit.Expanded heap macros) t.children visits) :
    ((keepsIfOk heap.Extends).orFails Misuse).gives
      (expandCall (evalExpr fuel) macros (t.refill visits)) fun answer =>
        Visit.Expanded heap macros t ⟨t.refill visits, answer⟩ := by
  intro heap₁ result after hextends hrun
  have hbelow := Node.children_callNoMacro h
  have hfits := t.fits_refill visits
  have hsame := hheap.macroCall?_of_extends hextends hscope (t.refill visits)
  have hafter := (expandCall_extends (evalExpr_writes fuel) macros _ heap₁ result after hrun).1
  refine ⟨fun s frame hframe => hafter s frame (hextends s frame hframe), ?_⟩
  rintro answer rfl
  cases hcall : heap₁.macroCall? macros (t.refill visits) with
  | none =>
      -- A node that is rebuilt is not handed out again, but it is handed out after it was rebuilt.
      cases (Heap.expandCall_run_of_macroCall?_eq_none hcall _).symm.trans hrun
      exact ⟨⟨hfits, .refl _⟩, .of_children (hsame.symm.trans hcall) hbelow⟩
  | some call =>
      obtain ⟨token, t', hnode⟩ := of_namedCall? (Heap.of_macroCall? hcall).1
      have hargs : ∀ arg ∈ call.args, (Node.expr arg).CallsNoMacro heap macros := by
        intro arg harg
        rw [hnode] at hbelow
        exact hbelow _ (List.mem_cons_of_mem _ (List.mem_map_of_mem harg))
      have hlookup := hheap.lookup_of_extends hextends hscope
      obtain ⟨e, rfl, he⟩ := expandCall_macroCall_callsNoMacro hmacros hlookup hcall hargs hrun
      refine ⟨⟨hfits, ?_⟩, he⟩
      rw [hnode]
      exact .expr rfl e

/-- One pass expands everything if all macros quote trees in which no
macro is called. Each macro that is visible in the scope of macros has
distinct parameters, and its body is one `quote`. In the quoted tree no
name that is bound to a macro is called, every call that splices names a
parameter, and no such call is called itself.

Then no node of an expanded program is the call of a macro, in the heap
that there was and in the one that the expansion leaves behind. -/
theorem one_pass_expands_everything (hheap : heap.Nested)
    (hscope : macros.number < heap.frames.size) (hmacros : heap.QuotesMacroFree macros)
    {fuel : Nat} {program expanded : Program}
    (hrun : (expandProgram fuel macros program).run heap = .ok (.ok expanded, after)) :
    ∀ node ∈ (Node.program expanded).postorder,
      heap.macroCall? macros node = none ∧ after.macroCall? macros node = none := by
  have hpass : ((Node.program program).visit (expandCall (evalExpr fuel) macros)).run heap =
      .ok (.ok (Node.program expanded).unchanged, after) := by
    rw [visit_program, map_eq_pure_bind]
    exact bind_run_of_ok hrun
  -- This is the invariant of the pass: what it has answered calls no macro any more.
  have hexpanded : ((keepsIfOk heap.Extends).orFails Misuse).gives
      ((Node.program program).visit (expandCall (evalExpr fuel) macros))
      (Visit.Expanded heap macros (.program program)) :=
    Node.visit_gives fun t _ visits hvisits => expandCall_gives hheap hscope hmacros fuel hvisits
  obtain ⟨hextends, hvisit⟩ := hexpanded heap _ after (fun _ _ h => h) hpass
  intro node hnode
  have hnone := (hvisit _ rfl).callsNoMacro node hnode
  exact ⟨hnone, (hheap.macroCall?_of_extends hextends hscope node).trans hnone⟩

/-- The program `id(m)(1)`. The callee becomes the name of a macro when
the inner call is expanded. -/
theorem one_pass_expands_everything_callee :
    let t : Token := .fixed .leftParen {}
    let splice (name : String) : Expr := .call t (.mkIdent "unquote") [.mkIdent name]
    let id : Value := .closure .macroRule ⟨0⟩ ["x"] (quotingBlock t t t t (splice "x")) ⟨0⟩
    let m : Value := .closure .macroRule ⟨1⟩ ["y"]
      (quotingBlock t t t t (.mkBinary .add (splice "y") (.mkInt 1))) ⟨0⟩
    let heap : Heap := ((({} : Heap).newScope none).2.bind ⟨0⟩ "id" id).bind ⟨0⟩ "m" m
    let program : Program :=
      [.expr t (.call t (.call t (.mkIdent "id") [.mkIdent "m"]) [.mkInt 1])]
    ∃ expanded after, (expandProgram 3 ⟨0⟩ program).run heap = .ok (.ok expanded, after) ∧
      Program.render expanded = "(1 + 1);" ∧
      ∀ node ∈ (Node.program expanded).postorder,
        heap.macroCall? ⟨0⟩ node = none ∧ after.macroCall? ⟨0⟩ node = none := by
  intro t splice id m heap program
  have hrun : ∃ after, (expandProgram 3 ⟨0⟩ program).run heap =
      .ok (.ok [.expr t (.mkBinary .add (.mkInt 1) (.mkInt 1))], after) := ⟨_, rfl⟩
  obtain ⟨after, hrun⟩ := hrun
  have hheap : heap.Nested := by
    rintro ⟨_ | i⟩ frame hframe p hp
    · cases hframe
      cases hp
    · cases hframe
  have hlookup (name : String) : heap.lookup ⟨0⟩ name =
      if name = "id" then some id else if name = "m" then some m else none := by
    by_cases hid : name = "id"
    · rw [hid]
      rfl
    · by_cases hm : name = "m"
      · rw [hm]
        rfl
      · rw [if_neg hid, if_neg hm]
        simp [heap, Heap.lookup, Heap.lookupFrom, Heap.frame?, Heap.bind, Heap.newScope,
          Frame.find?, Frame.bind, Frame.put, Ne.symm hid, Ne.symm hm]
  have hnone (name : String) : heap.macroCall? ⟨0⟩ (.expr (splice name)) = none := by
    rw [Heap.macroCall?]
    simp [splice, namedCall?, hlookup, Expr.mkIdent]
  -- In both trees, the only calls are those that splice a parameter.
  have hfree {params : List String} {tree : Expr}
      (h : ∀ node ∈ (Node.expr tree).postorder,
        (∀ token callee args, node ≠ .expr (.call token callee args)) ∨
          ∃ p ∈ params, node = .expr (splice p)) : tree.IsMacroFree heap ⟨0⟩ params := by
    refine ⟨?callsNoMacro, ?names, ?uncalled⟩
    case callsNoMacro =>
      intro node hnode
      obtain hcall | ⟨p, -, rfl⟩ := h node hnode
      · exact Heap.macroCall?_of_not_call hcall
      · exact hnone p
    case names =>
      intro node span arg hnode hunquoted
      obtain hcall | ⟨p, hp, rfl⟩ := h node hnode
      · rw [unquotedArgument?_of_not_call hcall] at hunquoted
        cases hunquoted
      · cases hunquoted
        exact ⟨_, p, hp, rfl⟩
    case uncalled =>
      intro token callee args hnode
      obtain hcall | ⟨p, -, heq⟩ := h _ hnode
      · exact absurd rfl (hcall _ _ _)
      · cases heq
        rfl
  have hsplice (name : String) : (Node.expr (splice name)).postorder =
      [.expr (.mkIdent "unquote"), .expr (.mkIdent name), .expr (splice name)] := by
    simp [splice, Node.postorder_eq, Node.children, Expr.children, Expr.mkIdent]
  have hsum : (Node.expr (.mkBinary .add (splice "y") (.mkInt 1))).postorder =
      [.expr (.mkIdent "unquote"), .expr (.mkIdent "y"), .expr (splice "y"), .expr (.mkInt 1),
        .expr (.mkBinary .add (splice "y") (.mkInt 1))] := by
    simp [splice, Node.postorder_eq, Node.children, Expr.children, Expr.mkIdent, Expr.mkBinary,
      Expr.mkInt]
  have hmacros : heap.QuotesMacroFree ⟨0⟩ := by
    intro name handle params body outer hfound
    rw [hlookup] at hfound
    split at hfound
    · obtain ⟨-, -, rfl, rfl, rfl⟩ := Value.closure.inj (Option.some.inj hfound)
      refine ⟨by decide, t, t, t, t, splice "x", rfl, hfree ?_⟩
      rw [hsplice]
      simp [splice, Expr.mkIdent]
    · split at hfound
      · obtain ⟨-, -, rfl, rfl, rfl⟩ := Value.closure.inj (Option.some.inj hfound)
        refine ⟨by decide, t, t, t, t, .mkBinary .add (splice "y") (.mkInt 1), rfl, hfree ?_⟩
        rw [hsum]
        simp [splice, Expr.mkIdent, Expr.mkBinary, Expr.mkInt]
      · cases hfound
  refine ⟨_, after, hrun, by decide +kernel, ?_⟩
  exact one_pass_expands_everything hheap Nat.one_pos hmacros hrun

end Programs

end QuoteScript
