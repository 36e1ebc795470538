import Mathlib.Data.List.Forall2
import QuoteScript.Expansion.Expand
import QuoteScript.Proofs.Eval.Splicing
import QuoteScript.Proofs.Scope.Change
import QuoteScript.Proofs.Tree.Replace
import QuoteScript.Proofs.Tree.Telling

/-!
# `QuoteScript.Proofs.Expansion.Template`: macros that are templates

A macro whose body is one `quote` is a template if every call that
splices in it names a parameter. To expand a call of such a macro is to
substitute: the argument stands where the parameter was spliced, and
nothing else of the quoted tree changes. Other occurrences of the
parameters stay names, and nothing is spliced inside of the arguments.

Two passes take part in this. The pass over the program comes to the
call when the arguments have been visited. It evaluates the body in a
scope that binds the parameters to the arguments as quotes, and there
the pass over the quoted tree evaluates what is spliced.

* `Expr.IsTemplate`, `Expr.substitute`: templates and substitution.
* `quoteAll_run`, `bindAll_run`: the scope of the body.
* `quoteNode_run`: the pass over the quoted tree.
* `template_expands_to_substitution`: the call of a template.
-/

set_option autoImplicit false

namespace QuoteScript

open EvalM

/-! ### Templates -/

/-- The identifier or the string `unquote`. -/
def Expr.namesUnquote : Expr → Bool
  | .ident _ name => name = "unquote"
  | .str _ s => s = "unquote"
  | _ => false

/-- What a call that splices a name stands for, if the name is given an
expression. -/
def splicedName (given : List (String × Expr)) : Replacement
  | callee, [.ident _ name] => if callee.namesUnquote then given.lookup name else none
  | _, _ => none

/-- An expression with expressions in the place of names that are
spliced. -/
def Expr.substitute (given : List (String × Expr)) (e : Expr) : Expr :=
  e.replace (splicedName given)

/-- A tree in which every call that splices names a parameter, and is
not called itself. Its tokens tell what they stand for, like those of
all parsed trees. -/
structure Expr.IsTemplate (params : List String) (tree : Expr) : Prop where
  tells : Alike .telling (.expr tree) (.expr tree)
  names {callee arg : Expr} : (callee, [arg]) ∈ tree.calls → callee.namesUnquote →
    ∃ t, ∃ p ∈ params, arg = .ident t p
  uncalled {t : Token} {callee arg : Expr} {args : List Expr} :
    (.call t callee [arg], args) ∈ tree.calls → callee.namesUnquote = false

/-- No call in the expression is the call of a macro. -/
def Expr.CallsNoMacro (heap : Heap) (macros : ScopeId) (e : Expr) : Prop :=
  ∀ t name args, (.ident t name, args) ∈ e.calls → ∀ handle params body outer,
    heap.lookup macros name ≠ some (.closure .macroRule handle params body outer)

/-- The calls inside a part of a tree. -/
def Part.calls : Part → List (Expr × List Expr)
  | .expr e => e.calls
  | .exprs es => exprsCalls es
  | .pairs ps => pairsCalls ps
  | .branch b => elseCalls b
  | .block b => b.calls
  | .stmt s => s.calls
  | .body ss => bodyCalls ss

/-- If the tokens of a tree tell, they tell in every callee. -/
theorem Alike.callee_tells {part part' : Part} (h : Alike .telling part part') :
    ∀ call ∈ part.calls, ∃ callee', Alike .telling (.expr call.1) (.expr callee') := by
  induction h with
  | call _ hf _ ihf iha =>
      refine List.forall_mem_cons.mpr ⟨⟨_, hf⟩, ?_⟩
      exact List.forall_mem_append.mpr ⟨ihf, iha⟩
  | unary _ _ ih | lambda _ _ ih | array _ _ ih | dict _ _ ih | branch _ ih | block _ _ ih
  | letIn _ _ ih | ret _ _ ih | value _ _ ih => exact ih
  | binary _ _ _ ih ih' | index _ _ _ ih ih' | exprs _ _ ih ih' | stmts _ _ ih ih' =>
      exact List.forall_mem_append.mpr ⟨ih, ih'⟩
  | cond _ _ _ _ ih ih' ih'' | pairs _ _ _ ih ih' ih'' =>
      exact List.forall_mem_append.mpr ⟨ih, List.forall_mem_append.mpr ⟨ih', ih''⟩⟩
  | _ => exact fun _ hcall => nomatch hcall

/-- Where tokens tell, the callee that is written `unquote` is the
identifier or the string. -/
theorem Alike.literal_eq_unquote_iff {e e' : Expr} (h : Alike .telling (.expr e) (.expr e')) :
    e.token.literal = "unquote" ↔ e.namesUnquote := by
  cases h with
  | ident ht | str ht =>
      have hliteral := ht.1
      simp only [Token.Tells] at hliteral
      simp [Expr.token, Expr.namesUnquote, hliteral]
  | int ht | bool ht | unary ht _ | binary ht _ _ | cond ht _ _ _ | lambda ht _ | call ht _ _
  | array ht _ | index ht _ _ | dict ht _ =>
      exact iff_of_false ht.1 Bool.false_ne_true

/-- A name that is substituted for is the single argument of `unquote`,
and is given an expression. -/
theorem splicedName_eq_some {given : List (String × Expr)} {callee e : Expr} {args : List Expr}
    (h : splicedName given callee args = some e) :
    ∃ t name, args = [.ident t name] ∧ callee.namesUnquote ∧ given.lookup name = some e := by
  unfold splicedName at h
  split at h
  · next t name =>
      split at h
      · next hcallee => exact ⟨t, name, rfl, hcallee, h⟩
      · cases h
  · cases h

/-! ### Computations that leave the heap as it is -/

/-- What is answered without changing the heap. -/
def staying (heap : Heap) : Guarantee EvalM where
  gives x P := ∃ a, x heap = .ok (a, heap) ∧ P a
  pure h := ⟨_, rfl, h⟩
  bind hx hnext := by
    obtain ⟨a, hrun, ha⟩ := hx
    obtain ⟨b, hrun', hb⟩ := hnext a ha
    exact ⟨b, (bind_run hrun).trans hrun', hb⟩

/-- The same for computations that may fail besides, but do not. -/
def stayingOk (ε : Type) (heap : Heap) : Guarantee (ExceptT ε EvalM) where
  gives x P := ∃ a, x.run heap = .ok (.ok a, heap) ∧ P a
  pure h := ⟨_, rfl, h⟩
  bind hx hnext := by
    obtain ⟨a, hrun, ha⟩ := hx
    obtain ⟨b, hrun', hb⟩ := hnext a ha
    exact ⟨b, (bind_run_of_ok hrun).trans hrun', hb⟩

/-! ### The scope of the body -/

/-- A quote of an expression. -/
def Quotes (e : Expr) (v : Value) : Prop :=
  ∃ a, v = .quote a (.expr e)

/-- Quoting makes handles, and nothing else. -/
theorem quoteAll_run (es : List Expr) (heap : Heap) :
    ∃ values heap', quoteAll es heap = .ok (values, heap') ∧ heap'.frames = heap.frames ∧
      List.Forall₂ Quotes es values := by
  induction es generalizing heap with
  | nil => exact ⟨[], heap, rfl, rfl, .nil⟩
  | cons e rest ih =>
      obtain ⟨values, heap', hrun, hframes, hquotes⟩ := ih heap.newHandle.2
      refine ⟨.quote heap.newHandle.1 (.expr e) :: values, heap', ?_, hframes, ?_⟩
      · exact (bind_run (a := .quote heap.newHandle.1 (.expr e)) rfl).trans (bind_run hrun)
      · exact .cons ⟨_, rfl⟩ hquotes

/-- A name that is not in the first list is given nothing. -/
theorem lookup_zip_eq_none {α : Type} {names : List String} {name : String} (h : name ∉ names)
    (values : List α) : (names.zip values).lookup name = none := by
  rw [List.lookup_eq_none_iff]
  intro entry hentry
  have hmem : entry.1 ∈ names := (List.of_mem_zip hentry).1
  have hne : name ≠ entry.1 := fun heq => h (heq ▸ hmem)
  simpa using hne

/-- What names mean in a scope that they have been bound in. -/
theorem bindAll_run {names : List String} (hnames : names.Nodup) (values : List Value) {heap : Heap}
    {s : ScopeId} {frame : Frame} (hframe : heap.frame? s = some frame) :
    ∃ heap' frame', bindAll s names values heap = .ok ((), heap') ∧
      heap'.frame? s = some frame' ∧
      ∀ name, frame'.find? name = ((names.zip values).lookup name).or (frame.find? name) := by
  induction names generalizing values heap frame with
  | nil => exact ⟨heap, frame, rfl, hframe, fun _ => rfl⟩
  | cons first rest ih =>
      cases values with
      | nil => exact ⟨heap, frame, rfl, hframe, fun _ => rfl⟩
      | cons v values =>
          obtain ⟨hfirst, hrest⟩ := List.nodup_cons.mp hnames
          obtain ⟨heap', frame', hrun, hframe', hfind⟩ :=
            ih hrest values (Heap.frame?_bind_self hframe first v)
          refine ⟨heap', frame', hrun, hframe', fun name => ?_⟩
          rw [hfind name, Frame.find?_bind, List.zip_cons_cons, List.lookup_cons]
          -- No name is bound twice, so the first argument is not replaced by a later one.
          by_cases hname : name = first
          · subst hname
            simp [lookup_zip_eq_none hfirst]
          · rw [if_neg (Ne.symm hname), beq_eq_false_iff_ne.mpr hname]

/-- The names in the first list are given something. -/
theorem lookup_zip_of_mem {α : Type} {names : List String} {values : List α}
    (hlength : names.length = values.length) {name : String} (h : name ∈ names) :
    ∃ a, (names.zip values).lookup name = some a := by
  induction names generalizing values with
  | nil => cases h
  | cons first rest ih =>
      cases values with
      | nil => cases hlength
      | cons a values =>
          rw [List.zip_cons_cons, List.lookup_cons]
          by_cases hname : name = first
          · exact ⟨a, by rw [beq_iff_eq.mpr hname]⟩
          · rw [beq_eq_false_iff_ne.mpr hname]
            exact ih (Nat.succ.inj hlength) ((List.mem_cons.mp h).resolve_left hname)

/-- A parameter that is given an argument means the argument, quoted. -/
theorem lookup_zip_quotes {params : List String} {args : List Expr} {values : List Value}
    (h : List.Forall₂ Quotes args values) {name : String} {e : Expr}
    (he : (params.zip args).lookup name = some e) :
    ∃ v, (params.zip values).lookup name = some v ∧ Quotes e v := by
  induction h generalizing params with
  | nil => simp at he
  | @cons arg v args values hv _ ih =>
      cases params with
      | nil => cases he
      | cons p params =>
          rw [List.zip_cons_cons, List.lookup_cons] at he ⊢
          cases hname : name == p with
          | true =>
              rw [hname] at he
              cases he
              exact ⟨v, rfl, hv⟩
          | false =>
              rw [hname] at he
              exact ih he

/-- A scope in which names mean expressions, quoted. -/
def Heap.Gives (heap : Heap) (s : ScopeId) (given : List (String × Expr)) : Prop :=
  ∀ name e, given.lookup name = some e → ∃ v, heap.lookup s name = some v ∧ Quotes e v

/-- The scope that the body of a macro is evaluated in. -/
theorem bindAll_gives {params : List String} (hparams : params.Nodup) {args : List Expr}
    {values : List Value} (hvalues : List.Forall₂ Quotes args values) {heap : Heap} {s : ScopeId}
    {frame : Frame} (hframe : heap.frame? s = some frame) :
    ∃ heap', bindAll s params values heap = .ok ((), heap') ∧ heap'.Gives s (params.zip args) := by
  obtain ⟨heap', frame', hrun, hframe', hfind⟩ := bindAll_run hparams values hframe
  refine ⟨heap', hrun, fun name e he => ?_⟩
  obtain ⟨v, hv, hquotes⟩ := lookup_zip_quotes hvalues he
  refine ⟨v, Heap.lookup_of_find? hframe' ?_, hquotes⟩
  rw [hfind name, hv]
  rfl

/-! ### The quoted tree -/

section Quoted

variable {heap : Heap} {s : ScopeId} {given : List (String × Expr)}

/-- A name that is spliced gives way to its expression. -/
theorem spliceCall_run (hgives : heap.Gives s given) {name : String} {e : Expr}
    (he : given.lookup name = some e) {callee : Expr} (hcallee : callee.token.literal = "unquote")
    (fuel : Nat) (t t' : Token) :
    spliceCall (evalExpr (fuel + 1) s) (.expr (.call t callee [.ident t' name])) heap
      = .ok (.expr e, heap) := by
  obtain ⟨v, hlookup, a, rfl⟩ := hgives name e he
  have hunquoted : unquotedArgument? (.expr (.call t callee [.ident t' name]))
      = some (t.span, .ident t' name) := by rw [unquotedArgument?, if_pos hcallee]
  have heval : evalExpr (fuel + 1) s (.ident t' name) heap = .ok (.quote a (.expr e), heap) := by
    -- The name is bound to the quote of the argument, which is put in the place of the call.
    have hname : EvalM.lookup s name heap = .ok (some (.quote a (.expr e)), heap) := by
      rw [← hlookup]
      rfl
    exact bind_run hname
  rw [spliceCall, hunquoted]
  exact bind_run heval

variable {params : List String} {tree : Expr}

/-- A call in a template that does not splice does not splice either
once its parts have been substituted. -/
theorem Expr.IsTemplate.unquotedArgument?_eq_none {args : List Expr}
    (htree : tree.IsTemplate params) (hlength : params.length = args.length)
    {callee : Expr} {items : List Expr}
    (hcall : (callee, items) ∈ tree.calls)
    (hspliced : splicedName (params.zip args) callee items = none) (t : Token) :
    unquotedArgument? (.expr (.call t (callee.replace (splicedName (params.zip args)))
      (replaceExprs (splicedName (params.zip args)) items))) = none := by
  cases items with
  | nil => rfl
  | cons arg more =>
      cases more with
      | cons _ _ => rfl
      | nil =>
          -- A parameter would have been spliced.
          have hnames : callee.namesUnquote = false := by
            rw [← Bool.not_eq_true]
            intro hnames
            obtain ⟨t', p, hp, rfl⟩ := htree.names hcall hnames
            obtain ⟨e, he⟩ := lookup_zip_of_mem hlength hp
            simp [splicedName, hnames, he] at hspliced
          -- The callee is not a call that splices, so it keeps its token.
          have htoken : (callee.replace (splicedName (params.zip args))).token = callee.token := by
            refine Expr.token_replace fun t' inner more heq => ?_
            rw [Option.eq_none_iff_forall_ne_some]
            intro e he
            obtain ⟨t'', name, rfl, hinner, -⟩ := splicedName_eq_some he
            subst heq
            rw [htree.uncalled hcall] at hinner
            cases hinner
          obtain ⟨callee', hcallee'⟩ := Alike.callee_tells htree.tells _ hcall
          have hliteral := Alike.literal_eq_unquote_iff hcallee'
          have hne :
              (callee.replace (splicedName (params.zip args))).token.literal ≠ "unquote" := by
            rw [htoken]
            intro heq
            exact Bool.false_ne_true (hnames.symm.trans (hliteral.mp heq))
          rw [replaceExprs, replaceExprs, unquotedArgument?, if_neg hne]

/-- The pass over the quoted tree substitutes. -/
theorem transformM_spliceCall_run {args : List Expr} (htree : tree.IsTemplate params)
    (hlength : params.length = args.length) (hgives : heap.Gives s (params.zip args)) (fuel : Nat) :
    Node.transformM (spliceCall (evalExpr (fuel + 1) s)) (.expr tree) heap
      = .ok (.expr (tree.substitute (params.zip args)), heap) := by
  have hleaves : LeavesOthers (staying heap) (spliceCall (evalExpr (fuel + 1) s)) := by
    intro node hnode
    have hnone : unquotedArgument? node = none := by
      unfold unquotedArgument?
      split
      · exact absurd trivial hnode
      · rfl
    rw [spliceCall_of_none hnone]
    exact (staying heap).pure rfl
  have hcalls : ∀ call ∈ tree.calls, ReplacesCall (staying heap) (splicedName (params.zip args))
      (spliceCall (evalExpr (fuel + 1) s)) call := by
    rintro ⟨callee, items⟩ hcall t
    obtain ⟨callee', hcallee'⟩ := Alike.callee_tells htree.tells _ hcall
    have hliteral := Alike.literal_eq_unquote_iff hcallee'
    dsimp only at hliteral ⊢
    cases hspliced : splicedName (params.zip args) callee items with
    | some e =>
        obtain ⟨t', name, rfl, hnames, hlookup⟩ := splicedName_eq_some hspliced
        -- The callee and the argument have no parts.
        have hsame : callee.replace (splicedName (params.zip args)) = callee := by
          cases callee with
          | ident _ _ | str _ _ => rfl
          | _ => cases hnames
        rw [Expr.replace_call_of_some hspliced, hsame]
        exact ⟨_, spliceCall_run hgives hlookup (hliteral.mpr hnames) fuel t t', rfl⟩
    | none =>
        rw [Expr.replace_call_of_none hspliced]
        have hnone := htree.unquotedArgument?_eq_none hlength hcall hspliced t
        exact ⟨_, congrFun (spliceCall_of_none hnone) heap, rfl⟩
  obtain ⟨node, hrun, rfl⟩ := Node.transformM_replaces hleaves hcalls
  exact hrun

/-- The expression `quote(tree)` quotes the tree with its substitution. -/
theorem evalExpr_quote_run {args : List Expr} (htree : tree.IsTemplate params)
    (hlength : params.length = args.length) (hgives : heap.Gives s (params.zip args)) (fuel : Nat)
    (t t' : Token) :
    evalExpr (fuel + 2) s (.call t (.ident t' "quote") [tree]) heap
      = .ok (.quote heap.newHandle.1 (.expr (tree.substitute (params.zip args))),
          heap.newHandle.2) := by
  rw [evalExpr_quote_eq]
  exact bind_run (transformM_spliceCall_run htree hlength hgives fuel)

end Quoted

/-! ### Calls -/

section Calls

variable {heap : Heap} {params : List String} {tree : Expr} {args : List Expr}

/-- A block whose only statement is `quote(tree)`. -/
def quotingBlock (t₁ t₂ t₃ t₄ : Token) (tree : Expr) : Block :=
  .mk t₁ [.expr t₂ (.call t₃ (.ident t₄ "quote") [tree])]

/-- The body of a template quotes the tree with its substitution. -/
theorem evalClosureBody_template_run (hparams : params.Nodup) (htree : tree.IsTemplate params)
    (hlength : params.length = args.length) {values : List Value}
    (hvalues : List.Forall₂ Quotes args values) (outer : ScopeId) (fuel : Nat)
    (t₁ t₂ t₃ t₄ : Token) (heap : Heap) :
    ∃ a heap', evalClosureBody (evalExpr (fuel + 2)) params (quotingBlock t₁ t₂ t₃ t₄ tree) outer
        values heap
      = .ok (.quote a (.expr (tree.substitute (params.zip args))), heap') := by
  let made := heap.newScope (some outer)
  have hframe : made.2.frame? made.1 = some ⟨[], some outer⟩ := Array.getElem?_push_size
  obtain ⟨heap', hbound, hgives⟩ := bindAll_gives hparams hvalues hframe
  have hscope : EvalM.newScope (some outer) heap = .ok (made.1, made.2) := rfl
  -- The only statement of the body is the quote, and its value is the value of the call.
  have hquote := evalExpr_quote_run htree hlength hgives fuel t₃ t₄
  have hstmt : evalStmt (evalExpr (fuel + 2)) made.1
      (.expr t₂ (.call t₃ (.ident t₄ "quote") [tree])) heap'
      = .ok (some (.quote heap'.newHandle.1 (.expr (tree.substitute (params.zip args)))),
          heap'.newHandle.2) := bind_run hquote
  have hblock : evalBlock (evalExpr (fuel + 2)) made.1 (quotingBlock t₁ t₂ t₃ t₄ tree) heap'
      = .ok (some (.quote heap'.newHandle.1 (.expr (tree.substitute (params.zip args)))),
          heap'.newHandle.2) := bind_run hstmt
  refine ⟨heap'.newHandle.1, heap'.newHandle.2, ?_⟩
  rw [evalClosureBody, bind_run hscope, bind_run hbound, bind_run hblock]
  rfl

variable {macros : ScopeId}

/-- A node that is not the call of a macro stays as it is. -/
theorem expandCall_run_of_not_macro (eval : Evaluator) {node : Node}
    (h : ∀ name args, namedCall? node = some (name, args) → ∀ handle params body outer,
      heap.lookup macros name ≠ some (.closure .macroRule handle params body outer)) :
    (expandCall eval macros node).run heap = .ok (.ok node, heap) := by
  unfold expandCall
  cases hcall : namedCall? node with
  | none => rfl
  | some call =>
      obtain ⟨name, args⟩ := call
      have hlookup : EvalM.lookup macros name heap = .ok (heap.lookup macros name, heap) := rfl
      refine (bind_run_of_ok (lift_run hlookup)).trans ?_
      split
      · next hmacro => exact absurd hmacro (h name args hcall _ _ _ _)
      · rfl

/-- What calls no macro is its own expansion. -/
theorem visitExprs_expandCall_run (eval : Evaluator)
    (hargs : ∀ arg ∈ args, arg.CallsNoMacro heap macros) :
    (visitExprs (expandCall eval macros) args).run heap = .ok (.ok args, heap) := by
  have hleaves : LeavesOthers (stayingOk Misuse heap) (expandCall eval macros) := by
    intro node hnode
    refine ⟨node, expandCall_run_of_not_macro eval fun name args hcall => ?_, rfl⟩
    unfold namedCall? at hcall
    split at hcall
    · exact absurd trivial hnode
    · cases hcall
  -- The pass replaces calls by nothing: no argument calls a macro.
  let nothing : Replacement := fun _ _ => none
  have hcalls : ∀ call ∈ exprsCalls args,
      ReplacesCall (stayingOk Misuse heap) nothing (expandCall eval macros) call := by
    rintro ⟨callee, items⟩ hcall t
    rw [Expr.replace_call_of_none rfl, Expr.replace_none callee fun _ _ => rfl,
      replaceExprs_none items fun _ _ => rfl]
    refine ⟨_, expandCall_run_of_not_macro eval fun name more hnamed => ?_, rfl⟩
    obtain ⟨arg, harg, hmem⟩ := mem_exprsCalls.mp hcall
    cases callee with
    | ident t' name' =>
        cases hnamed
        exact hargs arg harg t' name items hmem
    | _ => cases hnamed
  obtain ⟨args', hrun, rfl⟩ := visitExprs_replaces hleaves args hcalls
  rw [hrun, replaceExprs_none args fun _ _ => rfl]

/-- A call of a macro gives way to the tree that its body quotes. -/
theorem expandCall_template_run {m : String} {handle : Handle} {outer : ScopeId}
    {t₁ t₂ t₃ t₄ : Token}
    (hm : heap.lookup macros m
      = some (.closure .macroRule handle params (quotingBlock t₁ t₂ t₃ t₄ tree) outer))
    (hparams : params.Nodup) (htree : tree.IsTemplate params)
    (hlength : params.length = args.length) (fuel : Nat) (t t' : Token) :
    ∃ heap', (expandCall (evalExpr (fuel + 2)) macros (.expr (.call t (.ident t' m) args))).run heap
      = .ok (.ok (.expr (tree.substitute (params.zip args))), heap') := by
  obtain ⟨values, heap₁, hquotes, -, hvalues⟩ := quoteAll_run args heap
  obtain ⟨a, heap', hbody⟩ := evalClosureBody_template_run hparams htree hlength hvalues outer fuel
    t₁ t₂ t₃ t₄ heap₁
  have hlookup : EvalM.lookup macros m heap
      = .ok (some (.closure .macroRule handle params (quotingBlock t₁ t₂ t₃ t₄ tree) outer),
          heap) := by
    rw [← hm]
    rfl
  -- The arguments are quoted, the body is evaluated and the quote is unpacked.
  refine ⟨heap', (bind_run_of_ok (lift_run hlookup)).trans ?_⟩
  dsimp only
  rw [if_pos hlength]
  refine (bind_run_of_ok (lift_run hquotes)).trans ((bind_run_of_ok (lift_run hbody)).trans ?_)
  rfl

/-- To expand a call of a template is to substitute. A name is bound to a
macro with distinct parameters whose body is one `quote` of a template,
and it is called with as many expressions, in which no macro is called.
Then the expansion of the call succeeds. The call gives way to the
quoted tree, with each argument in the place of the calls that splice
its parameter. -/
theorem template_expands_to_substitution {m : String} {handle : Handle} {outer : ScopeId}
    {t₁ t₂ t₃ t₄ : Token}
    (hm : heap.lookup macros m
      = some (.closure .macroRule handle params (quotingBlock t₁ t₂ t₃ t₄ tree) outer))
    (hparams : params.Nodup) (htree : tree.IsTemplate params)
    (hlength : params.length = args.length) (hargs : ∀ arg ∈ args, arg.CallsNoMacro heap macros)
    (fuel : Nat) (t t' : Token) :
    let call : Expr := .call t (.ident t' m) args
    let result := tree.substitute (params.zip args)
    ∃ heap', (Node.transformM (expandCall (evalExpr (fuel + 2)) macros) (.expr call)).run heap
        = .ok (.ok (.expr result), heap') ∧
      ∀ t'', (expandProgram (fuel + 2) macros [.expr t'' call]).run heap
        = .ok (.ok [.expr t'' result], heap') := by
  intro call result
  let f := expandCall (evalExpr (fuel + 2)) macros
  obtain ⟨heap', hcall⟩ := expandCall_template_run hm hparams htree hlength fuel t t'
  -- The pass comes to the call when its parts have been visited.
  have hcallee : ((Expr.ident t' m).visitParts f >>= exprPlace f).run heap
      = .ok (.ok (.ident t' m), heap) := rfl
  have hparts : (call.visitParts f).run heap = .ok (.ok call, heap) :=
    (bind_run_of_ok hcallee).trans (bind_run_of_ok (visitExprs_expandCall_run _ hargs))
  have hplaced : (call.visitParts f >>= exprPlace f).run heap = .ok (.ok result, heap') :=
    (bind_run_of_ok hparts).trans (bind_run_of_ok hcall)
  refine ⟨heap', (bind_run_of_ok (bind_run_of_ok hparts)).trans hcall, fun t'' => ?_⟩
  have hstmt : ((Stmt.expr t'' call).visitParts f >>= stmtPlace f).run heap
      = .ok (.ok (.expr t'' result), heap') := bind_run_of_ok (bind_run_of_ok hplaced)
  have hbody : (visitBody f [.expr t'' call]).run heap = .ok (.ok [.expr t'' result], heap') :=
    bind_run_of_ok hstmt
  have hvisit : (Node.visitParts f (.program [.expr t'' call])).run heap
      = .ok (.ok (.program [.expr t'' result]), heap') := bind_run_of_ok hbody
  have hpass : (Node.transformM f (.program [.expr t'' call])).run heap
      = .ok (.ok (.program [.expr t'' result]), heap') := bind_run_of_ok hvisit
  exact bind_run_of_ok hpass

/-- The template spells a parameter out, quotes another splice and
splices in the body of a function. One of the arguments splices
itself. -/
theorem template_expands_to_substitution_nested :
    let t : Token := .fixed .leftParen {}
    let splice (name : String) : Expr := .call t (.mkIdent "unquote") [.mkIdent name]
    let function : Expr := .lambda (.fixed .fnWord {}) .function ["b"]
      (.ofStmts [.expr t (.call t (.str ⟨.string, "unquote", {}⟩ "unquote") [.mkIdent "b"])])
    let tree : Expr := .array (.fixed .leftBracket {})
      [.mkIdent "a", .call t (.mkIdent "quote") [splice "a"], function]
    let args : List Expr :=
      [.call t (.mkIdent "unquote") [.mkInt 1], .mkBinary .add (.mkIdent "a") (.mkInt 2)]
    let heap : Heap := (({} : Heap).newScope none).2.bind ⟨0⟩ "m"
      (.closure .macroRule ⟨0⟩ ["a", "b"] (quotingBlock t t t t tree) ⟨0⟩)
    (∃ heap', (Node.transformM (expandCall (evalExpr 2) ⟨0⟩)
        (.expr (.call t (.mkIdent "m") args))).run heap =
      .ok (.ok (.expr (tree.substitute (["a", "b"].zip args))), heap')) ∧
      (tree.substitute (["a", "b"].zip args)).render
        = "[a, quote(unquote(1)), fn(b) \x7b (a + 2); \x7d]" := by
  intro t splice function tree args heap
  have hname (name : String) : Alike .telling (.expr (.mkIdent name)) (.expr (.mkIdent name)) :=
    telling_mkIdent name {} {}
  have hcall {f arg : Expr} (hf : Alike .telling (.expr f) (.expr f))
      (harg : Alike .telling (.expr arg) (.expr arg)) :
      Alike .telling (.expr (.call t f [arg])) (.expr (.call t f [arg])) :=
    .call (telling_fixed _ _ {} {}) hf (.exprs harg .noExprs)
  have hfunction : Alike .telling (.expr function) (.expr function) :=
    .lambda (telling_fixed _ _ {} {}) <| .block ⟨trivial, trivial⟩ <|
      .stmts (.value ⟨trivial, trivial⟩ (hcall (.str ⟨rfl, rfl⟩) (hname "b"))) .noStmts
  have hsplice : Alike .telling (.expr (splice "a")) (.expr (splice "a")) :=
    hcall (hname "unquote") (hname "a")
  have htells : Alike .telling (.expr tree) (.expr tree) :=
    .array (telling_fixed _ _ {} {}) <| .exprs (hname "a") <|
      .exprs (hcall (hname "quote") hsplice) (.exprs hfunction .noExprs)
  have hcalls : tree.calls = [(.mkIdent "quote", [splice "a"]),
      (.mkIdent "unquote", [.mkIdent "a"]),
      (.str ⟨.string, "unquote", {}⟩ "unquote", [.mkIdent "b"])] := rfl
  have htree : tree.IsTemplate ["a", "b"] := by
    refine ⟨htells, ?names, ?uncalled⟩
    case names =>
      intro callee arg hmem hnames
      simp only [hcalls, List.mem_cons, Prod.mk.injEq, List.cons.injEq, List.not_mem_nil] at hmem
      rcases hmem with ⟨rfl, -⟩ | ⟨-, rfl, -⟩ | ⟨-, rfl, -⟩ | hmem
      · cases hnames
      · exact ⟨_, "a", by simp, rfl⟩
      · exact ⟨_, "b", by simp, rfl⟩
      · cases hmem
    case uncalled =>
      intro t' callee arg more hmem
      simp [hcalls, Expr.mkIdent] at hmem
  have hargs : ∀ arg ∈ args, arg.CallsNoMacro heap ⟨0⟩ := by
    intro arg harg t' name more hmem
    obtain rfl | rfl : arg = .call t (.mkIdent "unquote") [.mkInt 1] ∨
        arg = .mkBinary .add (.mkIdent "a") (.mkInt 2) := by simpa [args] using harg
    · obtain ⟨⟨-, rfl⟩, -⟩ : (_ ∧ name = "unquote") ∧ _ := by
        simpa [Expr.calls, exprsCalls, Expr.mkIdent, Expr.mkInt] using hmem
      have hnone : heap.lookup ⟨0⟩ "unquote" = none := rfl
      simp [hnone]
    · cases hmem
  have hm : heap.lookup ⟨0⟩ "m"
      = some (.closure .macroRule ⟨0⟩ ["a", "b"] (quotingBlock t t t t tree) ⟨0⟩) := rfl
  obtain ⟨heap', hrun, -⟩ :=
    template_expands_to_substitution hm (by decide) htree rfl hargs 0 t ⟨.ident, "m", {}⟩
  exact ⟨⟨heap', hrun⟩, by decide +kernel⟩

end Calls

end QuoteScript
