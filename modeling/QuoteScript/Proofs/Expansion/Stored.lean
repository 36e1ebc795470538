import QuoteScript.Expansion.Expand
import QuoteScript.Proofs.Eval.Stored

/-!
# `QuoteScript.Proofs.Expansion.Stored`: expansion keeps what is stored in order

The invariant of evaluation is the invariant of expansion, too. A macro
is a closure whose body is part of the program, its arguments are
quotes of parts of the program, and what takes the place of a call is
held by a quote. So trees over the lexicon expand to trees over the
lexicon, and what an expansion binds may be stored, whether it fails or
not.

* `defineMacros_safe`: the definitions of a program.
* `expandCall_preserves`: one call.
* `expandProgram_safe`: a program. What comes out is a program, so an
  expansion never meets a defect.
-/

set_option autoImplicit false

namespace QuoteScript

variable {L : Lexicon}

/-- `x` keeps everything that is bound in order, whether it fails or
not. Its answer, if it does not fail, has the property `P`. -/
abbrev SafeOrFails {ε α : Type} (L : Lexicon) (x : ExceptT ε EvalM α) (P : α → Prop) : Prop :=
  EvalM.KeepsOk (Heap.Over L) x P

/-! ### Definitions -/

/-- The parameters and the body of a macro are parts of its
definition. -/
theorem over_of_macroDefinition? {s : Stmt} {name : String} {params : List String} {body : Block}
    (h : macroDefinition? s = some (name, params, body)) (hs : s.Over L) :
    (∀ name ∈ params, L.name name) ∧ body.Over L := by
  unfold macroDefinition? at h
  split at h
  · cases h
    exact hs.2
  · cases h

/-- Taking the definitions out leaves statements of the program, and
binds what may be stored. -/
theorem defineMacros_safe (macros : ScopeId) {program : Program} (h : bodyOver L program) :
    Safe L (defineMacros macros program) (bodyOver L) := by
  induction program with
  | nil => exact .pure trivial
  | cons s rest ih =>
      obtain ⟨hs, hrest⟩ := h
      rw [defineMacros]
      cases hdef : macroDefinition? s with
      | none => exact (ih hrest).bind fun rest' hrest' => .pure ⟨hs, hrest'⟩
      | some definition =>
          obtain ⟨name, params, body⟩ := definition
          obtain ⟨hparams, hbody⟩ := over_of_macroDefinition? hdef hs
          -- The definition is taken out of the program and its parts go into the heap.
          refine (Safe.newClosure .macroRule macros hparams hbody).bind fun v hv => ?_
          exact (Safe.bindName macros name hv).bind fun _ _ => ih hrest

/-! ### Calls -/

/-- The arguments of a call are parts of it. -/
theorem over_of_namedCall? {node : Node} {name : String} {args : List Expr}
    (h : namedCall? node = some (name, args)) (hnode : node.Over L) : exprsOver L args := by
  unfold namedCall? at h
  split at h
  · cases h
    exact hnode.2
  · cases h

/-- Quotes of arguments over the lexicon. -/
theorem quoteAll_safe {es : List Expr} (hes : exprsOver L es) :
    Safe L (quoteAll es) (itemsOver L) := by
  induction es with
  | nil => exact .pure trivial
  | cons e rest ih =>
      have hquotable : (Node.expr e).Quotable L := ⟨hes.1, .inl ⟨e, rfl⟩⟩
      refine (Safe.newQuote hquotable).bind fun v hv => ?_
      exact (ih hes.2).bind fun values hvalues => .pure ⟨hv, hvalues⟩

/-- The tree of a quote that a macro body answers. -/
theorem over_of_quotedTree {name : String} {v : Value} {tree : Node}
    (h : quotedTree name v = .ok tree) (hv : v.Answer L) : tree.Over L := by
  unfold quotedTree at h
  split at h
  · cases h
    cases hv with
    | stored hv => exact hv.1
  · cases h
  · cases h

/-- A call of a macro is replaced by a tree over the lexicon. -/
theorem expandCall_preserves {eval : Evaluator} (heval : SafeEvaluator L eval) (macros : ScopeId) :
    Preserves (EvalM.keepsOk Misuse (Heap.Over L)) L (expandCall eval macros) := by
  intro node hnode
  show SafeOrFails L (expandCall eval macros node) (Node.Over L)
  unfold expandCall
  cases hcall : namedCall? node with
  | none => exact .pure hnode
  | some call =>
      obtain ⟨name, args⟩ := call
      have hargs := over_of_namedCall? hcall hnode
      refine (EvalM.KeepsOk.lift (Safe.lookup macros name)).bind fun found hfound => ?_
      -- A name that is bound to no macro is left to evaluation.
      split
      · next handle params body outer =>
          obtain ⟨-, hbody⟩ := hfound _ rfl
          by_cases hcount : params.length = args.length
          · rw [if_pos hcount]
            refine (EvalM.KeepsOk.lift (quoteAll_safe hargs)).bind fun quotes hquotes => ?_
            have hanswer :
                Safe L (evalClosureBody eval params body outer quotes) (Value.Answer L) :=
              evalClosureBody_safe heval hbody outer hquotes
            refine (EvalM.KeepsOk.lift hanswer).bind fun v hv => ?_
            -- Only a quote has a tree, and its tree is over the lexicon.
            cases htree : quotedTree name v with
            | ok tree => exact .pure (over_of_quotedTree htree hv)
            | error misuse => exact .throw
          · rw [if_neg hcount]
            exact .throw
      · exact .pure hnode

/-! ### Programs -/

/-- A program over the lexicon is expanded to a program over the
lexicon. -/
theorem expandProgram_safe (hL : L.Splices) (fuel : Nat) (macros : ScopeId) {program : Program}
    (h : bodyOver L program) :
    SafeOrFails L (expandProgram fuel macros program) (bodyOver L) := by
  have hpreserves := expandCall_preserves (evalExpr_safe hL fuel) macros
  -- The root is the program itself, and a program is no call.
  have hpass := Node.transformM_program_gives hpreserves h
    (P := fun node => ∃ program', node = .program program' ∧ bodyOver L program')
    fun program' hprogram' => EvalM.KeepsOk.pure ⟨program', rfl, hprogram'⟩
  refine EvalM.KeepsOk.bind hpass ?_
  rintro _ ⟨program', rfl, hprogram'⟩
  exact EvalM.KeepsOk.lift (.pure hprogram')

end QuoteScript
