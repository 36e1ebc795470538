import QuoteScript.Proofs.Scope.Detachment
import QuoteScript.Proofs.Session.Dump

/-!
# `QuoteScript.Proofs.Session.FunctionBody`: a program as a function body

A program means the same at the top level and as the body of a function
that is called at once. The two are evaluated differently: a program in
the scope of the run, a body in a scope of its own, which every closure
in it captures. But nothing is bound in the scope of the run then, so
the scope of the body might as well have no parent, and two scopes that
bind nothing and have no parent correspond.

* `Program.called`: the program `fn() { … }()`.
* `evalProgram_called`: what a run of it evaluates.
* `evalBody_inner`: statements in two fresh scopes, the second one inside
  of an empty scope.
* `function_body_means_the_same`: both directions, and the answers.
-/

set_option autoImplicit false

namespace QuoteScript

open EvalM

/-- The program whose only statement calls a function without parameters
whose body is the given program. -/
def Program.called (program : Program) : Program :=
  let literal := Expr.lambda (.fixed .fnWord {}) .function [] (.ofStmts program)
  [.expr literal.token (.call (.fixed .leftParen {}) literal [])]

variable {program program' : Program} {ρ : Pairing} {scope : ScopeId} {heap heap' : Heap}

/-! ### The tree -/

/-- A well-formed program is a well-formed body. -/
theorem Program.WellFormed.called (h : program.WellFormed) : program.called.WellFormed :=
  ⟨⟨⟨List.forall_mem_nil _, h⟩, trivial⟩, trivial⟩

/-- Alike programs are alike as the bodies of functions that are called. -/
theorem ProgramsAlike.called (h : ProgramsAlike program program') :
    ProgramsAlike program.called program'.called :=
  .stmts (.value ⟨trivial, trivial⟩ (.call (telling_fixed _ _ {} {})
    (.lambda (telling_fixed _ _ {} {}) (.block ⟨trivial, trivial⟩ h)) .noExprs)) .noStmts

/-- What is like a called program is one, up to tokens. -/
theorem ProgramsAlike.of_called (h : ProgramsAlike program.called program') :
    ∃ t t₁ t₂ t₃ body,
      program' = [.expr t (.call t₁ (.lambda t₂ .function [] (.mk t₃ body)) [])] ∧
        ProgramsAlike program body := by
  cases h with
  | stmts hst hrest =>
      cases hrest
      -- Each layer of the call is of one form only.
      cases hst with
      | value _ he =>
          cases he with
          | call _ hf hargs =>
              cases hargs
              cases hf with
              | lambda _ hbody =>
                  cases hbody with
                  | block _ hbody => exact ⟨_, _, _, _, _, rfl, hbody⟩

/-! ### Evaluation -/

section Called

variable (t t₁ t₂ t₃ : Token) (body : List Stmt)

/-- The value of the only statement is the value of the program. -/
theorem evalBody_singleton (eval : Evaluator) (scope : ScopeId) (last : Option Value) (st : Stmt) :
    evalBody eval scope last [st] = evalStmt eval scope st := by
  have hlast (v : Option Value) : (if unwinds v then pure v else evalBody eval scope v []) =
      (pure v : EvalM (Option Value)) := by
    rw [evalBody]
    exact ite_self _
  show (evalStmt eval scope st >>= fun v => if unwinds v then pure v else evalBody eval scope v [])
    = _
  rw [funext hlast, bind_pure]

/-- A called program makes a closure and a scope, and evaluates the body
there. -/
theorem evalProgram_called (fuel : Nat) (scope : ScopeId) :
    evalProgram (fuel + 2) scope
        [.expr t (.call t₁ (.lambda t₂ .function [] (.mk t₃ body)) [])] = do
      let _ ← EvalM.newHandle
      let inner ← EvalM.newScope (some scope)
      let v ← evalBody (evalExpr (fuel + 1)) inner none body
      return some ((v.map Value.unwrapReturn).getD .null).unwrapReturn := by
  rw [evalProgram, evalBody_singleton]
  simp only [evalStmt, evalExpr, evalWith, quotedArgument?, unlessUnwinding, EvalM.newClosure,
    evalAll, applyValue, evalClosureBody, EvalM.bindAll, evalBlock, Block.body, Value.isUnwinding,
    bind_assoc, pure_bind, List.length_nil, if_true, Bool.false_eq_true, if_false, Option.map_some]

/-- Without fuel for the call and for the literal, it stops. -/
theorem fuel_of_evalProgram_called {fuel : Nat} {r : Option Value × Heap}
    (h : evalProgram fuel scope [.expr t (.call t₁ (.lambda t₂ .function [] (.mk t₃ body)) [])]
      heap = .ok r) : ∃ less, fuel = less + 2 := by
  match fuel, h with
  | 0, h => cases h
  | 1, h => cases h
  | less + 2, _ => exact ⟨less, rfl⟩

end Called

/-! ### Two fresh scopes -/

/-- No answer of a program is a pending return. -/
theorem Value.Answer.kind_ne_returned {L : Lexicon} {v : Value} (h : v.Answer L) :
    v.kind ≠ .returned := by
  cases h with
  | fault f => exact nofun
  | stored hover =>
      cases v with
      | returned _ => exact hover.elim
      | closure kind => cases kind <;> exact nofun
      | _ => exact nofun

/-- Behind a run with a fresh scope no `return` is pending. -/
theorem evalBody_kind_ne_returned {fuel : Nat} (h : ProgramsAlike program program')
    (hfresh : heap.Fresh scope) {v : Value} {after : Heap}
    (hrun : evalBody (evalExpr fuel) scope none program heap = .ok (some v, after)) :
    v.unwrapReturn.kind ≠ .returned := by
  -- The same statements in a heap that holds nothing else.
  let clean : Heap := (({} : Heap).newScope none).2
  have hsimulates := evalBody_simulates (evalExpr_simulates fuel)
    (Pairing.scope_ofScopes scope ⟨0⟩) .none h
  obtain ⟨o, _, ρ', hrun', -, -, ho⟩ :=
    hsimulates.of_run (hfresh.corresponds (.newScope {} : clean.Fresh ⟨0⟩)) hrun
  have hlast : OptionalOutcome .full none := nofun
  have hsafe := evalBody_safe (evalExpr_safe Lexicon.closed_full.splices fuel) ⟨0⟩
    (bodyOver_full program') hlast
  obtain ⟨-, houtcome⟩ := hsafe.of_run (Heap.over_empty.newScope none) hrun'
  cases ho with
  | @some _ v' hv =>
      rw [hv.unwrapReturn.kind]
      exact (houtcome v' rfl).unwrapReturn.kind_ne_returned

/-- Statements are evaluated in step in a fresh scope and in a new scope
inside of an empty one, which stays empty. -/
theorem evalBody_inner (fuel : Nat) (h : ProgramsAlike program program')
    (hfresh : heap.Fresh scope) {outer : ScopeId} (hempty : heap'.Fresh outer) :
    match evalBody (evalExpr fuel) scope none program heap with
    | .ok (v, _) => ∃ v' after', evalBody (evalExpr fuel) ⟨heap'.frames.size⟩ none program'
        (heap'.newScope (some outer)).2 = .ok (v', after') ∧
        (∃ ρ, OptionCorresponds ρ v v') ∧ after'.Fresh outer
    | .error stop => evalBody (evalExpr fuel) ⟨heap'.frames.size⟩ none program'
        (heap'.newScope (some outer)).2 = .error stop := by
  let inner : ScopeId := ⟨heap'.frames.size⟩
  have hdetached := Heap.Detached.of_newScope hempty
  -- Without its parent the inner scope is fresh, and corresponds to the one of the program.
  have hsimulates := evalBody_simulates (evalExpr_simulates fuel)
    (Pairing.scope_ofScopes scope inner) .none h heap (heap'.newScope none).2
    (hfresh.corresponds (.newScope heap'))
  have hdetach := Tandem.evalBody ((detachment outer inner).tandem.evalExpr fuel)
    (w := ()) (s := inner) hdetached.ne.symm .none program'
  cases hrun : evalBody (evalExpr fuel) scope none program heap with
  | error stop =>
      rw [hrun] at hsimulates
      cases hinner :
        evalBody (evalExpr fuel) inner none program' (heap'.newScope (some outer)).2 with
      | error stop' =>
          cases (hdetach.of_stop hdetached hinner).symm.trans hsimulates
          rfl
      | ok r =>
          obtain ⟨_, _, _, hrun', -⟩ := hdetach.of_run hdetached hinner
          cases hrun'.symm.trans hsimulates
  | ok r =>
      rw [hrun] at hsimulates
      obtain ⟨v', after', ρ', hrun', -, -, hv⟩ := hsimulates
      obtain ⟨o, after, _, hinner, -, hafter, ho⟩ := hdetach.of_run' hdetached hrun'
      cases ho with
      | of _ =>
          refine ⟨o, after, hinner, ⟨ρ', ?_⟩, hafter.empty⟩
          rwa [map_rename_id] at hv

/-! ### Runs -/

/-- There is nothing to unwrap in any other value. -/
theorem Value.unwrapReturn_of_kind {v : Value} (h : v.kind ≠ .returned) : v.unwrapReturn = v := by
  cases v with
  | returned v => exact absurd rfl h
  | _ => rfl

section Runs

variable {t t₁ t₂ t₃ : Token} {body : List Stmt} {outer : ScopeId}

/-- If a program ends, so does a called one, which takes fuel for two
more levels. -/
theorem evalProgram_called_of_ok (h : ProgramsAlike program body) (hfresh : heap.Fresh scope)
    (hempty : heap'.Fresh outer) {fuel : Nat} {v : Option Value} {after : Heap}
    (hrun : evalProgram fuel scope program heap = .ok (v, after)) :
    ∃ v' after', evalProgram (fuel + 2) outer
        [.expr t (.call t₁ (.lambda t₂ .function [] (.mk t₃ body)) [])] heap' =
          .ok (some v', after') ∧ (v.getD .null).Reads v' ∧ after'.Fresh outer := by
  obtain ⟨o, heap₁, hbody, hv⟩ := bind_run_eq_ok hrun
  cases hv
  -- The body is evaluated with fuel for one level less than the program it is called in.
  have hmore := (evalBody_below (evalExpr_below (Nat.le_succ fuel)) scope none program).ok hbody
  have hempty' : heap'.newHandle.2.Fresh outer := hempty
  have hinner := evalBody_inner (fuel + 1) h hfresh hempty'
  rw [hmore] at hinner
  obtain ⟨o', after', hrun', ⟨ρ, ho⟩, hafter⟩ := hinner
  refine ⟨((o'.map Value.unwrapReturn).getD .null).unwrapReturn, after', ?_, ?_, hafter⟩
  · rw [evalProgram_called]
    have hhandle : EvalM.newHandle heap' = .ok heap'.newHandle := rfl
    have hscope : EvalM.newScope (some outer) heap'.newHandle.2 =
      .ok (heap'.newHandle.2.newScope (some outer)) := rfl
    exact (bind_run hhandle).trans ((bind_run hscope).trans (bind_run hrun'))
  · cases ho with
    | none => exact ⟨rfl, rfl⟩
    | @some u u' hu =>
        have hkind : u'.unwrapReturn.kind ≠ .returned :=
          hu.unwrapReturn.kind ▸ evalBody_kind_ne_returned h hfresh hbody
        show u.unwrapReturn.Reads u'.unwrapReturn.unwrapReturn
        rw [Value.unwrapReturn_of_kind hkind]
        exact ⟨hu.unwrapReturn.kind, hu.unwrapReturn.render⟩

/-- If a called program ends, so does the program. -/
theorem evalProgram_of_called_ok (h : ProgramsAlike program body) (hfresh : heap.Fresh scope)
    (hempty : heap'.Fresh outer) {fuel : Nat} {r : Option Value × Heap}
    (hrun : evalProgram fuel outer [.expr t (.call t₁ (.lambda t₂ .function [] (.mk t₃ body)) [])]
      heap' = .ok r) :
    ∃ less v after, evalProgram less scope program heap = .ok (v, after) := by
  obtain ⟨less, rfl⟩ := fuel_of_evalProgram_called _ _ _ _ _ hrun
  rw [evalProgram_called] at hrun
  obtain ⟨_, _, hhandle, hrun⟩ := bind_run_eq_ok hrun
  cases hhandle
  obtain ⟨_, _, hscope, hrun⟩ := bind_run_eq_ok hrun
  cases hscope
  obtain ⟨_, _, hrun', -⟩ := bind_run_eq_ok hrun
  have hempty' : heap'.newHandle.2.Fresh outer := hempty
  -- Inside the call the body is evaluated as the program is, in a scope that binds nothing.
  have hinner := evalBody_inner (less + 1) h hfresh hempty'
  cases hbody : evalBody (evalExpr (less + 1)) scope none program heap with
  | error stop =>
      rw [hbody] at hinner
      cases hinner.symm.trans hrun'
  | ok r => exact ⟨less + 1, _, r.2, bind_run hbody⟩

end Runs

/-- A program means the same at the top level and as the body of a
function that is called at once. A text is parsed without errors, and
defines no macro at the top level. Then there are texts that are parsed
as the called program, up to tokens, such as its spelling. For each of
them, and for fresh scopes, whatever else there is in the two heaps: one
text ends if and only if the other one does. With whatever fuel they
end, neither run fails. The second one has a value, which is of the same
kind and reads the same as the first one, or as null if there is none.
And its scope is still fresh. -/
theorem function_body_means_the_same {source : String} (herrors : (parse source).errors = [])
    (hnone : ∀ st ∈ (parse source).program, macroDefinition? st = none) :
    (∃ source', (parse source').errors = [] ∧
      Program.same (parse source').program (parse source).program.called = true) ∧
    ∀ source', (parse source').errors = [] →
      Program.same (parse source').program (parse source).program.called = true →
      ∀ (heap heap' : Heap) (scope macros scope' macros' : ScopeId), heap.Fresh scope →
        heap.Fresh macros → heap'.Fresh scope' → heap'.Fresh macros' →
        ((∃ fuel answer after, (run fuel source scope macros).run heap = .ok (answer, after)) ↔
          ∃ fuel answer after, (run fuel source' scope' macros').run heap' = .ok (answer, after)) ∧
        ∀ fuel answer after fuel' answer' after',
          (run fuel source scope macros).run heap = .ok (answer, after) →
          (run fuel' source' scope' macros').run heap' = .ok (answer', after') →
            ∃ v v', answer = .ok v ∧ answer' = .ok (some v') ∧ (v.getD .null).Reads v' ∧
              after'.Fresh scope' := by
  have htells : ProgramsAlike (parse source).program (parse source).program :=
    parse_telling herrors
  constructor
  · have hwell := (parse_wellFormed herrors : (parse source).program.WellFormed).called
    exact ⟨_, parse_of_lexemes (Program.lexemes_render hwell) (derives_spellBody _)⟩
  intro source' herrors' hsame heap heap' scope macros scope' macros' hscope hmacros hscope'
    hmacros'
  -- The other text is parsed as a called program whose body is like the program.
  have halike : ProgramsAlike (parse source).program.called (parse source').program :=
    (Alike.telling_of_same (parse_telling herrors') htells.called hsame).telling_symm
  obtain ⟨t, t₁, t₂, t₃, body, hparsed, hbody⟩ := halike.of_called
  have hnone' : ∀ st ∈ (parse source').program, macroDefinition? st = none := by
    rw [hparsed]
    exact List.forall_mem_singleton.mpr rfl
  have hrun (fuel : Nat) : (run fuel source scope macros).run heap =
      (ExceptT.lift (evalProgram fuel scope (parse source).program) : RunM _).run heap :=
    bind_run_of_ok (expand_run_of_fresh hmacros herrors hnone fuel)
  have hrun' (fuel : Nat) : (run fuel source' scope' macros').run heap' =
      (ExceptT.lift (evalProgram fuel scope' (parse source').program) : RunM _).run heap' :=
    bind_run_of_ok (expand_run_of_fresh hmacros' herrors' hnone' fuel)
  rw [hparsed] at hrun'
  refine ⟨⟨?called, ?program⟩, ?answers⟩
  case called =>
    rintro ⟨fuel, answer, after, hanswer⟩
    obtain ⟨v, -, heval⟩ := lift_run_eq_ok ((hrun fuel).symm.trans hanswer)
    obtain ⟨v', after', heval', -⟩ := evalProgram_called_of_ok hbody hscope hscope' heval
    exact ⟨fuel + 2, .ok (some v'), after', (hrun' _).trans (lift_run heval')⟩
  case program =>
    rintro ⟨fuel, answer, after, hanswer⟩
    obtain ⟨v', -, heval'⟩ := lift_run_eq_ok ((hrun' fuel).symm.trans hanswer)
    obtain ⟨less, v, after', heval⟩ := evalProgram_of_called_ok hbody hscope hscope' heval'
    exact ⟨less, .ok v, after', (hrun less).trans (lift_run heval)⟩
  case answers =>
    intro fuel answer after fuel' answer' after' hanswer hanswer'
    obtain ⟨v, rfl, heval⟩ := lift_run_eq_ok ((hrun fuel).symm.trans hanswer)
    obtain ⟨w, rfl, heval'⟩ := lift_run_eq_ok ((hrun' fuel').symm.trans hanswer')
    obtain ⟨v', after'', hcalled, hreads, hfresh⟩ :=
      evalProgram_called_of_ok hbody hscope hscope' heval
    -- More fuel would not change the answer of the second run.
    obtain ⟨rfl, rfl⟩ :=
      (evalProgram_steady scope' _).ends_unique ⟨_, hcalled⟩ ⟨fuel', heval'⟩
    exact ⟨v, v', rfl, rfl, hreads, hfresh⟩

/-- A closure that sees a later binding, and a `return` that ends the
program. -/
theorem function_body_means_the_same_early_return :
    let source := "let f = fn(x) \x7b if (x > 1) \x7b return g - x; \x7d \x7d; let g = 7; " ++
      "return f(2); g"
    let source' := "fn() \x7b " ++ source ++ " \x7d()"
    let heap : Heap := ((({} : Heap).newScope none).2.newScope none).2
    ∃ after, (run 9 source ⟨0⟩ ⟨1⟩).run heap = .ok (.ok (some (.int 5)), after) ∧
      ∃ fuel v' after', (run fuel source' ⟨0⟩ ⟨1⟩).run heap = .ok (.ok (some v'), after') ∧
        (Value.int 5).Reads v' ∧ after'.frame? ⟨0⟩ = some ⟨[], none⟩ := by
  intro source source' heap
  have hparsed : (parse source).errors = [] ∧
      ((parse source).program.all fun st => (macroDefinition? st).isNone) = true ∧
      (parse source').errors = [] ∧
      Program.same (parse source').program (parse source).program.called = true := by
    decide +kernel
  obtain ⟨herrors, hall, herrors', hsame⟩ := hparsed
  have hnone : ∀ st ∈ (parse source).program, macroDefinition? st = none := by
    simpa [List.all_eq_true] using hall
  have hrender : ((run 9 source ⟨0⟩ ⟨1⟩).run heap).toOption.bind (fun r =>
      r.1.toOption.bind fun v => v.map fun v => (v.key?, v.kind)) =
        some (some (.int 5), .integer) := by decide +kernel
  obtain ⟨⟨answer, after⟩, hrun, hanswer⟩ := exists_ok_of_bind_toOption hrender
  obtain ⟨answer, rfl, hvalue⟩ := exists_ok_of_bind_toOption hanswer
  obtain ⟨v, rfl, hread⟩ := Option.map_eq_some_iff.mp hvalue
  -- An integer is known from its key.
  obtain rfl : v = .int 5 := Value.key?_eq_some_iff.mp (Prod.mk.inj hread).1
  have hfresh : heap.Fresh ⟨0⟩ := rfl
  have hfresh' : heap.Fresh ⟨1⟩ := rfl
  obtain ⟨hends, hanswers⟩ := (function_body_means_the_same herrors hnone).2 source' herrors' hsame
    heap heap ⟨0⟩ ⟨1⟩ ⟨0⟩ ⟨1⟩ hfresh hfresh' hfresh hfresh'
  obtain ⟨fuel, answer, after', hrun'⟩ := hends.mp ⟨9, _, after, hrun⟩
  obtain ⟨v, v', hv, rfl, hreads, hafter⟩ := hanswers 9 _ after fuel answer after' hrun hrun'
  cases hv
  exact ⟨after, hrun, fuel, v', after', hrun', hreads, hafter⟩

end QuoteScript
