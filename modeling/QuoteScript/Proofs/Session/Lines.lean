import QuoteScript.Proofs.Eval.Context
import QuoteScript.Proofs.Session.Dump
import QuoteScript.Proofs.Session.Steps
import QuoteScript.Proofs.Tree.OneLine

/-!
# `QuoteScript.Proofs.Session.Lines`: a program line by line

Each statement of a program is written on a line of its own, and the
lines are run one after the other, as someone who types them does. That
is like running the program at once, up to the statement that ends it:
the first that unwinds, or else the last one. The line of this statement
is answered like the whole program, and the same bindings are left.

A line is parsed as a statement like the one that it was written from,
and then the two evaluations go in step. What they bind differs in
tokens, since the statements stand at other places in the texts.

* `EndsAt`: the statement that ends a program.
  `exists_endsAt_of_evalBody` says that there is one whenever the
  evaluation ends.
* `Heap.SameSince`: two heaps that have come of one in the same way.
* `InStep.line` and `InStep.lines`: one line, and many.
* `lines_run_like_their_program`: the main result.
-/

set_option autoImplicit false

namespace QuoteScript

open EvalM

/-! ### Where a program ends -/

/-- The statements in front of `st` are evaluated, and none of them
unwinds. Then `st` is evaluated to `v`. It unwinds, or it is the last
statement of the program. -/
def EndsAt (scope : ScopeId) (program before : List Stmt) (st : Stmt) (heap : Heap)
    (v : Option Value) (heap' : Heap) : Prop :=
  ∃ behind heap₁, program = before ++ st :: behind ∧
    PassesAll scope (before.map .stmt) heap heap₁ ∧
    Answers scope (.stmt st) heap₁ v heap' ∧ (unwinds v = true ∨ behind = [])

section EndsAt

variable {scope : ScopeId} {program before rest : List Stmt} {st first : Stmt}
  {heap heap₁ heap' : Heap} {v : Option Value}

/-- The first statement is the last one to be evaluated. -/
theorem EndsAt.here (hst : Answers scope (.stmt st) heap v heap')
    (hlast : unwinds v = true ∨ rest = []) : EndsAt scope (st :: rest) [] st heap v heap' :=
  ⟨rest, heap, rfl, .nil, hst, hlast⟩

/-- A statement in front that is passed. -/
theorem EndsAt.cons (hfirst : Passes scope (.stmt first) heap heap₁)
    (h : EndsAt scope rest before st heap₁ v heap') :
    EndsAt scope (first :: rest) (first :: before) st heap v heap' := by
  obtain ⟨behind, heap₂, rfl, hbefore, hst, hlast⟩ := h
  exact ⟨behind, heap₂, rfl, .cons hfirst hbefore, hst, hlast⟩

/-- A first statement that answers ends the program, or the rest goes
on. -/
theorem exists_endsAt_cons {w : Option Value} (hfirst : Answers scope (.stmt first) heap w heap₁)
    (hrest : unwinds w = false → rest ≠ [] →
      ∃ before st v heap', EndsAt scope rest before st heap₁ v heap') :
    ∃ before st v heap', EndsAt scope (first :: rest) before st heap v heap' := by
  by_cases hw : unwinds w = true
  · exact ⟨[], first, w, heap₁, .here hfirst (.inl hw)⟩
  · have hpasses : unwinds w = false := Bool.eq_false_iff.mpr hw
    by_cases hempty : rest = []
    · exact ⟨[], first, w, heap₁, .here hfirst (.inr hempty)⟩
    · obtain ⟨before, st, v, heap', h⟩ := hrest hpasses hempty
      exact ⟨first :: before, st, v, heap', h.cons ⟨w, hfirst, hpasses⟩⟩

/-- An evaluation that ends, ends at some statement. -/
theorem exists_endsAt_of_evalBody {fuel : Nat} {last : Option Value} (hprogram : program ≠ [])
    (hrun : evalBody (evalExpr fuel) scope last program heap = .ok (v, heap')) :
    ∃ before st v heap', EndsAt scope program before st heap v heap' := by
  induction program generalizing heap last with
  | nil => exact absurd rfl hprogram
  | cons first rest ih =>
      obtain ⟨w, heap₁, hfirst, hrest⟩ := bind_run_eq_ok hrun
      refine exists_endsAt_cons ⟨fuel, hfirst⟩ fun hw hempty => ?_
      rw [if_neg (by simp [hw])] at hrest
      exact ih hempty hrest

/-- The program answers with the value of the statement that ends it. -/
theorem EndsAt.evalProgram (h : EndsAt scope program before st heap v heap') :
    Ends (evalProgram · scope program) heap (v.map Value.unwrapReturn) heap' := by
  obtain ⟨behind, heap₁, rfl, hbefore, hst, hlast⟩ := h
  obtain ⟨fuel, hrun⟩ := (evalBody_ends hlast hbefore hst none).exists
  exact ⟨fuel, bind_run hrun⟩

end EndsAt

/-! ### Lines -/

/-- A statement is run on a line of its own. -/
def Stmt.line (st : Stmt) : Step :=
  .run st.render

/-- What lines are written for: statements that can be written down, and
whose tokens tell. They define no macros. -/
structure Stmt.Writable (st : Stmt) : Prop where
  wellFormed : st.Over .source
  tells : Alike .telling (.stmt st) (.stmt st)
  defines : macroDefinition? st = none

/-- The statements of a program without definitions. -/
theorem writable_of_program {program : Program} (hwell : program.WellFormed)
    (htells : ProgramsAlike program program)
    (hnone : ∀ st ∈ program, macroDefinition? st = none) : ∀ st ∈ program, st.Writable := by
  induction program with
  | nil => exact nofun
  | cons first rest ih =>
      obtain ⟨hfirst, hrest⟩ := List.forall_mem_cons.mp hnone
      cases htells with
      | stmts htell htells =>
          exact List.forall_mem_cons.mpr ⟨⟨hwell.1, htell, hfirst⟩, ih hwell.2 htells hrest⟩

/-- A line shows the value of a statement like the one it is written
for. -/
theorem Stmt.Writable.line_run {st : Stmt} (h : st.Writable) {heap : Heap} {macros : ScopeId}
    (hfresh : heap.Fresh macros) :
    ∃ parsed, ProgramsAlike [st] parsed ∧ ∀ fuel scope,
      st.line.perform fuel ⟨scope, macros⟩ heap
        = (evalProgram fuel scope parsed >>= fun v => pure (.ofValue v)) heap := by
  have hwell : Program.WellFormed [st] := ⟨h.wellFormed, trivial⟩
  have hnone : ∀ s ∈ [st], macroDefinition? s = none := List.forall_mem_singleton.mpr h.defines
  have hrender : Program.render [st] = st.render := by simp [Program.render]
  obtain ⟨parsed, halike, hrun⟩ := run_render hfresh hwell (.stmts h.tells .noStmts) hnone
  rw [hrender] at hrun
  exact ⟨parsed, halike, fun fuel scope => Step.perform_run_eq (hrun fuel scope)⟩

/-- Two heaps have come of `heap` in the same way: they correspond, and
what was there is paired with itself. -/
def Heap.SameSince (heap after after' : Heap) : Prop :=
  ∃ ρ, heap.diagonal ≤ ρ ∧ Heap.Corresponds ρ after after'

/-- Scopes that were there already are shown alike in both heaps. -/
theorem Heap.SameSince.shown {heap after after' : Heap} (h : heap.SameSince after after')
    {s : ScopeId} (hs : s.number < heap.frames.size) : after.shown s = after'.shown s := by
  obtain ⟨ρ, hle, hheaps⟩ := h
  exact hheaps.shown (hle.1 s s (Heap.diagonal_scope hs))

/-- A program has been evaluated from `start` to `heap`, up to some
statement, and the lines of the statements have been run from `start` to
`after`. -/
structure InStep (start : Heap) (macros : ScopeId) (heap after : Heap) : Prop where
  same : start.SameSince heap after
  fresh : after.Fresh macros

section InStep

variable {start heap heap' after after' : Heap} {scope macros : ScopeId} {st : Stmt}
  {v : Option Value}

/-- Line and statement are in step again behind the evaluation of both. -/
theorem InStep.grows {ρ ρ' : Pairing} {fuel : Nat} {parsed : Program}
    (h : InStep start macros heap after) (hne : scope ≠ macros) (hle : start.diagonal ≤ ρ)
    (hgrows : ρ.Grows ρ' heap after heap' after') (hheaps : Heap.Corresponds ρ' heap' after')
    (hrun : evalProgram fuel scope parsed after = .ok (v, after')) :
    InStep start macros heap' after' where
  same := ⟨ρ', hle.trans hgrows.le, hheaps⟩
  fresh := (evalProgram_writes fuel scope parsed after v after' hrun).1.others macros _ hne.symm
    h.fresh

/-- A statement that answers is shown on its line. -/
theorem InStep.line (h : InStep start macros heap after) (hst : st.Writable)
    (hscope : scope.number < start.frames.size) (hne : scope ≠ macros)
    (hanswers : Answers scope (.stmt st) heap v heap') :
    ∃ after', Ends (st.line.perform · ⟨scope, macros⟩) after (.ofValue (v.map Value.unwrapReturn))
        after' ∧ InStep start macros heap' after' := by
  obtain ⟨ρ, hle, hheaps⟩ := h.same
  obtain ⟨parsed, halike, hline⟩ := hst.line_run h.fresh
  obtain ⟨fuel, heval⟩ := (EndsAt.here hanswers (.inr rfl)).evalProgram
  have hsimulates := evalProgram_simulates fuel (hle.1 _ _ (Heap.diagonal_scope hscope)) halike
  obtain ⟨v', after', ρ', hrun, hgrows, hheaps', hv⟩ := hsimulates.of_run hheaps heval
  rw [hv.shown]
  exact ⟨after', ⟨fuel, (hline fuel scope).trans (bind_run hrun)⟩,
    h.grows hne hle hgrows hheaps' hrun⟩

/-- A statement whose line is shown answers. -/
theorem InStep.answers (h : InStep start macros heap after) (hst : st.Writable)
    (hscope : scope.number < start.frames.size) (hne : scope ≠ macros) {shown : Shown}
    (hends : Ends (st.line.perform · ⟨scope, macros⟩) after shown after') :
    ∃ v heap', Answers scope (.stmt st) heap v heap' ∧ InStep start macros heap' after' := by
  obtain ⟨ρ, hle, hheaps⟩ := h.same
  obtain ⟨parsed, halike, hline⟩ := hst.line_run h.fresh
  obtain ⟨fuel, hperform⟩ := hends
  obtain ⟨v', after₁, hrun, hshown⟩ := bind_run_eq_ok ((hline fuel scope).symm.trans hperform)
  cases hshown
  have hsimulates := evalProgram_simulates fuel (hle.1 _ _ (Heap.diagonal_scope hscope)) halike
  obtain ⟨_, heap', ρ', heval, hgrows, hheaps', -⟩ := hsimulates.of_run' hheaps hrun
  obtain ⟨w, heap₁, hbody, hanswer⟩ := bind_run_eq_ok heval
  cases hanswer
  -- There is nothing behind the statement.
  obtain ⟨v, heap₂, hfirst, hrest⟩ := bind_run_eq_ok hbody
  have hheap : heap₂ = heap' := by split at hrest <;> cases hrest <;> rfl
  exact ⟨v, heap', ⟨fuel, hheap ▸ hfirst⟩, h.grows hne hle hgrows hheaps' hrun⟩

/-- Statements that pass, and their lines. -/
theorem InStep.lines (hscope : scope.number < start.frames.size) (hne : scope ≠ macros)
    {statements : List Stmt} (hwritable : ∀ st ∈ statements, st.Writable)
    (h : InStep start macros heap after)
    (hpasses : PassesAll scope (statements.map .stmt) heap heap') :
    ∃ answers after', Performs ⟨scope, macros⟩ (statements.map Stmt.line) after answers after' ∧
      InStep start macros heap' after' := by
  induction statements generalizing heap after with
  | nil =>
      cases hpasses
      exact ⟨[], after, .nil, h⟩
  | cons first rest ih =>
      obtain ⟨hfirst, hrest⟩ := List.forall_mem_cons.mp hwritable
      cases hpasses with
      | cons hpass hpasses =>
          obtain ⟨v, hanswers, -⟩ := hpass
          -- One line is run where one statement is evaluated, and then the others follow.
          obtain ⟨after₁, hline, hstep⟩ := h.line hfirst hscope hne hanswers
          obtain ⟨answers, after', hlines, hstep'⟩ := ih hrest hstep hpasses
          exact ⟨_ :: answers, after', .cons hline hlines, hstep'⟩

/-- If all lines of a program end, so does the program. -/
theorem InStep.exists_endsAt (hscope : scope.number < start.frames.size) (hne : scope ≠ macros)
    {program : Program} (hprogram : program ≠ []) (hwritable : ∀ st ∈ program, st.Writable)
    (h : InStep start macros heap after) {answers : List Shown}
    (hlines : Performs ⟨scope, macros⟩ (program.map Stmt.line) after answers after') :
    ∃ before st v heap', EndsAt scope program before st heap v heap' := by
  induction program generalizing heap after answers with
  | nil => exact absurd rfl hprogram
  | cons first rest ih =>
      obtain ⟨hfirst, hrest⟩ := List.forall_mem_cons.mp hwritable
      cases hlines with
      | cons hline hlines =>
          obtain ⟨w, heap₁, hanswers, hstep⟩ := h.answers hfirst hscope hne hline
          exact exists_endsAt_cons hanswers fun _ hempty => ih hempty hrest hstep hlines

end InStep

/-! ### Programs -/

/-- A program can be run line by line. In the heap of a session, with an
empty scope of macros of its own, a source text without errors is run
that defines no macros at its top level. The text of each of its
statements is one line.

* The program ends at some statement: the first that unwinds, or else
  the last one. Then the lines up to this statement end, and so does the
  program. The program shows what the line of the statement shows. What
  both leave behind corresponds, and every scope that was there before
  looks the same.
* A program without statements shows nothing and changes nothing.
* If a program with statements ends, or if all of its lines do, then it
  ends at some statement.

There is only one way in which lines and programs end
(`Performs.unique`). -/
theorem lines_run_like_their_program {source : String} {heap : Heap} {scope macros : ScopeId}
    (hheap : SessionHeap heap) (hscope : scope.number < heap.frames.size)
    (hfresh : heap.Fresh macros) (hne : scope ≠ macros) (herrors : (parse source).errors = [])
    (hnone : ∀ st ∈ (parse source).program, macroDefinition? st = none) :
    let program := (parse source).program
    let env : Environments := ⟨scope, macros⟩
    (∀ st ∈ program, OnOneLine st.render) ∧
    (∀ before st v heap', EndsAt scope program before st heap v heap' →
      ∃ answers shown after after',
        Performs env (before.map Stmt.line ++ [st.line]) heap (answers ++ [shown]) after ∧
        Ends ((Step.run source).perform · env) heap shown after' ∧
        heap.SameSince after' after ∧
        ∀ s, s.number < heap.frames.size → after'.shown s = after.shown s) ∧
    (program = [] → Ends ((Step.run source).perform · env) heap .nothing heap) ∧
    (program ≠ [] →
      (∃ shown after', Ends ((Step.run source).perform · env) heap shown after') ∨
        (∃ answers after, Performs env (program.map Stmt.line) heap answers after) →
      ∃ before st v heap', EndsAt scope program before st heap v heap') := by
  intro program env
  have hwritable : ∀ st ∈ program, st.Writable :=
    writable_of_program (parse_wellFormed herrors) (parse_telling herrors) hnone
  have hstart : InStep heap macros heap heap := ⟨⟨heap.diagonal, le_refl _, hheap.coherent⟩, hfresh⟩
  -- Without macros to expand, running the source is evaluating what it is parsed to.
  have hrun (fuel : Nat) : (Step.run source).perform fuel env heap
      = (evalProgram fuel scope program >>= fun v => pure (.ofValue v)) heap :=
    Step.perform_run_eq (bind_run_of_ok (expand_run_of_fresh hfresh herrors hnone fuel))
  have hends {v : Option Value} {heap' : Heap}
      (h : Ends (evalProgram · scope program) heap v heap') :
      Ends ((Step.run source).perform · env) heap (.ofValue v) heap' := by
    obtain ⟨fuel, heval⟩ := h
    exact ⟨fuel, (hrun fuel).trans (bind_run heval)⟩
  refine ⟨fun st hst => st.onOneLine_render (hwritable st hst).wellFormed, ?ends, ?empty, ?covers⟩
  case ends =>
    intro before st v heap' hendsAt
    have hprogram := hends hendsAt.evalProgram
    -- All statements in front are passed, one line each, and the last one answers.
    obtain ⟨behind, heap₁, hsplit, hbefore, hanswers, -⟩ := hendsAt
    have hmem : ∀ s ∈ before ++ st :: behind, s.Writable := hsplit ▸ hwritable
    obtain ⟨hwritable, hrest⟩ := List.forall_mem_append.mp hmem
    obtain ⟨answers, after₁, hlines, hstep⟩ := hstart.lines hscope hne hwritable hbefore
    obtain ⟨after, hline, hsame, -⟩ :=
      hstep.line (List.forall_mem_cons.mp hrest).1 hscope hne hanswers
    exact ⟨answers, _, after, heap', hlines.append (.cons hline .nil), hprogram, hsame,
      fun s hs => hsame.shown hs⟩
  case empty =>
    intro hempty
    have hnothing : Ends (evalProgram · scope program) heap none heap := by
      rw [hempty]
      exact ⟨0, rfl⟩
    exact hends hnothing
  case covers =>
    rintro hprogram (⟨shown, after', fuel, hperform⟩ | ⟨answers, after, hlines⟩)
    · obtain ⟨v, heap₁, heval, -⟩ := bind_run_eq_ok ((hrun fuel).symm.trans hperform)
      obtain ⟨w, heap₂, hbody, -⟩ := bind_run_eq_ok heval
      exact exists_endsAt_of_evalBody hprogram hbody
    · exact hstart.exists_endsAt hscope hne hprogram hwritable hlines

/-- A string with a line feed in it, and a `return` in front of the last
statement: the lines up to the `return` show what the program shows, and
the last `let` has bound nothing. -/
theorem lines_run_like_their_program_return :
    let source := "let s = \"a\nb\"; let f = fn(x) \x7b s + x \x7d; return f(\"c\"); let s = 1"
    let heap : Heap := ((({} : Heap).newScope none).2.newScope none).2
    let program := (parse source).program
    program.map Stmt.render = ["let s = \"a\\nb\";", "let f = fn(x) \x7b (s + x); \x7d;",
      "return f(\"c\");", "let s = 1;"] ∧
    ∃ lines answers after, lines <+: program.map Stmt.line ∧
      Performs ⟨⟨0⟩, ⟨1⟩⟩ lines heap (answers ++ [.value .string "a\nbc"]) after ∧
      after.shown ⟨0⟩ = some [("s", .value .string "a\nb"),
        ("f", .value .function "fn(x) \x7b (s + x); \x7d")] := by
  intro source heap program
  have hrender : program.map Stmt.render = ["let s = \"a\\nb\";",
      "let f = fn(x) \x7b (s + x); \x7d;", "return f(\"c\");", "let s = 1;"] := by decide +kernel
  have hprogram : program ≠ [] := by
    intro hempty
    rw [hempty] at hrender
    cases hrender
  have hheap : SessionHeap heap := .newScope nofun (.newScope nofun .empty)
  have herrors : (parse source).errors = [] := by decide +kernel
  have hall : (program.all fun st => (macroDefinition? st).isNone) = true := by decide +kernel
  have hnone : ∀ st ∈ program, macroDefinition? st = none := by
    simpa [List.all_eq_true] using hall
  obtain ⟨-, hlines, -, hcovers⟩ := @lines_run_like_their_program source heap ⟨0⟩ ⟨1⟩ hheap
    (by decide) rfl nofun herrors hnone
  have hsingle : ((Step.run source).perform 9 ⟨⟨0⟩, ⟨1⟩⟩ heap).toOption.map
      (fun r => (r.1, r.2.shown ⟨0⟩)) = some (.value .string "a\nbc",
        some [("s", .value .string "a\nb"),
          ("f", .value .function "fn(x) \x7b (s + x); \x7d")]) := by
    decide +kernel
  obtain ⟨⟨shown, after'⟩, hrun, hread⟩ := exists_ok_of_map_toOption hsingle
  obtain ⟨rfl, hshown⟩ := Prod.mk.inj hread
  -- The run of the whole source ends, so some statement is the last to be evaluated.
  obtain ⟨before, st, v, heap', hendsAt⟩ := hcovers hprogram (.inl ⟨_, after', 9, hrun⟩)
  obtain ⟨answers, shown, after, after₂, hperforms, hends, -, hsame⟩ :=
    hlines before st v heap' hendsAt
  obtain ⟨rfl, rfl⟩ := (Step.perform_steady _ _).ends_unique hends ⟨9, hrun⟩
  obtain ⟨behind, -, hsplit, -⟩ := hendsAt
  have hfront : before.map Stmt.line ++ [st.line] <+: program.map Stmt.line := by
    refine ⟨behind.map Stmt.line, ?_⟩
    rw [show program = before ++ st :: behind from hsplit]
    simp
  exact ⟨hrender, _, answers, after, hfront, hperforms,
    (hsame ⟨0⟩ (by decide)).symm.trans hshown⟩

end QuoteScript
