import QuoteScript.Proofs.Expansion.Fuel
import QuoteScript.Proofs.Grammar.Places
import QuoteScript.Proofs.Session.Dump
import QuoteScript.Proofs.Token.Layout

/-!
# `QuoteScript.Proofs.Session.Layout`: layout never matters

Two texts that differ in the blanks between their tokens have the same
tokens up to places. They are parsed as the same program up to tokens,
with the same errors up to places. If they parse, they run in the same
way, wherever a session has come to: evaluation looks at a token only to
see whether it is written `unquote`, and that is no matter of places.

* `Failure.unplaced`: why a run has no answer, wherever it is in the
  text.
* `AnswersAlike`: what two runs answer.
* `runsAlike_of_same`: two texts that are parsed as alike programs.
* `layout_never_matters`: all of it.
-/

set_option autoImplicit false

namespace QuoteScript

open EvalM

/-- Why a run has no answer, wherever it is in the text. -/
def Failure.unplaced : Failure → Failure
  | syntaxErrors errors => syntaxErrors (errors.map Diagnostic.unplaced)
  | misuse m => misuse m

/-- Two runs fail in the same way up to places, or their values are of
the same kind and read the same. -/
inductive AnswersAlike : Except Failure (Option Value) → Except Failure (Option Value) → Prop where
  | value {v v' : Option Value} (h : Option.Rel Value.Reads v v') : AnswersAlike (.ok v) (.ok v')
  | failure {f f' : Failure} (h : f.unplaced = f'.unplaced) : AnswersAlike (.error f) (.error f')

variable {source source' : String}

/-- A text that does not parse fails at once. -/
theorem run_of_errors {heap : Heap} {scope macros : ScopeId} (h : (parse source).errors ≠ [])
    (fuel : Nat) :
    (run fuel source scope macros).run heap
      = .ok (.error (.syntaxErrors (parse source).errors), heap) := by
  show ((expand fuel source macros).run >>= _) heap = _
  rw [bind_run (expand_run_of_errors h)]
  rfl

/-- Two texts run in the same way, with the same fuel. -/
def RunsAlike (heap : Heap) (scope macros : ScopeId) (source source' : String) : Prop :=
  ∀ fuel, match (run fuel source scope macros).run heap,
      (run fuel source' scope macros).run heap with
    | .ok (answer, _), .ok (answer', _) => AnswersAlike answer answer'
    | .error stop, .error stop' => stop = stop'
    | _, _ => False

/-- Two texts with the same errors up to places, and with programs that
are the same up to tokens, run in the same way in the heap of a
session. -/
theorem runsAlike_of_same {heap : Heap} {scope macros : ScopeId} (hheap : heap.Coherent)
    (hscope : scope.number < heap.frames.size) (hmacros : macros.number < heap.frames.size)
    (hsame : Part.same (.body (parse source).program) (.body (parse source').program) = true)
    (herrors : (parse source).errors.map Diagnostic.unplaced
      = (parse source').errors.map Diagnostic.unplaced) :
    RunsAlike heap scope macros source source' := by
  intro fuel
  by_cases hnone : (parse source).errors = []
  · have hnone' : (parse source').errors = [] := by
      rw [hnone] at herrors
      exact List.map_eq_nil_iff.mp herrors.symm
    have halike : ProgramsAlike (parse source).program (parse source').program :=
      Alike.telling_of_same (parse_telling hnone) (parse_telling hnone') hsame
    -- Both runs start in the same heap, which corresponds to itself.
    have hexpand := expand_simulates_of_alike fuel (Heap.diagonal_scope hmacros) hnone hnone' halike
    have hstep := run_simulates_of_expand (Heap.diagonal_scope hscope) hexpand heap heap hheap
    cases hrun : (run fuel source scope macros).run heap with
    | error stop =>
        rw [hrun] at hstep
        rw [hstep]
    | ok r =>
        obtain ⟨answer, after⟩ := r
        rw [hrun] at hstep
        obtain ⟨answer', after', ρ', hrun', -, -, hanswer⟩ := hstep
        rw [hrun']
        cases hanswer with
        | ok hv => exact .value hv.reads
        | error failure => exact .failure rfl
  · have hsome : (parse source').errors ≠ [] := by
      intro hnil
      rw [hnil] at herrors
      exact hnone (List.map_eq_nil_iff.mp herrors)
    rw [run_of_errors hnone, run_of_errors hsome]
    exact .failure (congrArg Failure.syntaxErrors herrors)

namespace RunsAlike

variable {heap : Heap} {scope macros : ScopeId} {fuel fuel' : Nat}
  {answer answer' : Except Failure (Option Value)} {after after' : Heap}

/-- Where the first run ends, the second one ends as well. -/
theorem of_run (h : RunsAlike heap scope macros source source')
    (hrun : (run fuel source scope macros).run heap = .ok (answer, after)) :
    ∃ answer' after', (run fuel source' scope macros).run heap = .ok (answer', after') ∧
      AnswersAlike answer answer' := by
  have hstep := h fuel
  rw [hrun] at hstep
  cases hrun' : (run fuel source' scope macros).run heap with
  | error stop =>
      rw [hrun'] at hstep
      exact hstep.elim
  | ok r =>
      rw [hrun'] at hstep
      exact ⟨r.1, r.2, rfl, hstep⟩

/-- Where the second run ends, the first one ends as well. -/
theorem of_run' (h : RunsAlike heap scope macros source source')
    (hrun : (run fuel source' scope macros).run heap = .ok (answer', after')) :
    ∃ answer after, (run fuel source scope macros).run heap = .ok (answer, after) := by
  have hstep := h fuel
  rw [hrun] at hstep
  cases hrun' : (run fuel source scope macros).run heap with
  | error stop =>
      rw [hrun'] at hstep
      exact hstep.elim
  | ok r => exact ⟨r.1, r.2, rfl⟩

/-- What the two runs answer does not depend on their fuel. -/
theorem answers (h : RunsAlike heap scope macros source source')
    (hrun : (run fuel source scope macros).run heap = .ok (answer, after))
    (hrun' : (run fuel' source' scope macros).run heap = .ok (answer', after')) :
    AnswersAlike answer answer' := by
  obtain ⟨answer₁, after₁, hrun₁, halike⟩ := h.of_run hrun
  obtain ⟨rfl, -⟩ := (run_steady source' scope macros).ends_unique ⟨fuel, hrun₁⟩ ⟨fuel', hrun'⟩
  exact halike

end RunsAlike

/-- Layout never matters. Blanks are put between the tokens of a text
that has no illegal token, in any number and at any place where no token
is cut in two. Then the tokens have the same kinds and literals. The
program is the same up to tokens, and the errors are the same up to
places. In whatever heap of a session, and in whatever scopes of it, the
new text runs to an end if and only if the old one does. With whatever
fuel they end, they fail in the same way up to places, or their values
are of the same kind and read the same. -/
theorem layout_never_matters (source : String) (layout : Layout source)
    (hlegal : ∀ t ∈ tokenize source, t.kind ≠ .illegal) :
    (tokenize layout.apply).map Token.core = (tokenize source).map Token.core ∧
    Part.same (.body (parse source).program) (.body (parse layout.apply).program) = true ∧
    (parse source).errors.map Diagnostic.unplaced
      = (parse layout.apply).errors.map Diagnostic.unplaced ∧
    ∀ heap scope macros, SessionHeap heap → scope.number < heap.frames.size →
      macros.number < heap.frames.size →
      ((∃ fuel answer after, (run fuel source scope macros).run heap = .ok (answer, after)) ↔
        ∃ fuel answer after,
          (run fuel layout.apply scope macros).run heap = .ok (answer, after)) ∧
      ∀ fuel answer after fuel' answer' after',
        (run fuel source scope macros).run heap = .ok (answer, after) →
        (run fuel' layout.apply scope macros).run heap = .ok (answer', after') →
          AnswersAlike answer answer' := by
  have hcore := layout.tokenize_core hlegal
  -- Readers do not look at places, and places are all that a layout changes.
  obtain ⟨halike, herrors⟩ := parseTokens_moved hcore.symm
  refine ⟨hcore, halike.same, herrors, fun heap scope macros hheap hscope hmacros => ?_⟩
  have hruns : RunsAlike heap scope macros source layout.apply :=
    runsAlike_of_same hheap.coherent hscope hmacros halike.same herrors
  refine ⟨⟨?first, ?second⟩, fun _ _ _ _ _ _ hrun hrun' => hruns.answers hrun hrun'⟩
  case first =>
    rintro ⟨fuel, answer, after, hrun⟩
    obtain ⟨answer', after', hrun', -⟩ := hruns.of_run hrun
    exact ⟨fuel, answer', after', hrun'⟩
  case second =>
    rintro ⟨fuel, answer, after, hrun⟩
    obtain ⟨answer', after', hrun'⟩ := hruns.of_run' hrun
    exact ⟨fuel, answer', after', hrun'⟩

/-- Line feeds around `=` and `+`, in front of a text and behind it. -/
theorem layout_never_matters_concatenation :
    let source := "let a=\"x\"+\"y\";a"
    let heap : Heap := ((({} : Heap).newScope none).2.newScope none).2
    ∃ layout : Layout source,
      layout.apply = "\nlet a\n=\n\"x\"\n+\n\"y\";a\n" ∧
      ∃ fuel v after, (run fuel layout.apply ⟨0⟩ ⟨1⟩).run heap = .ok (.ok (some v), after) ∧
        v.kind = .string ∧ v.render = "xy" := by
  intro source heap
  let layout : Layout source :=
    .ofOffsets ['\n'] [0, 5, 6, 9, 10, 15] (List.forall_mem_singleton.mpr rfl) (by decide +kernel)
  have hheap : SessionHeap heap := .newScope nofun (.newScope nofun .empty)
  obtain ⟨-, -, -, hruns⟩ := layout_never_matters source layout (by decide +kernel)
  obtain ⟨hends, hanswers⟩ := hruns heap ⟨0⟩ ⟨1⟩ hheap (by decide) (by decide)
  have hcomputed : ((run 9 source ⟨0⟩ ⟨1⟩).run heap).toOption.bind (fun r =>
      r.1.toOption.bind fun o => o.map fun v => (v.kind, v.render))
        = some (.string, "xy") := by decide +kernel
  obtain ⟨⟨answer, after⟩, hrun, hanswer⟩ := exists_ok_of_bind_toOption hcomputed
  obtain ⟨answer, rfl, hvalue⟩ := exists_ok_of_bind_toOption hanswer
  obtain ⟨v, rfl, hread⟩ := Option.map_eq_some_iff.mp hvalue
  obtain ⟨hkind, htext⟩ := Prod.mk.inj hread
  -- The source itself is run here; its other layout is run by the theorem alone.
  obtain ⟨fuel', answer', after', hrun'⟩ := hends.mp ⟨9, _, after, hrun⟩
  cases hanswers 9 _ after fuel' answer' after' hrun hrun' with
  | value hv =>
      cases hv with
      | @some _ v' hv =>
          exact ⟨layout, by decide +kernel, fuel', v', after', hrun', hv.1.symm.trans hkind,
            hv.2.symm.trans htext⟩

end QuoteScript
