import QuoteScript.Proofs.Session.Reachable
import QuoteScript.Proofs.Tree.Reparse
import QuoteScript.Value.Render

/-!
# `QuoteScript.Proofs.Session.Source`: what a session hands back is source

The trees that a session makes can be written down: an expanded
program, the closures, and what is quoted. So their texts are parsed
back as the same trees, and what macros build can be shown, saved and
run again.

Everything rests on the invariant at the lexicon of source texts. Two
things could break it, and it rules them out: a negative integer that
is spliced in as a literal, and a statement or a block that is quoted
where an expression is due.

* `Value.IsSource`: the texts of closures and quotes are read back.
* `sessions_hand_back_source`: expanded programs, bindings and answers.
-/

set_option autoImplicit false

namespace QuoteScript

/-- What a value holds of trees is read back from its text. A closure
reads like the literal that it was made from, and what is quoted is an
expression. Other values hold no trees of their own. -/
def Value.IsSource : Value → Prop
  | .closure kind handle params body outer =>
    ∀ t, (Expr.lambda t kind params body).ReadFrom
      (Value.closure kind handle params body outer).render
  | .quote _ node => ∃ e, node = .expr e ∧ e.ReadFrom node.render
  | _ => True

/-- What may be stored over the lexicon of source texts is source. -/
theorem Value.Over.isSource {v : Value} (h : v.Over .source) : v.IsSource := by
  cases v with
  | closure kind handle params body outer =>
      intro t
      have hwell : (Expr.lambda t kind params body).WellFormed := h
      exact Expr.reads_back hwell
  | quote handle node =>
      obtain ⟨hover, hexpr⟩ := h
      -- The lexicon of source texts quotes nothing but expressions.
      obtain ⟨e, rfl⟩ := hexpr.resolve_right id
      exact ⟨e, rfl, Expr.reads_back hover⟩
  | _ => trivial

/-- What an answer contains is source. -/
theorem Value.Answer.isSource {v w : Value} (h : v.Answer .source) (hw : v.Contains w) :
    w.IsSource := by
  cases h with
  | stored h => exact (h.contains hw).isSource
  | fault f =>
      cases hw
      exact trivial

/-- What a session hands back is source. Its sources are any texts, and
it may evaluate well-formed trees as well.

* A program that is expanded is read back from its text.
* Closures and quotes that are bound, or contained at any depth in what
  is bound, are read back.
* So are those in what a run or an evaluation answers. -/
theorem sessions_hand_back_source {heap : Heap} (h : Reachable Node.WellFormed heap) :
    (∀ fuel source macros program heap',
        (expand fuel source macros).run heap = .ok (.ok program, heap') →
          (parse (Program.render program)).errors = [] ∧
            Program.same (parse (Program.render program)).program program = true) ∧
      (∀ frame ∈ heap.frames, ∀ binding ∈ frame.bindings, ∀ w, binding.2.Contains w →
        w.IsSource) ∧
      (∀ fuel source scope macros v heap',
        (run fuel source scope macros).run heap = .ok (.ok (some v), heap') →
          ∀ w, v.Contains w → w.IsSource) ∧
      (∀ fuel source scope v heap',
        (evaluate fuel source scope).run heap = .ok (.ok (some v), heap') →
          ∀ w, v.Contains w → w.IsSource) ∧
      ∀ fuel scope node v heap', node.WellFormed →
        evalNode fuel scope node heap = .ok (v, heap') → ∀ w, v.Contains w → w.IsSource := by
  have hL := Lexicon.closed_source
  -- All that is stored can be written down, which is the invariant of a session.
  have hover : heap.Over .source := h.over hL fun _ hnode => hnode
  refine ⟨?expanded, ?bound, ?run, ?evaluate, ?node⟩
  case expanded =>
    intro fuel source macros program heap' hrun
    obtain ⟨-, hanswer⟩ := (expand_safe hL fuel source macros).of_run hover hrun
    have hwell : program.WellFormed := hanswer program rfl
    exact parse_of_lexemes (Program.lexemes_render hwell) (derives_spellBody program)
  case bound =>
    intro frame hframe binding hbinding w hw
    exact ((hover frame hframe binding hbinding).contains hw).isSource
  case run =>
    intro fuel source scope macros v heap' hrun w hw
    obtain ⟨-, hanswer⟩ := (run_safe hL fuel source scope macros).of_run hover hrun
    exact (hanswer (some v) rfl v rfl).isSource hw
  case evaluate =>
    intro fuel source scope v heap' hrun w hw
    obtain ⟨-, hanswer⟩ := (evaluate_safe hL fuel source scope).of_run hover hrun
    exact (hanswer (some v) rfl v rfl).isSource hw
  case node =>
    intro fuel scope node v heap' hnode hrun w hw
    obtain ⟨-, hanswer⟩ := (evalNode_safe hL.splices fuel scope hnode).of_run hover hrun
    exact hanswer.isSource hw

/-- A macro that splices a negative integer, and a later text that calls
it. -/
theorem sessions_hand_back_source_negative_integer :
    ∃ heap program heap', Reachable Node.WellFormed heap ∧
      (expand 9 "m(a)" ⟨0⟩).run heap = .ok (.ok program, heap') ∧
      Program.render program = "((-5) + a);" ∧
      (parse (Program.render program)).errors = [] ∧
      Program.same (parse (Program.render program)).program program = true := by
  let source := "let m = macro(x) \x7b quote(unquote(2 - 7) + unquote(x)) \x7d"
  let start : Heap := (({} : Heap).newScope none).2
  have htext : ((run 9 source ⟨0⟩ ⟨0⟩).run start).toOption.bind (fun r =>
      ((expand 9 "m(a)" ⟨0⟩).run r.2).toOption.bind fun r' => r'.1.toOption.map Program.render)
        = some "((-5) + a);" := by decide +kernel
  obtain ⟨⟨answer, heap⟩, hrun, hsecond⟩ := exists_ok_of_bind_toOption htext
  obtain ⟨⟨expanded, heap'⟩, hexpand, hanswer⟩ := exists_ok_of_bind_toOption hsecond
  obtain ⟨program, rfl, hrender⟩ := exists_ok_of_map_toOption hanswer
  -- The macro is defined in the first run and used in the second.
  have hreach : Reachable Node.WellFormed heap := .run (.newScope none .empty) hrun
  obtain ⟨herrors, hsame⟩ :=
    (sessions_hand_back_source hreach).1 9 "m(a)" ⟨0⟩ program heap' hexpand
  exact ⟨heap, program, heap', hreach, hexpand, hrender, herrors, hsame⟩

end QuoteScript
