import QuoteScript.Proofs.Eval.Fuel
import QuoteScript.Proofs.Session.Effects
import QuoteScript.Proofs.Session.Reachable
import QuoteScript.Proofs.Session.Simulation
import QuoteScript.Proofs.Tree.Reparse

/-!
# `QuoteScript.Proofs.Session.Dump`: expanded programs as texts

What is left of a text after the expansion of its macros can be written
down, and the new text be run instead of the old one. It means the same:
it is parsed back as the same program up to tokens, there are no macros
in it that could be expanded once more, and tokens make no difference to
evaluation as long as they tell what they stand for.

That they tell has to be shown of the expanded program, too. Its parts
come from the text that was expanded, or were made for values. Instead
of following them through the expansion, the expansion is compared with
one in a heap that holds nothing else: the two go in step, and what they
keep alike are trees whose tokens tell.

* `Heap.Fresh.corresponds`: heaps with a fresh scope correspond.
* `expand_of_fresh`: an expanded program is well formed, and its tokens
  tell.
* `run_render`: what a run of the new text evaluates.
* `expanded_text_means_the_same`: both directions, and the answers.
-/

set_option autoImplicit false

namespace QuoteScript

open EvalM

/-! ### Fresh scopes -/

/-- A scope that binds nothing, and around which there is no other
scope. -/
def Heap.Fresh (heap : Heap) (s : ScopeId) : Prop :=
  heap.frame? s = some ⟨[], none⟩

/-- Pairs two scopes, and nothing else. -/
def Pairing.ofScopes (s s' : ScopeId) : Pairing where
  scope r r' := r = s ∧ r' = s'
  handle _ _ := False

/-- The two scopes are paired. -/
theorem Pairing.scope_ofScopes (s s' : ScopeId) : (ofScopes s s').scope s s' :=
  ⟨rfl, rfl⟩

namespace Heap.Fresh

variable {heap heap' : Heap} {s s' : ScopeId}

/-- Whatever else there is in two heaps, they correspond in their fresh
scopes. -/
theorem corresponds (h : heap.Fresh s) (h' : heap'.Fresh s') :
    Heap.Corresponds (.ofScopes s s') heap heap' where
  injective :=
    { scope := by
        rintro _ _ _ _ ⟨rfl, rfl⟩ ⟨rfl, rfl⟩
        exact iff_of_true rfl rfl
      handle := fun ha _ => ha.elim }
  frames := by
    rintro _ _ ⟨rfl, rfl⟩
    exact ⟨_, _, h, h', .nil, .none⟩
  handles := False.elim

/-- No name is bound. -/
theorem lookup (h : heap.Fresh s) (name : String) : heap.lookup s name = none := by
  have hframe : heap.frame? s = some ⟨[], none⟩ := h
  rw [Heap.lookup, Heap.lookupFrom, hframe]
  rfl

/-- A new scope without a parent is fresh. -/
theorem newScope (heap : Heap) : (heap.newScope none).2.Fresh ⟨heap.frames.size⟩ :=
  Array.getElem?_push_size

end Heap.Fresh

/-! ### Expansion -/

variable {ρ : Pairing} {s s' : ScopeId}

/-- A program that is expanded with a fresh scope of macros is well
formed, and it is like some program. So its tokens tell. -/
theorem expand_of_fresh {heap heap' : Heap} {fuel : Nat} {source : String} {program : Program}
    (hfresh : heap.Fresh s)
    (hrun : (expand fuel source s).run heap = .ok (.ok program, heap')) :
    program.WellFormed ∧ ∃ program', ProgramsAlike program program' := by
  -- The same expansion in a heap that holds nothing else.
  let clean : Heap := (({} : Heap).newScope none).2
  have hclean : clean.Fresh ⟨0⟩ := .newScope {}
  have hsimulates := expand_simulates fuel source (Pairing.scope_ofScopes s ⟨0⟩) heap clean
    (hfresh.corresponds hclean)
  rw [hrun] at hsimulates
  obtain ⟨r, after, ρ', hrun', -, -, hr⟩ := hsimulates
  cases hr with
  | @ok _ program' halike =>
      have hsafe := expand_safe Lexicon.closed_source fuel source ⟨0⟩
      obtain ⟨-, hanswer⟩ := hsafe.of_run (Heap.over_empty.newScope none) hrun'
      have hover : Part.Over .source (.body program') := hanswer program' rfl
      have hwell : program.WellFormed := halike.telling_symm.preserves_over hover
      exact ⟨hwell, program', halike⟩

/-! ### The text of an expanded program -/

/-- A program that is like one without definitions has none. -/
theorem ProgramsAlike.macroDefinition?_eq_none {program program' : Program}
    (h : ProgramsAlike program program') (hnone : ∀ st ∈ program, macroDefinition? st = none) :
    ∀ st ∈ program', macroDefinition? st = none := by
  induction program generalizing program' with
  | nil =>
      cases h
      exact nofun
  | cons st rest ih =>
      cases h with
      | @stmts _ st' _ _ hst hrest =>
          obtain ⟨hfirst, hbehind⟩ := List.forall_mem_cons.mp hnone
          -- Alike statements define macros on both sides or on neither.
          have hdefinition := rel_macroDefinition? hst
          rw [hfirst] at hdefinition
          generalize hdef : macroDefinition? st' = d at hdefinition
          cases hdefinition with
          | none => exact List.forall_mem_cons.mpr ⟨hdef, ih hrest hbehind⟩

/-- Without definitions and without names that are bound, a program that
parses is its own expansion. -/
theorem expand_run_of_fresh {heap : Heap} {macros : ScopeId} {source : String}
    (hfresh : heap.Fresh macros) (herrors : (parse source).errors = [])
    (hnone : ∀ st ∈ (parse source).program, macroDefinition? st = none) (fuel : Nat) :
    (expand fuel source macros).run heap = .ok (.ok (parse source).program, heap) := by
  have hdefinitions : (parse source).program.definitions = [] :=
    List.filterMap_eq_nil_iff.mpr hnone
  have hrest : (parse source).program.withoutDefinitions = (parse source).program :=
    List.filter_eq_self.mpr fun st hst => by rw [hnone st hst]; rfl
  rw [expand_run herrors, hdefinitions, hrest]
  exact bind_run (expandProgram_of_unbound fuel hfresh.lookup (parse source).program)

/-- The text of a program that has no definitions is not changed by
another expansion. A run of it evaluates what it is parsed as, which is
like the program itself. -/
theorem run_render {heap : Heap} {macros : ScopeId} (hfresh : heap.Fresh macros)
    {program program' : Program} (hwell : program.WellFormed)
    (htells : ProgramsAlike program program')
    (hnone : ∀ st ∈ program, macroDefinition? st = none) :
    ∃ parsed, ProgramsAlike program parsed ∧ ∀ fuel scope,
      (run fuel (Program.render program) scope macros).run heap
        = (ExceptT.lift (evalProgram fuel scope parsed) : RunM (Option Value)).run heap := by
  obtain ⟨herrors, hsame⟩ :=
    parse_of_lexemes (Program.lexemes_render hwell) (derives_spellBody program)
  -- The text is read back to an alike program, in which there is nothing to expand.
  have halike : ProgramsAlike program (parse (Program.render program)).program :=
    (Alike.telling_of_same (parse_telling herrors) htells hsame).telling_symm
  refine ⟨_, halike, fun fuel scope => ?_⟩
  have hdefinitions := halike.macroDefinition?_eq_none hnone
  exact bind_run_of_ok (expand_run_of_fresh hfresh herrors hdefinitions fuel)

/-- Two values are of the same kind, and read the same. -/
def Value.Reads (v v' : Value) : Prop :=
  v.kind = v'.kind ∧ v.render = v'.render

/-- Values that correspond read the same. -/
theorem OptionCorresponds.reads {o o' : Option Value} (h : OptionCorresponds ρ o o') :
    Option.Rel Value.Reads o o' := by
  cases h with
  | some hv => exact .some ⟨hv.kind, hv.render⟩
  | none => exact .none

/-- The text of an expanded program means the same as the program. A
source text is expanded with a fresh scope of macros, and no definition
of a macro comes out at the top level. Then a run of the text of the
expanded program with fresh scopes ends if and only if the evaluation of
the program in a fresh scope does. With whatever fuel they end, the run
does not fail, and either neither has a value, or the two values are of
the same kind and read the same. What else is in the heaps does not
matter. -/
theorem expanded_text_means_the_same {fuel₀ : Nat} {source : String} {macros₀ : ScopeId}
    {heap₀ heap₁ : Heap} {program : Program} (hfresh₀ : heap₀.Fresh macros₀)
    (hexpand : (expand fuel₀ source macros₀).run heap₀ = .ok (.ok program, heap₁))
    (hnone : ∀ st ∈ program, macroDefinition? st = none)
    {heap heap' : Heap} {scope scope' macros' : ScopeId} (hscope : heap.Fresh scope)
    (hscope' : heap'.Fresh scope') (hmacros' : heap'.Fresh macros') :
    ((∃ fuel v after, evalProgram fuel scope program heap = .ok (v, after)) ↔
      ∃ fuel answer after,
        (run fuel (Program.render program) scope' macros').run heap' = .ok (answer, after)) ∧
    ∀ fuel v after fuel' answer after',
      evalProgram fuel scope program heap = .ok (v, after) →
      (run fuel' (Program.render program) scope' macros').run heap' = .ok (answer, after') →
        ∃ v', answer = .ok v' ∧ Option.Rel Value.Reads v v' := by
  obtain ⟨hwell, program', htells⟩ := expand_of_fresh hfresh₀ hexpand
  obtain ⟨parsed, halike, hrun⟩ := run_render hmacros' hwell htells hnone
  -- The two evaluations go in step, so each of them ends where the other one does.
  have hsimulates := fun fuel => evalProgram_simulates fuel (Pairing.scope_ofScopes scope scope')
    halike heap heap' (hscope.corresponds hscope')
  have hends {fuel : Nat} {v : Option Value} {after : Heap}
      (heval : evalProgram fuel scope program heap = .ok (v, after)) :
      ∃ v' after', evalProgram fuel scope' parsed heap' = .ok (v', after') ∧
        Option.Rel Value.Reads v v' := by
    have hstep := hsimulates fuel
    rw [heval] at hstep
    obtain ⟨v', after', ρ', heval', -, -, hv⟩ := hstep
    exact ⟨v', after', heval', hv.reads⟩
  refine ⟨⟨?evaluated, ?ran⟩, ?answers⟩
  case evaluated =>
    rintro ⟨fuel, v, after, heval⟩
    obtain ⟨v', after', heval', -⟩ := hends heval
    exact ⟨fuel, .ok v', after', (hrun fuel scope').trans (lift_run heval')⟩
  case ran =>
    rintro ⟨fuel, answer, after, hanswer⟩
    obtain ⟨v', -, heval'⟩ := lift_run_eq_ok ((hrun fuel scope').symm.trans hanswer)
    have hstep := hsimulates fuel
    cases heval : evalProgram fuel scope program heap with
    | ok r => exact ⟨fuel, r.1, r.2, heval⟩
    | error stop =>
        rw [heval] at hstep
        cases hstep.symm.trans heval'
  case answers =>
    intro fuel v after fuel' answer after' heval hanswer
    obtain ⟨v', rfl, heval'⟩ := lift_run_eq_ok ((hrun fuel' scope').symm.trans hanswer)
    obtain ⟨w, _, hstep, hw⟩ := hends heval
    -- More fuel would not change either answer.
    obtain ⟨rfl, -⟩ :=
      (evalProgram_steady scope' parsed).ends_unique ⟨fuel, hstep⟩ ⟨fuel', heval'⟩
    exact ⟨_, rfl, hw⟩

/-- A macro call inside of a quote. The expanded text quotes what the
macro has left there. -/
theorem expanded_text_means_the_same_quote :
    let source := "let m = macro(a, b) \x7b quote(unquote(b) - unquote(a)) \x7d; " ++
      "let f = fn(x) \x7b quote(unquote(x) + m(1, 2)) \x7d; f(3)"
    let heap : Heap := ((({} : Heap).newScope none).2.newScope none).2
    ∃ program after, (expand 9 source ⟨1⟩).run heap = .ok (.ok program, after) ∧
      Program.render program = "let f = fn(x) \x7b quote((unquote(x) + (2 - 1))); \x7d; f(3);" ∧
      ∃ fuel v after', (run fuel (Program.render program) ⟨0⟩ ⟨1⟩).run heap
          = .ok (.ok (some v), after') ∧
        v.kind = .quote ∧ v.render = "QUOTE((3 + (2 - 1)))" := by
  intro source heap
  have hcomputed : ((expand 9 source ⟨1⟩).run heap).toOption.bind (fun r =>
      r.1.toOption.map fun program => (Program.render program,
        program.all fun st => (macroDefinition? st).isNone,
        (evalProgram 9 ⟨0⟩ program heap).toOption.bind fun r' =>
          r'.1.map fun v => (v.kind, v.render)))
        = some ("let f = fn(x) \x7b quote((unquote(x) + (2 - 1))); \x7d; f(3);", true,
            some (.quote, "QUOTE((3 + (2 - 1)))")) := by decide +kernel
  obtain ⟨⟨expanded, after⟩, hexpand, hanswer⟩ := exists_ok_of_bind_toOption hcomputed
  obtain ⟨program, rfl, hread⟩ := exists_ok_of_map_toOption hanswer
  obtain ⟨hrender, hread⟩ := Prod.mk.inj hread
  obtain ⟨hall, hvalue⟩ := Prod.mk.inj hread
  have hnone : ∀ st ∈ program, macroDefinition? st = none := by
    simpa [List.all_eq_true] using hall
  obtain ⟨⟨answer, after'⟩, heval, hvalue⟩ := exists_ok_of_bind_toOption hvalue
  obtain ⟨v, rfl, hshown⟩ := Option.map_eq_some_iff.mp hvalue
  obtain ⟨hkind, htext⟩ := Prod.mk.inj hshown
  have hfresh : heap.Fresh ⟨0⟩ := rfl
  -- The program itself is evaluated above; its text is run by the theorem alone.
  have hmeans := expanded_text_means_the_same (show heap.Fresh ⟨1⟩ from rfl) hexpand
    hnone hfresh hfresh (show heap.Fresh ⟨1⟩ from rfl)
  obtain ⟨fuel, answer, final, hrun⟩ := hmeans.1.mp ⟨9, some v, after', heval⟩
  obtain ⟨v', rfl, hreads⟩ := hmeans.2 9 (some v) after' fuel answer final heval hrun
  cases hreads with
  | @some _ v' hv =>
      exact ⟨program, after, hexpand, hrender, fuel, v', final, hrun, hv.1.symm.trans hkind,
        hv.2.symm.trans htext⟩

end QuoteScript
