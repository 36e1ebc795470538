import QuoteScript.Proofs.Expansion.Writes
import QuoteScript.Session.Run

/-!
# `QuoteScript.Proofs.Session.Effects`: what a run leaves behind

A run has three phases, and each of them binds names in one place. The
definitions of a text are bound in the scope of macros, one after the
other. Expansion binds nothing in a scope that is there. The program
that is left binds names in the scope of values.

So what is in the scope of macros afterwards can be read off the text:
it is what was there before, with the definitions of the text. It does
not matter what the bodies of macros do, nor how the run ends. A run
that a misuse ends has not touched the scope of values, and a text that
does not parse leaves everything as it is.

* `Frame.define`: a scope with definitions bound in it.
* `defineMacros_run`: the first phase.
* `runs_define_macros`: runs and expansions.
-/

set_option autoImplicit false

namespace QuoteScript

open EvalM

/-! ### Definitions -/

/-- A name that is bound to a macro, with the parameters and the body of
the macro. -/
abbrev Definition : Type :=
  String × List String × Block

namespace Program

/-- The macros that a program defines at its top level, in order. -/
def definitions (program : Program) : List Definition :=
  program.filterMap macroDefinition?

/-- The other statements of a program. -/
def withoutDefinitions (program : Program) : Program :=
  program.filter fun s => (macroDefinition? s).isNone

end Program

/-- A scope of macros with definitions bound in it, in order. The macros
get handles one after the other, from `next` on. -/
def Frame.define (macros : ScopeId) (next : Nat) (frame : Frame) : List Definition → Frame
  | [] => frame
  | (name, params, body) :: rest =>
    (frame.bind name (.closure .macroRule ⟨next⟩ params body macros)).define macros (next + 1) rest

namespace Heap

/-- The same for the heap that the scope is in. -/
def define (heap : Heap) (macros : ScopeId) : List Definition → Heap
  | [] => heap
  | (name, params, body) :: rest =>
    let made := heap.newHandle
    (made.2.bind macros name (.closure .macroRule made.1 params body macros)).define macros rest

variable {heap : Heap} {macros : ScopeId}

/-- The scope of the macros binds the definitions, one after the other. -/
theorem frame?_define_self {frame : Frame} (h : heap.frame? macros = some frame)
    (definitions : List Definition) :
    (heap.define macros definitions).frame? macros
      = some (frame.define macros heap.nextHandle definitions) := by
  induction definitions generalizing heap frame with
  | nil => exact h
  | cons definition rest ih =>
      have hmade : heap.newHandle.2.frame? macros = some frame := h
      exact ih (frame?_bind_self hmade _ _)

/-- All other scopes are left alone. -/
theorem frame?_define_of_ne {s : ScopeId} (h : s ≠ macros) (definitions : List Definition) :
    (heap.define macros definitions).frame? s = heap.frame? s := by
  induction definitions generalizing heap with
  | nil => rfl
  | cons definition rest ih => exact ih.trans (frame?_bind_of_ne h _ _)

end Heap

/-- The definitions are bound, and the other statements are given
back. -/
theorem defineMacros_run (macros : ScopeId) (program : Program) (heap : Heap) :
    defineMacros macros program heap
      = .ok (program.withoutDefinitions, heap.define macros program.definitions) := by
  induction program generalizing heap with
  | nil => rfl
  | cons s rest ih =>
      rw [defineMacros, Program.withoutDefinitions, Program.definitions, List.filter_cons,
        List.filterMap_cons]
      cases hdef : macroDefinition? s with
      | some definition => exact ih _
      | none => exact bind_run (ih heap)

/-! ### Phases of a run -/

section Phases

variable {heap heap' : Heap} {fuel : Nat} {source : String} {scope macros : ScopeId}

/-- A text that does not parse is not expanded. -/
theorem expand_run_of_errors (h : (parse source).errors ≠ []) :
    (expand fuel source macros).run heap
      = .ok (.error (.syntaxErrors (parse source).errors), heap) := by
  rw [expand, if_neg fun hempty => h (List.isEmpty_iff.mp hempty)]
  rfl

/-- A text that parses is expanded once its macros are defined. -/
theorem expand_run (h : (parse source).errors = []) :
    (expand fuel source macros).run heap
      = (liftMisuse (expandProgram fuel macros (parse source).program.withoutDefinitions)).run
          (heap.define macros (parse source).program.definitions) := by
  have hlift : (ExceptT.lift (defineMacros macros (parse source).program) : RunM Program).run heap
      = .ok (.ok (parse source).program.withoutDefinitions,
          heap.define macros (parse source).program.definitions) :=
    lift_run (defineMacros_run macros (parse source).program heap)
  rw [expand, if_pos (List.isEmpty_iff.mpr h)]
  exact bind_run_of_ok hlift

/-- A misuse is the only way in which expansion fails. -/
theorem liftMisuse_extends {α : Type} {x : ExceptT Misuse EvalM α} {P : α → Prop}
    (h : ExtendsOrFails x P) :
    Moves .extending (liftMisuse x).run fun r => ∀ errors, r ≠ .error (.syntaxErrors errors) := by
  refine Moves.bind h fun r _ => ?_
  cases r <;> exact .pure nofun

/-- All scopes stay as the definitions have left them. -/
theorem expand_extends (h : (parse source).errors = []) {answer : Except Failure Program}
    (hrun : (expand fuel source macros).run heap = .ok (answer, heap')) :
    (heap.define macros (parse source).program.definitions).Extends heap' ∧
      ∀ errors, answer ≠ .error (.syntaxErrors errors) := by
  rw [expand_run h] at hrun
  exact liftMisuse_extends (expandProgram_extends _ _ _) _ _ _ hrun

/-- A run ends where its expansion fails, or goes on with the expanded
program. -/
theorem run_cases {answer : Except Failure (Option Value)}
    (hrun : (run fuel source scope macros).run heap = .ok (answer, heap')) :
    (∃ failure, answer = .error failure ∧
        (expand fuel source macros).run heap = .ok (.error failure, heap')) ∨
      ∃ program heap₁ v, answer = .ok v ∧
        (expand fuel source macros).run heap = .ok (.ok program, heap₁) ∧
        evalProgram fuel scope program heap₁ = .ok (v, heap') := by
  obtain ⟨result, heap₁, hexpand, hrun⟩ := bind_run_eq_ok hrun
  cases result with
  | error failure =>
      cases hrun
      exact .inl ⟨failure, rfl, hexpand⟩
  | ok program =>
      obtain ⟨v, rfl, heval⟩ := lift_run_eq_ok hrun
      -- An evaluation does not fail: a fault is an answer.
      exact .inr ⟨program, heap₁, v, rfl, hexpand, heval⟩

end Phases

/-! ### Runs -/

/-- A heap after a text: its definitions are bound in the scope of
macros, and every other scope is as it was, apart from new ones and
from the scopes in `written`. -/
structure Heap.Defines (macros : ScopeId) (definitions : List Definition) (written : ScopeId → Prop)
    (heap heap' : Heap) : Prop where
  own : ∀ frame, heap.frame? macros = some frame →
    heap'.frame? macros = some (frame.define macros heap.nextHandle definitions)
  others : ∀ s frame, s ≠ macros → ¬ written s → heap.frame? s = some frame →
    heap'.frame? s = some frame

/-- What only makes new scopes behind the definitions leaves them as
they are. -/
theorem Heap.defines_of_extends {heap heap' : Heap} {macros : ScopeId}
    {definitions : List Definition} (h : (heap.define macros definitions).Extends heap') :
    heap.Defines macros definitions (fun _ => False) heap' where
  own _ hframe := h _ _ (frame?_define_self hframe definitions)
  others s frame hs _ hframe := h s frame ((frame?_define_of_ne hs definitions).trans hframe)

/-- What is written in another scope leaves the definitions as they
are. -/
theorem Heap.Defines.writes {heap heap₁ heap' : Heap} {macros scope : ScopeId}
    {definitions : List Definition} (h : heap.Defines macros definitions (fun _ => False) heap₁)
    (hne : scope ≠ macros) (hwrites : heap₁.Writes scope heap') :
    heap.Defines macros definitions (· = scope) heap' where
  own frame hframe := hwrites.others _ _ hne.symm (h.own frame hframe)
  others s frame hs hscope hframe := hwrites.others s frame hscope (h.others s frame hs id hframe)

/-- What a run and an expansion leave behind.

* A text that does not parse fails both, and changes nothing.
* A text that parses never fails for its syntax. However a run of it
  ends, the scope of macros has the definitions of the text bound in it,
  in order, and nothing else has changed there. The scope of values is
  the only other scope that may have changed, and it has not when a
  misuse has ended the run.
* However an expansion ends, the scope of macros has the definitions of
  the text bound in it, and no other scope has changed. -/
theorem runs_define_macros {scope macros : ScopeId} (hne : scope ≠ macros) (fuel : Nat)
    (source : String) (heap : Heap) :
    let errors := (parse source).errors
    let definitions := (parse source).program.definitions
    (errors ≠ [] →
      (run fuel source scope macros).run heap = .ok (.error (.syntaxErrors errors), heap) ∧
        (expand fuel source macros).run heap = .ok (.error (.syntaxErrors errors), heap)) ∧
    (errors = [] →
      (∀ answer heap', (run fuel source scope macros).run heap = .ok (answer, heap') →
        (∀ errors, answer ≠ .error (.syntaxErrors errors)) ∧
          heap.Defines macros definitions (· = scope) heap' ∧
          ∀ misuse, answer = .error (.misuse misuse) →
            heap.Defines macros definitions (fun _ => False) heap') ∧
      ∀ answer heap', (expand fuel source macros).run heap = .ok (answer, heap') →
        (∀ errors, answer ≠ .error (.syntaxErrors errors)) ∧
          heap.Defines macros definitions (fun _ => False) heap') := by
  intro errors definitions
  refine ⟨fun herrors => ?_, fun herrors => ⟨?run, ?expand⟩⟩
  · have hexpand :
        (expand fuel source macros).run heap = .ok (.error (.syntaxErrors errors), heap) :=
      expand_run_of_errors herrors
    exact ⟨bind_run hexpand, hexpand⟩
  case run =>
    intro answer heap' hrun
    rcases run_cases hrun with ⟨failure, rfl, hexpand⟩ | ⟨program, heap₁, v, rfl, hexpand, heval⟩
    -- Nothing has been evaluated in the scope of values.
    · obtain ⟨hextends, hanswer⟩ := expand_extends herrors hexpand
      have hdefines := Heap.defines_of_extends hextends
      have hwrites := hdefines.writes hne (.refl scope heap')
      exact ⟨fun errors herror => hanswer errors (congrArg _ (Except.error.inj herror)), hwrites,
        fun _ _ => hdefines⟩
    -- The expanded program writes the scope of values, which is not that of macros.
    · have hdefines := Heap.defines_of_extends (expand_extends herrors hexpand).1
      have hevaluation := (evalProgram_writes fuel scope program heap₁ v heap' heval).1
      have hwrites := hdefines.writes hne hevaluation
      exact ⟨nofun, hwrites, nofun⟩
  case expand =>
    intro answer heap' hrun
    obtain ⟨hextends, hanswer⟩ := expand_extends herrors hrun
    exact ⟨hanswer, Heap.defines_of_extends hextends⟩

/-- A misuse behind a `let`: the body of the macro answers with an
integer. The macro is defined, and the `let` has bound nothing. -/
theorem runs_define_macros_misuse :
    let source := "let a = 1; let m = macro(x) \x7b let b = 2; b \x7d; m(a)"
    let heap : Heap := ((({} : Heap).newScope none).2.newScope none).2
    ∃ heap', (run 9 source ⟨0⟩ ⟨1⟩).run heap
        = .ok (.error (.misuse (.notAQuote "m" .integer)), heap') ∧
      heap'.frame? ⟨0⟩ = some ⟨[], none⟩ ∧
      (heap'.frame? ⟨1⟩).map Frame.names = some ["m"] := by
  intro source heap
  have hparse : (parse source).errors = [] := by decide +kernel
  have hnames : (parse source).program.definitions.map (·.1) = ["m"] := by decide +kernel
  have hmisuse : ((run 9 source ⟨0⟩ ⟨1⟩).run heap).toOption.bind (fun r =>
      match r.1 with
      | .error (.misuse m) => some m
      | _ => none) = some (.notAQuote "m" .integer) := by decide +kernel
  obtain ⟨⟨answer, heap'⟩, hrun, hanswer⟩ := exists_ok_of_bind_toOption hmisuse
  obtain rfl : answer = .error (.misuse (.notAQuote "m" .integer)) := by
    rcases answer with (errors | misuse) | v <;> cases hanswer
    rfl
  have hruns := (@runs_define_macros ⟨0⟩ ⟨1⟩ nofun 9 source heap).2 hparse
  have hdefines := (hruns.1 _ heap' hrun).2.2 _ rfl
  obtain ⟨⟨name, params, body⟩, hdefinition, hname⟩ := List.map_eq_singleton_iff.mp hnames
  -- The macro is defined although the run fails on it.
  have hmacros := hdefines.own ⟨[], none⟩ rfl
  rw [hdefinition] at hmacros
  cases hname
  exact ⟨heap', hrun, hdefines.others ⟨0⟩ _ nofun id rfl, congrArg _ hmacros⟩

end QuoteScript
