import QuoteScript.Proofs.Expansion.Fuel
import QuoteScript.Proofs.Session.Effects
import QuoteScript.Proofs.Session.Simulation

/-!
# `QuoteScript.Proofs.Session.Steps`: what a session shows

A session performs steps, one after the other, in a scope of values and
a scope of macros. A step runs or expands a source text. What a user
sees of a step is whether there is a value, of which kind it is and how
it reads, the text of an expanded program, or the failure. What a user
sees of a scope is the names that it binds, and what their values look
like.

* `Step.perform`, `Performs`: one step, and many.
* `Performs.unique`: a list of steps ends in one way.
* `Step.perform_simulates`: corresponding heaps show the same.
* `Step.perform_others`: a step changes no other scopes.
-/

set_option autoImplicit false

namespace QuoteScript

open EvalM

/-! ### Steps -/

/-- The scope of values and the scope of macros of a session. -/
structure Environments where
  values : ScopeId
  macros : ScopeId

/-- One of the two scopes. -/
def Environments.Names (env : Environments) (s : ScopeId) : Prop :=
  s = env.values ∨ s = env.macros

/-- A step of a session. -/
inductive Step where
  | run (source : String)
  | expand (source : String)

/-- What is shown of the answer of a step. -/
inductive Shown where
  | nothing
  | value (kind : ValueKind) (text : String)
  | program (text : String)
  | failed (failure : Failure)
  deriving DecidableEq

/-- What is shown of a value, if there is one. -/
def Shown.ofValue : Option Value → Shown
  | none => nothing
  | some v => value v.kind v.render

/-- Performs a step, and shows its answer. -/
def Step.perform (fuel : Nat) (env : Environments) : Step → EvalM Shown
  | .run source => do
    match ← (QuoteScript.run fuel source env.values env.macros).run with
    | .ok v => return .ofValue v
    | .error failure => return .failed failure
  | .expand source => do
    match ← (QuoteScript.expand fuel source env.macros).run with
    | .ok program => return .program (Program.render program)
    | .error failure => return .failed failure

/-- A run that does not fail shows its value. -/
theorem Step.perform_run_eq {fuel : Nat} {source : String} {env : Environments} {heap : Heap}
    {x : EvalM (Option Value)}
    (h : (QuoteScript.run fuel source env.values env.macros).run heap
      = (ExceptT.lift x : RunM (Option Value)).run heap) :
    (Step.run source).perform fuel env heap = (x >>= fun v => pure (.ofValue v)) heap := by
  cases hx : x heap with
  | ok r =>
      rw [bind_run hx]
      exact bind_run (h.trans (lift_run hx))
  | error stop =>
      rw [bind_run_of_error hx]
      exact bind_run_of_error (h.trans (lift_run_of_error hx))

/-- Steps are performed one after the other. Each of them ends, with
some amount of fuel. -/
inductive Performs (env : Environments) : List Step → Heap → List Shown → Heap → Prop where
  | nil {heap : Heap} : Performs env [] heap [] heap
  | cons {step : Step} {rest : List Step} {shown : Shown} {answers : List Shown}
      {heap heap₁ heap₂ : Heap} (hstep : Ends (step.perform · env) heap shown heap₁)
      (hrest : Performs env rest heap₁ answers heap₂) :
      Performs env (step :: rest) heap (shown :: answers) heap₂

/-- Steps that end one after the other, all with the same amount of
fuel. -/
theorem Performs.of_mapM {fuel : Nat} {env : Environments} {steps : List Step} {heap heap' : Heap}
    {answers : List Shown} (hrun : steps.mapM (Step.perform fuel env) heap = .ok (answers, heap')) :
    Performs env steps heap answers heap' := by
  -- The heap changes from step to step, so the induction is on the steps for any heap.
  induction steps generalizing heap answers with
  | nil =>
      cases hrun
      exact .nil
  | cons step rest ih =>
      rw [List.mapM_cons] at hrun
      obtain ⟨shown, heap₁, hstep, hrun⟩ := bind_run_eq_ok hrun
      obtain ⟨answers₁, heap₂, hrest, hrun⟩ := bind_run_eq_ok hrun
      cases hrun
      exact .cons ⟨fuel, hstep⟩ (ih hrest)

/-- Steps one after the other, in the heap that the first ones leave. -/
theorem Performs.append {env : Environments} {first second : List Step} {heap heap₁ heap₂ : Heap}
    {answers answers' : List Shown} (h : Performs env first heap answers heap₁)
    (h' : Performs env second heap₁ answers' heap₂) :
    Performs env (first ++ second) heap (answers ++ answers') heap₂ := by
  induction h with
  | nil => exact h'
  | cons hstep _ ih => exact .cons hstep (ih h')

/-- With more fuel, a step shows the same. -/
theorem Step.perform_steady (step : Step) (env : Environments) :
    Steady fun fuel => step.perform fuel env := by
  intro fuel more hle
  cases step with
  | run source =>
      exact (run_steady source env.values env.macros fuel more hle).bind fun _ => .refl _
  | expand source => exact (expand_steady source env.macros fuel more hle).bind fun _ => .refl _

/-- There is only one way in which a list of steps ends. -/
theorem Performs.unique {env : Environments} {steps : List Step} {heap heap₁ heap₂ : Heap}
    {answers answers' : List Shown} (h : Performs env steps heap answers heap₁)
    (h' : Performs env steps heap answers' heap₂) : answers' = answers ∧ heap₂ = heap₁ := by
  induction h generalizing answers' with
  | nil =>
      cases h'
      exact ⟨rfl, rfl⟩
  | cons hstep _ ih =>
      cases h' with
      | cons hstep' hrest' =>
          obtain ⟨rfl, rfl⟩ := (Step.perform_steady _ env).ends_unique hstep hstep'
          -- The first steps end alike, so the others start in the same heap.
          obtain ⟨rfl, rfl⟩ := ih hrest'
          exact ⟨rfl, rfl⟩

/-! ### Corresponding heaps -/

/-- What is shown of a scope: its names, the oldest first, and what
their values look like. -/
def Heap.shown (heap : Heap) (s : ScopeId) : Option (List (String × Shown)) :=
  (heap.frame? s).map fun frame => frame.bindings.map fun b => (b.1, .ofValue (some b.2))

variable {ρ : Pairing} {s s' : ScopeId} {heap heap' : Heap}

/-- Values that correspond are shown alike. -/
theorem OptionCorresponds.shown {v v' : Option Value} (h : OptionCorresponds ρ v v') :
    Shown.ofValue v = Shown.ofValue v' := by
  cases h with
  | some hv => rw [Shown.ofValue, Shown.ofValue, hv.kind, hv.render]
  | none => rfl

/-- So are bindings of such values. -/
theorem shown_bindings {bindings bindings' : List (String × Value)}
    (h : List.Forall₂ (Keyed (Value.Corresponds ρ)) bindings bindings') :
    bindings.map (fun b => (b.1, Shown.ofValue (some b.2)))
      = bindings'.map fun b => (b.1, Shown.ofValue (some b.2)) := by
  induction h with
  | nil => rfl
  | cons hbinding _ ih =>
      obtain ⟨hv⟩ := hbinding
      rw [List.map_cons, List.map_cons, ih, OptionCorresponds.shown (.some hv)]

/-- Paired scopes look the same. -/
theorem Heap.Corresponds.shown (h : Heap.Corresponds ρ heap heap') (hs : ρ.scope s s') :
    heap.shown s = heap'.shown s' := by
  obtain ⟨frame, frame', hframe, hframe', hcorresponds⟩ := h.frames hs
  rw [Heap.shown, Heap.shown, hframe, hframe']
  exact congrArg some (shown_bindings hcorresponds.bindings)

/-- A step shows the same in corresponding heaps. -/
theorem Step.perform_simulates (fuel : Nat) (step : Step) {env env' : Environments}
    (hvalues : ρ.scope env.values env'.values) (hmacros : ρ.scope env.macros env'.macros) :
    Simulates ρ (step.perform fuel env) (step.perform fuel env') fun _ => Eq := by
  cases step with
  | run source =>
      refine Simulates.bind (run_simulates fuel source hvalues hmacros) fun ρ' r r' _ hr => ?_
      cases hr with
      | ok hv => exact .pure hv.shown
      | error failure => exact .pure rfl
  | expand source =>
      refine Simulates.bind (expand_simulates fuel source hmacros) fun ρ' r r' _ hr => ?_
      cases hr with
      | @ok program program' hprogram =>
          -- Of a program only the text is shown, and alike programs have the same one.
          have hrender : Program.render program = Program.render program' :=
            @Alike.render _ (.program program) (.program program') hprogram
          exact .pure (congrArg Shown.program hrender)
      | error failure => exact .pure rfl

/-! ### Other scopes -/

/-- The scopes that are not in `env` are as they were. -/
def Heap.Spares (env : Environments) (heap heap' : Heap) : Prop :=
  ∀ s frame, ¬ env.Names s → heap.frame? s = some frame → heap'.frame? s = some frame

/-- Expansion writes to the scope of the macros only, where it defines
them. -/
theorem expand_spares {fuel : Nat} {source : String} {env : Environments}
    {answer : Except Failure Program}
    (hrun : (expand fuel source env.macros).run heap = .ok (answer, heap')) :
    heap.Spares env heap' := by
  intro s frame hs hframe
  have hmacros : s ≠ env.macros := fun h => hs (.inr h)
  by_cases herrors : (parse source).errors = []
  · have hextends := (expand_extends herrors hrun).1
    exact hextends s frame ((Heap.frame?_define_of_ne hmacros _).trans hframe)
  -- With syntax errors the heap is as it was.
  · cases (expand_run_of_errors herrors).symm.trans hrun
    exact hframe

/-- A step writes the two scopes that it is given, and no other one. -/
theorem Step.perform_others {fuel : Nat} {step : Step} {env : Environments} {shown : Shown}
    (hrun : step.perform fuel env heap = .ok (shown, heap')) : heap.Spares env heap' := by
  cases step with
  -- Whatever is shown of the answer, showing it leaves the heap as it is.
  | run source =>
      obtain ⟨answer, heap₁, hanswer, hshown⟩ := bind_run_eq_ok hrun
      have hheap : heap₁ = heap' := by cases answer <;> cases hshown <;> rfl
      rw [hheap] at hanswer
      rcases run_cases hanswer with ⟨failure, -, hexpand⟩ | ⟨program, heap₂, v, -, hexpand, heval⟩
      · exact expand_spares hexpand
      · intro s frame hs hframe
        have hvalues : s ≠ env.values := fun h => hs (.inl h)
        have hwrites := (evalProgram_writes fuel env.values program heap₂ v heap' heval).1
        exact hwrites.others s frame hvalues (expand_spares hexpand s frame hs hframe)
  | expand source =>
      obtain ⟨answer, heap₁, hanswer, hshown⟩ := bind_run_eq_ok hrun
      have hheap : heap₁ = heap' := by cases answer <;> cases hshown <;> rfl
      rw [hheap] at hanswer
      exact expand_spares hanswer

end QuoteScript
