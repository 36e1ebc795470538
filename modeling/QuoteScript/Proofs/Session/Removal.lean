import QuoteScript.Proofs.Session.Effects

/-!
# `QuoteScript.Proofs.Session.Removal`: definitions that are taken out by place

`defineMacros` leaves a statement out as soon as it has bound its macro.
The definitions can also be taken out afterwards: the program is walked
over once, the macros are bound and the places of their statements are
collected, and then what stands at these places is removed from the
program itself.

A removal moves everything that stands behind it. So the last place comes
first: the places that are left to remove are in front of it, and they
stay where they are.

* `bindDefinitions`: the walk, with the places that it collects.
* `removeAt?`, `removeEach?`: removals. There is none at a place where
  nothing stands.
* `removeEach?_definitionPlaces`: what the removals leave.
* `defineInPlace_eq`: both ways are the same.
-/

set_option autoImplicit false

namespace QuoteScript

open EvalM

/-- The places of the statements that define a macro. The first statement
of the program stands at `place`. -/
def definitionPlaces (place : Nat) : Program → List Nat
  | [] => []
  | s :: rest =>
    match macroDefinition? s with
    | some _ => place :: definitionPlaces (place + 1) rest
    | none => definitionPlaces (place + 1) rest

/-- Binds the macros that a program defines, in order, and collects the
places of their statements. -/
def bindDefinitions (macros : ScopeId) (place : Nat) : Program → EvalM (List Nat)
  | [] => return []
  | s :: rest =>
    match macroDefinition? s with
    | some (name, params, body) => do
      let v ← newClosure .macroRule params body macros
      bindName macros name v
      let places ← bindDefinitions macros (place + 1) rest
      return place :: places
    | none => bindDefinitions macros (place + 1) rest

/-- Takes out the statement at a place, if there is one. -/
def removeAt? (program : Program) (place : Nat) : Option Program :=
  if place < program.length then some (program.eraseIdx place) else none

/-- Takes out the statements at some places, one after the other. -/
def removeEach? (program : Program) (places : List Nat) : Option Program :=
  places.foldlM removeAt? program

/-- Binds the macros that a program defines, and then takes their
statements out of it, the last one first. -/
def defineInPlace (macros : ScopeId) (program : Program) : EvalM (Option Program) := do
  let places ← bindDefinitions macros 0 program
  return removeEach? program places.reverse

/-- The walk binds the definitions, and it finds their places. -/
theorem bindDefinitions_run (macros : ScopeId) (place : Nat) (program : Program) (heap : Heap) :
    bindDefinitions macros place program heap
      = .ok (definitionPlaces place program, heap.define macros program.definitions) := by
  induction program generalizing heap place with
  | nil => rfl
  | cons s rest ih =>
      rw [bindDefinitions, definitionPlaces, Program.definitions, List.filterMap_cons]
      cases hdef : macroDefinition? s with
      -- A definition has its place noted and is bound; any other statement is passed over.
      | some definition =>
          obtain ⟨name, params, body⟩ := definition
          show (bindDefinitions macros (place + 1) rest >>= fun places => pure (place :: places)) _
            = _
          exact bind_run (ih (place + 1) _)
      | none => exact ih (place + 1) heap

/-- Removing the statement behind others. -/
theorem removeAt?_append_cons (front : Program) (s : Stmt) (behind : Program) :
    removeAt? (front ++ s :: behind) front.length = some (front ++ behind) := by
  have hplace : front.length < (front ++ s :: behind).length := by simp
  rw [removeAt?, if_pos hplace, List.eraseIdx_append_of_length_le (Nat.le_refl _), Nat.sub_self]
  rfl

/-- The removals find a statement at every place, and what they leave is
the program without its definitions. What stands in front stays. -/
theorem removeEach?_definitionPlaces (front program : Program) :
    removeEach? (front ++ program) (definitionPlaces front.length program).reverse =
      some (front ++ program.withoutDefinitions) := by
  induction program generalizing front with
  | nil => rfl
  | cons s rest ih =>
      -- Behind `s`, the places are those of the rest, with `s` in front of it.
      have hrest := ih (front ++ [s])
      rw [List.length_append, List.length_singleton, List.append_assoc, List.append_assoc,
        List.singleton_append, List.singleton_append] at hrest
      rw [definitionPlaces, Program.withoutDefinitions, List.filter_cons]
      cases hdef : macroDefinition? s with
      | none => exact hrest
      | some definition =>
          dsimp only
          rw [List.reverse_cons, removeEach?, List.foldlM_append, ← removeEach?, hrest]
          -- The definition comes last, when nothing behind it is left to remove.
          have hlast := removeAt?_append_cons front s (Program.withoutDefinitions rest)
          show (removeAt? _ front.length >>= pure) = _
          rw [bind_pure]
          exact hlast

/-- Taking the definitions out by their places is the same as leaving them
out while they are bound. Every removal finds its statement, and the heap
that is left behind is the same. -/
theorem defineInPlace_eq (macros : ScopeId) (program : Program) :
    defineInPlace macros program = some <$> defineMacros macros program := by
  funext heap
  have hremoved := removeEach?_definitionPlaces [] program
  have hdefined := defineMacros_run macros program heap
  rw [defineInPlace, bind_run (bindDefinitions_run macros 0 program heap), map_eq_pure_bind,
    bind_run hdefined]
  exact congrArg (fun left => Except.ok (left, heap.define macros program.definitions)) hremoved

end QuoteScript
