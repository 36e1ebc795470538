import Mathlib.Data.Nat.Basic
import Mathlib.Order.Basic
import QuoteScript.Proofs.Eval.Lockstep
import QuoteScript.Proofs.Scope.Change

/-!
# `QuoteScript.Proofs.Scope.Renaming`: a heap inside of another one

A heap is found in another one under other numbers if all of its scopes
are there, with the same names, and with the values and the parents
under the other numbers. The other heap may hold more scopes, and more
handles may have been handed out.

Evaluations in the two heaps go in step. A name is looked up from a
scope outwards, so the walk never gets to a scope that only the other
heap has. And what is made next has numbers that belong together, now
and for all that is made later: `Heap.Renamed.scopes` and
`Heap.Renamed.handles` say so.

* `Frame.rename`: a scope under other numbers.
* `Heap.Renamed`: the relation, with one fact per operation of the heap.
* `renamed`: renamed heaps go in step.
-/

set_option autoImplicit false

namespace QuoteScript

variable {σ : Renaming} {heap heap' : Heap} {s : ScopeId} {frame : Frame}

/-! ### Scopes -/

/-- The same scope under other numbers. -/
def Frame.rename (σ : Renaming) (frame : Frame) : Frame where
  bindings := frame.bindings.map (renameUnder σ)
  parent := frame.parent.map σ.scope

namespace Frame

/-- A renamed frame binds the renamed value. -/
theorem find?_rename (frame : Frame) (name : String) :
    (frame.rename σ).find? name = (frame.find? name).map (Value.rename σ) := by
  have hname : (fun binding : String × Value => binding.1 == name) ∘ renameUnder σ =
    fun binding => binding.1 == name := rfl
  simp only [find?, rename, List.find?_map, hname, Option.map_map]
  rfl

/-- Putting a binding in goes together with a renaming. -/
theorem put_rename (name : String) (v : Value) (bindings : List (String × Value)) :
    (put name v bindings).map (renameUnder σ) =
      put name (v.rename σ) (bindings.map (renameUnder σ)) := by
  induction bindings with
  | nil => rfl
  | cons binding rest ih =>
      by_cases hname : binding.1 = name
      · simp [put, renameUnder, hname]
      · simp [put, renameUnder, hname, ih]

/-- So does binding a name. -/
theorem bind_rename (frame : Frame) (name : String) (v : Value) :
    (frame.bind name v).rename σ = (frame.rename σ).bind name (v.rename σ) := by
  simp only [bind, rename, put_rename]

end Frame

/-! ### Heaps -/

/-- All scopes of `heap` are scopes of `heap'` under the numbers that
`σ` gives. Nothing in `heap` points to a scope that is not there, and
parents are older than their children on both sides. The numbers that
are given out next belong together. -/
structure Heap.Renamed (σ : Renaming) (heap heap' : Heap) : Prop where
  frames {s : ScopeId} {frame : Frame} : heap.frame? s = some frame →
    heap'.frame? (σ.scope s) = some (frame.rename σ)
  captured {s : ScopeId} {frame : Frame} : heap.frame? s = some frame →
    ∀ binding ∈ frame.bindings, ∀ r, binding.2.Captures r → r.number < heap.frames.size
  parents {s : ScopeId} {frame : Frame} : heap.frame? s = some frame → ∀ p ∈ frame.parent,
    p.number < s.number ∧ (σ.scope p).number < (σ.scope s).number
  scopes (i : Nat) : σ.scope ⟨heap.frames.size + i⟩ = ⟨heap'.frames.size + i⟩
  handles (i : Nat) : σ.handle ⟨heap.nextHandle + i⟩ = ⟨heap'.nextHandle + i⟩

namespace Heap

namespace Renamed

/-- A name means the same in both heaps, up to the numbers. -/
theorem lookupFrom (h : heap.Renamed σ heap') (name : String) {steps steps' : Nat}
    (hs : s.number < heap.frames.size) (hsteps : s.number < steps)
    (hsteps' : (σ.scope s).number < steps') :
    heap'.lookupFrom name steps' (σ.scope s) =
      (heap.lookupFrom name steps s).map (Value.rename σ) := by
  -- Parents are older, so on neither side the walk runs out of steps.
  induction steps generalizing steps' s with
  | zero => omega
  | succ steps ih =>
      obtain ⟨frame, hframe⟩ := exists_frame?_of_number_lt hs
      cases steps' with
      | zero => omega
      | succ steps' =>
          rw [Heap.lookupFrom, Heap.lookupFrom, hframe, h.frames hframe]
          simp only [Frame.find?_rename]
          cases frame.find? name with
          | some v => rfl
          | none =>
              simp only [Option.map_none, Frame.rename]
              cases hparent : frame.parent with
              | none => rfl
              | some p =>
                  have hp := h.parents hframe p hparent
                  exact ih (by omega) (by omega) (by omega)

/-- A name is looked up to the renamed value. -/
theorem lookup (h : heap.Renamed σ heap') (hs : s.number < heap.frames.size) (name : String) :
    heap'.lookup (σ.scope s) name = (heap.lookup s name).map (Value.rename σ) :=
  h.lookupFrom name hs (Nat.lt_succ_self _) (Nat.lt_succ_self _)

/-- A value and the renamed one are bound in the scope and in the
renamed one. -/
theorem bind (h : heap.Renamed σ heap') (hs : s.number < heap.frames.size) (name : String)
    {v : Value} (hv : ∀ r, v.Captures r → r.number < heap.frames.size) :
    (heap.bind s name v).Renamed σ (heap'.bind (σ.scope s) name (v.rename σ)) := by
  obtain ⟨own, hown⟩ := exists_frame?_of_number_lt hs
  have hsize : (heap.bind s name v).frames.size = heap.frames.size := by
    simp only [Heap.bind, Array.size_modify]
  have hsize' : (heap'.bind (σ.scope s) name (v.rename σ)).frames.size = heap'.frames.size := by
    simp only [Heap.bind, Array.size_modify]
  refine ⟨?frames, ?captured, ?parents, ?scopes, h.handles⟩
  case frames =>
    intro r frame hframe
    rcases frame?_bind_cases hown hframe with ⟨rfl, rfl⟩ | ⟨hr, hold⟩
    · rw [Frame.bind_rename]
      exact frame?_bind_self (h.frames hown) name _
    · -- No two scopes are given the same number.
      have hne : σ.scope r ≠ σ.scope s := fun heq => hr (σ.scope.injective heq)
      rw [frame?_bind_of_ne hne]
      exact h.frames hold
  case captured =>
    intro r frame hframe binding hbinding q hq
    rw [hsize]
    rcases frame?_bind_cases hown hframe with ⟨rfl, rfl⟩ | ⟨-, hold⟩
    -- What is bound captures scopes that are there, and so did everything before.
    · rcases Frame.mem_put hbinding with rfl | hbinding
      · exact hv q hq
      · exact h.captured hown binding hbinding q hq
    · exact h.captured hold binding hbinding q hq
  case parents =>
    intro r frame hframe p hp
    rcases frame?_bind_cases hown hframe with ⟨rfl, rfl⟩ | ⟨-, hold⟩
    · exact h.parents hown p hp
    · exact h.parents hold p hp
  case scopes =>
    rw [hsize, hsize']
    exact h.scopes

/-- The scope that is made next, on both sides. -/
theorem scope_next (h : heap.Renamed σ heap') :
    σ.scope ⟨heap.frames.size⟩ = ⟨heap'.frames.size⟩ :=
  h.scopes 0

/-- The handle that is made next, on both sides. -/
theorem handle_next (h : heap.Renamed σ heap') :
    σ.handle ⟨heap.nextHandle⟩ = ⟨heap'.nextHandle⟩ :=
  h.handles 0

/-- A new scope is renamed to the one that is new on the other side. -/
theorem newScope (h : heap.Renamed σ heap') (hs : s.number < heap.frames.size) :
    (heap.newScope (some s)).2.Renamed σ (heap'.newScope (some (σ.scope s))).2 := by
  have hsize : (heap.newScope (some s)).2.frames.size = heap.frames.size + 1 := by
    simp only [Heap.newScope, Array.size_push]
  have hsize' : (heap'.newScope (some (σ.scope s))).2.frames.size = heap'.frames.size + 1 := by
    simp only [Heap.newScope, Array.size_push]
  -- The parent is there, so it is older than the new scope on both sides.
  obtain ⟨own, hown⟩ := exists_frame?_of_number_lt hs
  have hold := number_lt_of_frame? (h.frames hown)
  refine ⟨?frames, ?captured, ?parents, ?scopes, h.handles⟩
  case frames =>
    intro r frame hframe
    rcases frame?_newScope_cases hframe with ⟨rfl, rfl⟩ | hframe
    · rw [h.scope_next]
      exact frame?_newScope_self heap' _
    · exact frame?_newScope (h.frames hframe) _
  case captured =>
    intro r frame hframe binding hbinding q hq
    rw [hsize]
    rcases frame?_newScope_cases hframe with ⟨rfl, rfl⟩ | hframe
    · cases hbinding
    · exact Nat.lt_succ_of_lt (h.captured hframe binding hbinding q hq)
  case parents =>
    intro r frame hframe p hp
    rcases frame?_newScope_cases hframe with ⟨rfl, rfl⟩ | hframe
    · cases hp
      rw [h.scope_next]
      exact ⟨hs, hold⟩
    · exact h.parents hframe p hp
  case scopes =>
    intro i
    rw [hsize, hsize', Nat.add_assoc, Nat.add_assoc]
    exact h.scopes (1 + i)

/-- So is a new handle. -/
theorem newHandle (h : heap.Renamed σ heap') : heap.newHandle.2.Renamed σ heap'.newHandle.2 where
  frames := h.frames
  captured := h.captured
  parents := h.parents
  scopes := h.scopes
  handles i := by
    show σ.handle ⟨heap.nextHandle + 1 + i⟩ = ⟨heap'.nextHandle + 1 + i⟩
    rw [Nat.add_assoc, Nat.add_assoc]
    exact h.handles (1 + i)

/-- As many handles are handed out on one side as on the other. -/
theorem nextHandle_le (h : heap.Renamed σ heap') {after after' : Heap}
    (hafter : after.Renamed σ after') (hle : heap.nextHandle ≤ after.nextHandle) :
    heap'.nextHandle ≤ after'.nextHandle := by
  have hnext := h.handles (after.nextHandle - heap.nextHandle)
  rw [Nat.add_sub_cancel' hle, hafter.handle_next] at hnext
  have hnumber : after'.nextHandle = heap'.nextHandle + (after.nextHandle - heap.nextHandle) :=
    congrArg Handle.number hnext
  omega

end Renamed

end Heap

/-- Renamed heaps go in step. A world says how many scopes and handles
there are in the first heap. -/
def renamed (σ : Renaming) : Lockstep σ where
  World := Nat × Nat
  known w s := s.number < w.1
  inside w s := s.number < w.1
  heaps w heap heap' := w = (heap.frames.size, heap.nextHandle) ∧ heap.Renamed σ heap'
  known_mono hle hs := Nat.lt_of_lt_of_le hs (Prod.le_def.mp hle).1
  inside_mono hle hs := Nat.lt_of_lt_of_le hs (Prod.le_def.mp hle).1
  known_of_inside hs := hs
  lookup := by
    rintro _ heap heap' s ⟨rfl, h⟩ hs name
    refine ⟨h.lookup hs name, fun v hv r hr => ?_⟩
    -- The value is bound in some scope of the heap.
    obtain ⟨q, frame, hframe, binding, hbinding, rfl⟩ := Heap.exists_binding_of_lookup hv
    exact h.captured hframe binding hbinding r hr
  bind := by
    rintro _ heap heap' s ⟨rfl, h⟩ hs name v hv
    refine ⟨?_, h.bind hs name hv⟩
    simp only [Heap.bind, Array.size_modify]
  newScope := by
    rintro _ heap heap' s ⟨rfl, h⟩ hs
    have hsize : (heap.frames.size + 1, heap.nextHandle) =
        ((heap.newScope (some s)).2.frames.size, (heap.newScope (some s)).2.nextHandle) := by
      simp only [Heap.newScope, Array.size_push]
    exact ⟨(heap.frames.size + 1, heap.nextHandle), ⟨Nat.le_succ _, Nat.le_refl _⟩,
      ⟨hsize, h.newScope hs⟩, h.scope_next.symm, Nat.lt_succ_self _⟩
  newHandle := by
    rintro _ heap heap' ⟨rfl, h⟩
    exact ⟨(heap.frames.size, heap.nextHandle + 1), ⟨Nat.le_refl _, Nat.le_succ _⟩,
      ⟨rfl, h.newHandle⟩, h.handle_next.symm⟩

end QuoteScript
