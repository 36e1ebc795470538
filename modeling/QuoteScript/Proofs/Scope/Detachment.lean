import QuoteScript.Proofs.Eval.Lockstep
import QuoteScript.Proofs.Scope.Change

/-!
# `QuoteScript.Proofs.Scope.Detachment`: a scope without its empty parent

A scope that binds nothing, with no scope around it, gives no name a
meaning. So it makes no difference whether another scope has it for a
parent or has no parent at all, as long as nothing is ever bound in it.

* `Heap.Detached`: two heaps that differ in this one parent.
* `detachment`: they go in step. Nothing is evaluated in the empty
  scope, so it stays empty.
-/

set_option autoImplicit false

namespace QuoteScript

/-- Two heaps that are the same, except that the scope `inner` has the
parent `outer` in the first one and no parent in the second one. The
scope `outer` is empty, and there is no scope around it. -/
structure Heap.Detached (outer inner : ScopeId) (heap heap' : Heap) : Prop where
  empty : heap.frame? outer = some ⟨[], none⟩
  detached : ∃ bindings, heap.frame? inner = some ⟨bindings, some outer⟩ ∧
    heap'.frame? inner = some ⟨bindings, none⟩
  others : ∀ s, s ≠ inner → heap'.frame? s = heap.frame? s
  size : heap'.frames.size = heap.frames.size
  nextHandle : heap'.nextHandle = heap.nextHandle

namespace Heap

variable {outer inner s : ScopeId} {heap heap' : Heap}

/-- Nothing is found in an empty scope without a parent. -/
theorem lookupFrom_of_empty (h : heap.frame? s = some ⟨[], none⟩) (name : String) (steps : Nat) :
    heap.lookupFrom name steps s = none := by
  cases steps with
  | zero => rfl
  | succ steps =>
      rw [lookupFrom, h]
      rfl

namespace Detached

/-- One of the scopes is empty without a parent, the other one is inside
of it. -/
theorem ne (h : heap.Detached outer inner heap') : outer ≠ inner := by
  rintro rfl
  obtain ⟨bindings, hinner, -⟩ := h.detached
  cases h.empty.symm.trans hinner

/-- A name means the same in both heaps. -/
theorem lookupFrom (h : heap.Detached outer inner heap') (name : String) (steps : Nat)
    (s : ScopeId) : heap'.lookupFrom name steps s = heap.lookupFrom name steps s := by
  induction steps generalizing s with
  | zero => rfl
  | succ steps ih =>
      rw [Heap.lookupFrom, Heap.lookupFrom]
      by_cases hs : s = inner
      · obtain ⟨bindings, hinner, hinner'⟩ := h.detached
        rw [hs, hinner, hinner']
        dsimp only [Frame.find?]
        split
        · rfl
        -- On one side the search goes on in the empty scope, and finds nothing there.
        · exact (lookupFrom_of_empty h.empty name steps).symm
      · rw [h.others s hs]
        cases heap.frame? s with
        | none => rfl
        | some frame =>
            dsimp only
            split
            · rfl
            · exact congrArg frame.parent.bind (funext ih)

/-- A name means the same in both heaps. -/
theorem lookup (h : heap.Detached outer inner heap') (s : ScopeId) (name : String) :
    heap'.lookup s name = heap.lookup s name :=
  h.lookupFrom name _ s

/-- Binding a name anywhere but in the empty scope. -/
theorem bind (h : heap.Detached outer inner heap') (hs : s ≠ outer) (name : String) (v : Value) :
    (heap.bind s name v).Detached outer inner (heap'.bind s name v) where
  empty := (frame?_bind_of_ne hs.symm name v).trans h.empty
  detached := by
    obtain ⟨bindings, hinner, hinner'⟩ := h.detached
    by_cases heq : inner = s
    · subst heq
      exact ⟨_, frame?_bind_self hinner name v, frame?_bind_self hinner' name v⟩
    · exact ⟨bindings, (frame?_bind_of_ne heq name v).trans hinner,
        (frame?_bind_of_ne heq name v).trans hinner'⟩
  others r hr := by
    have hsame := h.others r hr
    by_cases heq : r = s
    · subst heq
      cases hframe : heap.frame? r with
      | none =>
          -- Nothing is bound in a scope that is not there.
          simp only [frame?] at hframe hsame
          simp [Heap.bind, frame?, Array.getElem?_modify, hsame, hframe]
      | some frame =>
          rw [frame?_bind_self hframe, frame?_bind_self (hsame.trans hframe)]
    · rw [frame?_bind_of_ne heq, frame?_bind_of_ne heq, hsame]
  size := by
    simp only [Heap.bind, Array.size_modify]
    exact h.size
  nextHandle := h.nextHandle

/-- A new scope on both sides. -/
theorem newScope (h : heap.Detached outer inner heap') (parent : Option ScopeId) :
    (heap.newScope parent).2.Detached outer inner (heap'.newScope parent).2 where
  empty := frame?_newScope h.empty parent
  detached := by
    obtain ⟨bindings, hinner, hinner'⟩ := h.detached
    exact ⟨bindings, frame?_newScope hinner parent, frame?_newScope hinner' parent⟩
  others s hs := by
    by_cases hnew : s = ⟨heap.frames.size⟩
    -- Both heaps have as many scopes, so the new one has the same number.
    · have hnew' : s = ⟨heap'.frames.size⟩ := by rw [h.size, hnew]
      rw [hnew', frame?_newScope_self, ← hnew', hnew, frame?_newScope_self]
    · have hnew' : s ≠ ⟨heap'.frames.size⟩ := by rwa [h.size]
      rw [frame?_newScope_of_ne hnew, frame?_newScope_of_ne hnew', h.others s hs]
  size := by
    simp only [Heap.newScope, Array.size_push]
    rw [h.size]
  nextHandle := h.nextHandle

/-- A new scope inside of the empty one, and one that has no parent. -/
theorem of_newScope (h : heap.frame? outer = some ⟨[], none⟩) :
    (heap.newScope (some outer)).2.Detached outer ⟨heap.frames.size⟩ (heap.newScope none).2 where
  empty := frame?_newScope h _
  detached := ⟨[], frame?_newScope_self heap _, frame?_newScope_self heap _⟩
  others s hs := by rw [frame?_newScope_of_ne hs, frame?_newScope_of_ne hs]
  size := by simp [Heap.newScope]
  nextHandle := rfl

end Detached

end Heap

/-- Detached heaps go in step, as long as nothing is evaluated in the
empty scope. -/
def detachment (outer inner : ScopeId) : Lockstep .id where
  World := Unit
  order := PUnit.instLinearOrder.toPreorder
  known _ _ := True
  inside _ s := s ≠ outer
  heaps _ := Heap.Detached outer inner
  known_mono _ _ := trivial
  inside_mono _ hs := hs
  known_of_inside _ := trivial
  lookup {_ heap _ s} h _ name := by
    rw [map_rename_id]
    exact ⟨h.lookup s name, fun _ _ _ _ => trivial⟩
  bind {_ _ _ s} h hs name {v} _ := by
    rw [Value.rename_id]
    exact h.bind hs name v
  newScope {_ heap heap' s} h _ := by
    have hscope : (⟨heap'.frames.size⟩ : ScopeId) = ⟨heap.frames.size⟩ := congrArg ScopeId.mk h.size
    refine ⟨(), le_rfl, h.newScope (some s), hscope, ?_⟩
    -- The empty scope has been there before.
    have hlt := Heap.number_lt_of_frame? h.empty
    rintro rfl
    exact Nat.lt_irrefl _ hlt
  newHandle h :=
    ⟨(), le_rfl, ⟨h.empty, h.detached, h.others, h.size, congrArg (· + 1) h.nextHandle⟩,
      congrArg Handle.mk h.nextHandle⟩

end QuoteScript
