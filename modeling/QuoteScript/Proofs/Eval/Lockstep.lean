import QuoteScript.Proofs.Eval.Logic
import QuoteScript.Proofs.Eval.Tandem

/-!
# `QuoteScript.Proofs.Eval.Lockstep`: two heaps in step

Two evaluations of the same tree go in step if their heaps do: if the
same name means the same in both of them, up to a renaming, and if they
still go in step when the same operation is applied to both. Then the
two evaluations end with the same fuel, stop for the same reason, and
answer with the same value, up to the renaming.

* `Lockstep`: heaps that go in step, with what is to be shown of the four
  operations.
* `Lockstep.InStep`: computations that start in such heaps.
* `Lockstep.tandem`: all evaluations go in step.
-/

set_option autoImplicit false

namespace QuoteScript

open EvalM

/-- Heaps that go in step: `heaps w heap heap'` says so in the world
`w`. -/
structure Lockstep (σ : Renaming) where
  World : Type
  [order : Preorder World]
  known : World → ScopeId → Prop
  inside : World → ScopeId → Prop
  heaps (w : World) (heap heap' : Heap) : Prop
  known_mono {w w' : World} {s : ScopeId} : w ≤ w' → known w s → known w' s
  inside_mono {w w' : World} {s : ScopeId} : w ≤ w' → inside w s → inside w' s
  known_of_inside {w : World} {s : ScopeId} : inside w s → known w s
  lookup {w : World} {heap heap' : Heap} {s : ScopeId} (h : heaps w heap heap') (hs : inside w s)
    (name : String) : heap'.lookup (σ.scope s) name = (heap.lookup s name).map (Value.rename σ) ∧
      ∀ v ∈ heap.lookup s name, ∀ r, v.Captures r → known w r
  bind {w : World} {heap heap' : Heap} {s : ScopeId} (h : heaps w heap heap') (hs : inside w s)
    (name : String) {v : Value} (hv : ∀ r, v.Captures r → known w r) :
    heaps w (heap.bind s name v) (heap'.bind (σ.scope s) name (v.rename σ))
  newScope {w : World} {heap heap' : Heap} {s : ScopeId} (h : heaps w heap heap')
    (hs : known w s) : ∃ w', w ≤ w' ∧
      heaps w' (heap.newScope (some s)).2 (heap'.newScope (some (σ.scope s))).2 ∧
      (heap'.newScope (some (σ.scope s))).1 = σ.scope (heap.newScope (some s)).1 ∧
      inside w' (heap.newScope (some s)).1
  newHandle {w : World} {heap heap' : Heap} (h : heaps w heap heap') :
    ∃ w', w ≤ w' ∧ heaps w' heap.newHandle.2 heap'.newHandle.2 ∧
      heap'.newHandle.1 = σ.handle heap.newHandle.1

attribute [instance] Lockstep.order

namespace Lockstep

variable {σ : Renaming} {α β γ δ : Type}

/-- From heaps that go in step, the two computations stop for the same
reason, or both of them end with an answer. Then the heaps still go in
step, and the answers have the property `P`. -/
def InStep (L : Lockstep σ) (w : L.World) (x : EvalM α) (y : EvalM β)
    (P : L.World → α → β → Prop) : Prop :=
  ∀ heap heap', L.heaps w heap heap' →
    match x heap with
    | .ok (a, heap₁) => ∃ b heap₁' w', y heap' = .ok (b, heap₁') ∧ w ≤ w' ∧
        L.heaps w' heap₁ heap₁' ∧ P w' a b
    | .error stop => y heap' = .error stop

variable {L : Lockstep σ} {w : L.World} {x : EvalM α} {y : EvalM β} {P : L.World → α → β → Prop}
  {heap heap' : Heap}

namespace InStep

/-- If the first computation ends, so does the second one. -/
theorem of_run (h : L.InStep w x y P) (hheaps : L.heaps w heap heap') {a : α} {heap₁ : Heap}
    (hx : x heap = .ok (a, heap₁)) :
    ∃ b heap₁' w', y heap' = .ok (b, heap₁') ∧ w ≤ w' ∧ L.heaps w' heap₁ heap₁' ∧ P w' a b := by
  have hrun := h heap heap' hheaps
  rw [hx] at hrun
  exact hrun

/-- If the first computation stops, so does the second one. -/
theorem of_stop (h : L.InStep w x y P) (hheaps : L.heaps w heap heap') {stop : Stop}
    (hx : x heap = .error stop) : y heap' = .error stop := by
  have hrun := h heap heap' hheaps
  rw [hx] at hrun
  exact hrun

/-- If the second computation ends, so does the first one. -/
theorem of_run' (h : L.InStep w x y P) (hheaps : L.heaps w heap heap') {b : β} {heap₁' : Heap}
    (hy : y heap' = .ok (b, heap₁')) :
    ∃ a heap₁ w', x heap = .ok (a, heap₁) ∧ w ≤ w' ∧ L.heaps w' heap₁ heap₁' ∧ P w' a b := by
  cases hx : x heap with
  -- Stopping goes over to the second computation, which has not stopped.
  | error stop => cases (h.of_stop hheaps hx).symm.trans hy
  | ok r =>
      obtain ⟨b', heap₂', w', hy', hrest⟩ := h.of_run hheaps hx
      cases hy.symm.trans hy'
      exact ⟨r.1, r.2, w', rfl, hrest⟩

/-- An answer leaves both heaps as they are. -/
theorem pure {a : α} {b : β} (h : P w a b) : L.InStep w (Pure.pure a) (Pure.pure b) P :=
  fun _ heap' hheaps => ⟨b, heap', w, rfl, le_rfl, hheaps, h⟩

/-- Two computations in sequence, in step all the way. -/
theorem bind {next : α → EvalM γ} {next' : β → EvalM δ} {Q : L.World → γ → δ → Prop}
    (hx : L.InStep w x y P)
    (hnext : ∀ w' a b, w ≤ w' → P w' a b → L.InStep w' (next a) (next' b) Q) :
    L.InStep w (x >>= next) (y >>= next') Q := by
  intro heap heap' hheaps
  cases hrun : x heap with
  | error stop =>
      rw [bind_run_of_error hrun]
      exact bind_run_of_error (hx.of_stop hheaps hrun)
  | ok r =>
      obtain ⟨b, heap₁', w', hy, hle, hheaps', hab⟩ := hx.of_run hheaps hrun
      -- The second parts start where the first ones have ended.
      have hstep := hnext w' r.1 b hle hab
      rw [bind_run hrun, bind_run hy]
      cases hrest : next r.1 r.2 with
      | error stop => exact hstep.of_stop hheaps' hrest
      | ok r' =>
          obtain ⟨d, heap₂', w'', hrest', hle', hheaps'', hcd⟩ := hstep.of_run hheaps' hrest
          exact ⟨d, heap₂', w'', hrest', hle.trans hle', hheaps'', hcd⟩

end InStep

/-- Evaluations go in step in heaps that do. -/
def tandem (L : Lockstep σ) : Tandem σ where
  World := L.World
  known := L.known
  inside := L.inside
  relates := L.InStep
  known_mono := L.known_mono
  inside_mono := L.inside_mono
  known_of_inside := L.known_of_inside
  pure := .pure
  bind := .bind
  outOfFuel _ _ _ := rfl
  -- The operations on the heap are those that `L` is about, one by one.
  lookup hs name _ heap' hheaps := ⟨_, heap', _, rfl, le_rfl, hheaps, L.lookup hheaps hs name⟩
  bindName hs name _ hv _ _ hheaps :=
    ⟨(), _, _, rfl, le_rfl, L.bind hheaps hs name hv, trivial⟩
  newScope hs _ _ hheaps :=
    have ⟨w', hle, hheaps', hscope⟩ := L.newScope hheaps hs
    ⟨_, _, w', rfl, hle, hheaps', hscope⟩
  newHandle _ _ hheaps :=
    have ⟨w', hle, hheaps', hhandle⟩ := L.newHandle hheaps
    ⟨_, _, w', rfl, hle, hheaps', hhandle⟩

end Lockstep

end QuoteScript
