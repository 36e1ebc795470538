import QuoteScript.Proofs.Scope.Change
import QuoteScript.Proofs.Value.Correspondence

/-!
# `QuoteScript.Proofs.Scope.Correspondence`: corresponding heaps

Two heaps correspond under a pairing if paired scopes bind the same
names, in the same order, to corresponding values, and if their parents
are paired. Nothing is said about scopes that are not paired: a heap may
hold much that an evaluation never gets to.

The operations on scopes keep corresponding heaps corresponding. What
is made on both sides is paired from then on, and nothing else is.

* `Heap.Corresponds`: the relation.
* `Heap.Corresponds.lookup`, `bind`, `newScope`, `newHandle`: the
  operations.
* `Pairing.Grows`: how a pairing grows while things are made.
-/

set_option autoImplicit false

namespace QuoteScript

namespace Pairing

/-- Pairs two more scopes. -/
def addScope (ρ : Pairing) (s s' : ScopeId) : Pairing :=
  { ρ with scope := fun r r' => ρ.scope r r' ∨ (r = s ∧ r' = s') }

/-- Pairs two more handles. -/
def addHandle (ρ : Pairing) (a a' : Handle) : Pairing :=
  { ρ with handle := fun b b' => ρ.handle b b' ∨ (b = a ∧ b' = a') }

/-- A pairing with one more pair of scopes is larger. -/
theorem le_addScope (ρ : Pairing) (s s' : ScopeId) : ρ ≤ ρ.addScope s s' :=
  ⟨fun _ _ => .inl, fun _ _ h => h⟩

/-- So is one with one more pair of handles. -/
theorem le_addHandle (ρ : Pairing) (a a' : Handle) : ρ ≤ ρ.addHandle a a' :=
  ⟨fun _ _ h => h, fun _ _ => .inl⟩

end Pairing

variable {ρ ρ' : Pairing} {s s' : ScopeId} {heap heap' : Heap} {v v' : Value}

/-! ### Scopes -/

/-- Two scopes bind the same names to corresponding values. Their
parents are paired, and each is older than its child. -/
structure Frame.Corresponds (ρ : Pairing) (s s' : ScopeId) (frame frame' : Frame) : Prop where
  bindings : List.Forall₂ (Keyed (Value.Corresponds ρ)) frame.bindings frame'.bindings
  parent : Option.Rel (fun p p' => ρ.scope p p' ∧ p.number < s.number ∧ p'.number < s'.number)
    frame.parent frame'.parent

namespace Frame.Corresponds

/-- Frames that correspond do so under a larger pairing. -/
theorem mono {frame frame' : Frame} (h : Frame.Corresponds ρ s s' frame frame') (hle : ρ ≤ ρ') :
    Frame.Corresponds ρ' s s' frame frame' := by
  obtain ⟨bindings, parent⟩ := frame
  obtain ⟨bindings', parent'⟩ := frame'
  obtain ⟨hbindings, hparent⟩ := h
  refine ⟨hbindings.imp fun _ _ ⟨hv⟩ => ⟨hv.mono hle⟩, ?_⟩
  cases hparent with
  | some hp => exact .some ⟨hle.1 _ _ hp.1, hp.2⟩
  | none => exact .none

variable {R : Value → Value → Prop} {bindings bindings' : List (String × Value)}

/-- The first binding of a name, on both sides. -/
theorem rel_find? (h : List.Forall₂ (Keyed R) bindings bindings') (name : String) :
    Option.Rel R ((bindings.find? (·.1 == name)).map (·.2))
      ((bindings'.find? (·.1 == name)).map (·.2)) := by
  induction h with
  | nil => exact .none
  | cons hbinding _ ih =>
      cases hbinding with
      | @under bound _ _ hv =>
          simp only [List.find?_cons]
          cases bound == name with
          | true => exact .some hv
          | false => exact ih

/-- Values that are bound under the same name end up in the same place. -/
theorem forall₂_put (h : List.Forall₂ (Keyed R) bindings bindings') (name : String) (hv : R v v') :
    List.Forall₂ (Keyed R) (Frame.put name v bindings) (Frame.put name v' bindings') := by
  induction h with
  | nil => exact .cons (.under hv) .nil
  | cons hbinding hrest ih =>
      obtain ⟨hw⟩ := hbinding
      rw [Frame.put, Frame.put]
      split
      · exact .cons (.under hv) hrest
      · exact .cons (.under hw) ih

variable {frame frame' : Frame}

/-- A name means corresponding values in both scopes, or nothing in
either. -/
theorem find? (h : Frame.Corresponds ρ s s' frame frame') (name : String) :
    Option.Rel (Value.Corresponds ρ) (frame.find? name) (frame'.find? name) :=
  rel_find? h.bindings name

/-- Binding values that correspond. -/
theorem bind (h : Frame.Corresponds ρ s s' frame frame') (name : String)
    (hv : Value.Corresponds ρ v v') :
    Frame.Corresponds ρ s s' (frame.bind name v) (frame'.bind name v') where
  bindings := forall₂_put h.bindings name hv
  parent := h.parent

end Frame.Corresponds

/-! ### Heaps -/

/-- Paired scopes are there and correspond, paired handles have been
handed out, and nothing is paired twice. -/
structure Heap.Corresponds (ρ : Pairing) (heap heap' : Heap) : Prop where
  injective : ρ.Injective
  frames {s s' : ScopeId} : ρ.scope s s' → ∃ frame frame', heap.frame? s = some frame ∧
    heap'.frame? s' = some frame' ∧ Frame.Corresponds ρ s s' frame frame'
  handles {a a' : Handle} : ρ.handle a a' →
    a.number < heap.nextHandle ∧ a'.number < heap'.nextHandle

namespace Heap.Corresponds

/-- A name means corresponding values in paired scopes, or nothing in
either. -/
theorem lookupFrom (h : Heap.Corresponds ρ heap heap') (name : String) {steps steps' : Nat}
    (hs : ρ.scope s s') (hsteps : s.number < steps) (hsteps' : s'.number < steps') :
    Option.Rel (Value.Corresponds ρ) (heap.lookupFrom name steps s)
      (heap'.lookupFrom name steps' s') := by
  -- Parents are older, so on neither side the walk runs out of steps.
  induction steps generalizing steps' s s' with
  | zero => cases hsteps
  | succ steps ih =>
      cases steps' with
      | zero => cases hsteps'
      | succ steps' =>
          obtain ⟨frame, frame', hframe, hframe', hcorresponds⟩ := h.frames hs
          have hfind := hcorresponds.find? name
          have hparent := hcorresponds.parent
          rw [Heap.lookupFrom, Heap.lookupFrom, hframe, hframe']
          dsimp only
          generalize frame.find? name = found, frame'.find? name = found' at hfind ⊢
          cases hfind with
          | some hv => exact .some hv
          | none =>
              generalize frame.parent = parent, frame'.parent = parent' at hparent ⊢
              cases hparent with
              | some hp => exact ih hp.1 (by omega) (by omega)
              | none => exact .none

/-- Names are looked up along both chains in step. -/
theorem lookup (h : Heap.Corresponds ρ heap heap') (hs : ρ.scope s s') (name : String) :
    Option.Rel (Value.Corresponds ρ) (heap.lookup s name) (heap'.lookup s' name) :=
  h.lookupFrom name hs (Nat.lt_succ_self _) (Nat.lt_succ_self _)

/-- Binding a name in paired scopes. -/
theorem bind (h : Heap.Corresponds ρ heap heap') (hs : ρ.scope s s') (name : String)
    (hv : Value.Corresponds ρ v v') :
    Heap.Corresponds ρ (heap.bind s name v) (heap'.bind s' name v') where
  injective := h.injective
  handles := h.handles
  frames {r r'} hr := by
    obtain ⟨frame, frame', hframe, hframe', hcorresponds⟩ := h.frames hr
    -- No other scope is paired with one of the two that are written.
    by_cases heq : r = s
    · have heq' := (h.injective.scope hr hs).mp heq
      subst heq heq'
      exact ⟨_, _, frame?_bind_self hframe name v, frame?_bind_self hframe' name v',
        hcorresponds.bind name hv⟩
    · have hne' : r' ≠ s' := fun heq' => heq ((h.injective.scope hr hs).mpr heq')
      exact ⟨frame, frame', (frame?_bind_of_ne heq name v).trans hframe,
        (frame?_bind_of_ne hne' name v').trans hframe', hcorresponds⟩

/-- A scope that is made on both sides, inside of paired ones or outside
of all. -/
theorem newScope (h : Heap.Corresponds ρ heap heap') {parent parent' : Option ScopeId}
    (hparent : Option.Rel ρ.scope parent parent') :
    Heap.Corresponds (ρ.addScope ⟨heap.frames.size⟩ ⟨heap'.frames.size⟩)
      (heap.newScope parent).2 (heap'.newScope parent').2 := by
  -- What is paired is there, so it is older than the new scope and not the same.
  have hold {r r' : ScopeId} (hr : ρ.scope r r') :
      r.number < heap.frames.size ∧ r'.number < heap'.frames.size := by
    obtain ⟨_, _, hframe, hframe', -⟩ := h.frames hr
    exact ⟨number_lt_of_frame? hframe, number_lt_of_frame? hframe'⟩
  have hne {r r' : ScopeId} (hr : ρ.scope r r') :
      r ≠ ⟨heap.frames.size⟩ ∧ r' ≠ ⟨heap'.frames.size⟩ :=
    ⟨fun heq => Nat.ne_of_lt (hold hr).1 (congrArg ScopeId.number heq),
      fun heq => Nat.ne_of_lt (hold hr).2 (congrArg ScopeId.number heq)⟩
  refine ⟨⟨?scopes, h.injective.handle⟩, ?frames, h.handles⟩
  case scopes =>
    rintro r r' q q' (hr | ⟨rfl, rfl⟩) (hq | ⟨rfl, rfl⟩)
    · exact h.injective.scope hr hq
    · exact iff_of_false (hne hr).1 (hne hr).2
    · exact iff_of_false (hne hq).1.symm (hne hq).2.symm
    · exact iff_of_true rfl rfl
  case frames =>
    rintro r r' (hr | ⟨rfl, rfl⟩)
    · obtain ⟨frame, frame', hframe, hframe', hcorresponds⟩ := h.frames hr
      exact ⟨frame, frame', frame?_newScope hframe _, frame?_newScope hframe' _,
        hcorresponds.mono (ρ.le_addScope _ _)⟩
    · refine ⟨⟨[], parent⟩, ⟨[], parent'⟩, Array.getElem?_push_size, Array.getElem?_push_size,
        .nil, ?_⟩
      cases hparent with
      | some hs => exact .some ⟨.inl hs, hold hs⟩
      | none => exact .none

/-- A handle that is made on both sides. -/
theorem newHandle (h : Heap.Corresponds ρ heap heap') :
    Heap.Corresponds (ρ.addHandle ⟨heap.nextHandle⟩ ⟨heap'.nextHandle⟩)
      heap.newHandle.2 heap'.newHandle.2 := by
  -- Handles that are paired already were given out earlier, so the new ones are none of them.
  have hne {a a' : Handle} (ha : ρ.handle a a') :
      a ≠ ⟨heap.nextHandle⟩ ∧ a' ≠ ⟨heap'.nextHandle⟩ :=
    ⟨fun heq => Nat.ne_of_lt (h.handles ha).1 (congrArg Handle.number heq),
      fun heq => Nat.ne_of_lt (h.handles ha).2 (congrArg Handle.number heq)⟩
  refine ⟨⟨h.injective.scope, ?handles⟩, ?frames, ?old⟩
  case handles =>
    rintro a a' b b' (ha | ⟨rfl, rfl⟩) (hb | ⟨rfl, rfl⟩)
    · exact h.injective.handle ha hb
    · exact iff_of_false (hne ha).1 (hne ha).2
    · exact iff_of_false (hne hb).1.symm (hne hb).2.symm
    · exact iff_of_true rfl rfl
  case frames =>
    intro r r' hr
    obtain ⟨frame, frame', hframe, hframe', hcorresponds⟩ := h.frames hr
    exact ⟨frame, frame', hframe, hframe', hcorresponds.mono (ρ.le_addHandle _ _)⟩
  case old =>
    rintro a a' (ha | ⟨rfl, rfl⟩)
    · exact ⟨Nat.lt_succ_of_lt (h.handles ha).1, Nat.lt_succ_of_lt (h.handles ha).2⟩
    · exact ⟨Nat.lt_succ_self _, Nat.lt_succ_self _⟩

end Heap.Corresponds

/-! ### Growing heaps -/

/-- Numbers are given out on two sides, as many on one side as on the
other, from `size` and `size'` on. Beyond what `R` relates, `R'` relates
just the new ones, one by one. -/
structure Made (size size' after after' : Nat) (R R' : Nat → Nat → Prop) : Prop where
  le : size ≤ after
  same : after + size' = after' + size
  iff (i j : Nat) : R' i j ↔ R i j ∨ (size ≤ i ∧ i < after ∧ i + size' = j + size)

namespace Made

variable {size size' after after' : Nat} {R R' : Nat → Nat → Prop}

/-- No numbers have been given out. -/
theorem refl (size size' : Nat) (R : Nat → Nat → Prop) : Made size size' size size' R R := by
  refine ⟨Nat.le_refl size, Nat.add_comm size size', fun i j => ?_⟩
  have hnone : ¬ (size ≤ i ∧ i < size ∧ i + size' = j + size) := by omega
  simp [hnone]

/-- One more on each side. -/
theorem one (size size' : Nat) (h : ∀ i j, R' i j ↔ R i j ∨ (i = size ∧ j = size')) :
    Made size size' (size + 1) (size' + 1) R R' := by
  refine ⟨Nat.le_succ size, by omega, fun i j => (h i j).trans (or_congr_right ?_)⟩
  omega

/-- Numbers are given out in two stretches. -/
theorem trans {after₂ after₂' : Nat} {R₂ : Nat → Nat → Prop}
    (h : Made size size' after after' R R') (h' : Made after after' after₂ after₂' R' R₂) :
    Made size size' after₂ after₂' R R₂ := by
  have hle := h.le
  have hle' := h'.le
  have hsame := h.same
  have hsame' := h'.same
  -- The second stretch begins where the first one ends, on both sides.
  refine ⟨by omega, by omega, fun i j => ?_⟩
  rw [h'.iff, h.iff, or_assoc]
  refine or_congr_right ?_
  omega

end Made

/-- From `heap` and `heap'` to `after` and `after'`, as many scopes and
handles have been made on both sides. Beyond what `ρ` pairs, `ρ'` pairs
just these, one by one. -/
structure Pairing.Grows (ρ ρ' : Pairing) (heap heap' after after' : Heap) : Prop where
  scopes : Made heap.frames.size heap'.frames.size after.frames.size after'.frames.size
    (fun i j => ρ.scope ⟨i⟩ ⟨j⟩) (fun i j => ρ'.scope ⟨i⟩ ⟨j⟩)
  handles : Made heap.nextHandle heap'.nextHandle after.nextHandle after'.nextHandle
    (fun i j => ρ.handle ⟨i⟩ ⟨j⟩) (fun i j => ρ'.handle ⟨i⟩ ⟨j⟩)

namespace Pairing.Grows

variable {after after' : Heap}

/-- A pairing that grows gets larger. -/
theorem le (h : ρ.Grows ρ' heap heap' after after') : ρ ≤ ρ' :=
  ⟨fun ⟨i⟩ ⟨j⟩ hs => (h.scopes.iff i j).mpr (.inl hs),
    fun ⟨i⟩ ⟨j⟩ ha => (h.handles.iff i j).mpr (.inl ha)⟩

/-- Nothing has happened. -/
theorem refl (ρ : Pairing) (heap heap' : Heap) : ρ.Grows ρ heap heap' heap heap' :=
  ⟨.refl _ _ _, .refl _ _ _⟩

/-- Two stretches of evaluation, one behind the other. -/
theorem trans {ρ₂ : Pairing} {after₂ after₂' : Heap} (h : ρ.Grows ρ' heap heap' after after')
    (h' : ρ'.Grows ρ₂ after after' after₂ after₂') : ρ.Grows ρ₂ heap heap' after₂ after₂' :=
  ⟨h.scopes.trans h'.scopes, h.handles.trans h'.handles⟩

/-- Binding a name makes nothing. -/
theorem bind (ρ : Pairing) (heap heap' : Heap) (s s' : ScopeId) (name : String) (v v' : Value) :
    ρ.Grows ρ heap heap' (heap.bind s name v) (heap'.bind s' name v') := by
  refine ⟨?scopes, .refl _ _ _⟩
  simp only [Heap.bind, Array.size_modify]
  exact .refl _ _ _

/-- A new scope on either side. -/
theorem newScope (ρ : Pairing) (heap heap' : Heap) (parent parent' : Option ScopeId) :
    ρ.Grows (ρ.addScope ⟨heap.frames.size⟩ ⟨heap'.frames.size⟩) heap heap'
      (heap.newScope parent).2 (heap'.newScope parent').2 := by
  refine ⟨?scopes, .refl _ _ _⟩
  simp only [Heap.newScope, Array.size_push]
  exact .one _ _ fun i j => by simp [addScope]

/-- A new handle on either side. -/
theorem newHandle (ρ : Pairing) (heap heap' : Heap) :
    ρ.Grows (ρ.addHandle ⟨heap.nextHandle⟩ ⟨heap'.nextHandle⟩) heap heap' heap.newHandle.2
      heap'.newHandle.2 :=
  ⟨.refl _ _ _, .one _ _ fun i j => by simp [addHandle]⟩

end Pairing.Grows

end QuoteScript
