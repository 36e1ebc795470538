import QuoteScript.Proofs.Scope.Renaming
import QuoteScript.Proofs.Session.Simulation

/-!
# `QuoteScript.Proofs.Session.Growth`: heaps that have grown

A heap has grown if it holds all scopes that it held before, as they
were, and if it hands out no handle twice. It may hold anything else
besides.

The heap of a session is found in every heap that has grown from it. The
numbers that were there stay the same. The numbers of what is made next
are moved up, by as much as the heap has grown.

* `Heap.Grown`: the relation.
* `Heap.shift`: the numbers in a heap that has grown.
* `Heap.Coherent.renamed`: the heap is found under these numbers.
-/

set_option autoImplicit false

namespace QuoteScript

variable {heap heap₁ heap₂ : Heap}

/-- `heap₁` holds all scopes of `heap` as they are there, and it hands
out no handle that `heap` has handed out. -/
structure Heap.Grown (heap heap₁ : Heap) : Prop where
  scopes : heap.Extends heap₁
  handles : heap.nextHandle ≤ heap₁.nextHandle

namespace Heap.Grown

/-- A heap has grown from itself. -/
theorem refl (heap : Heap) : heap.Grown heap :=
  ⟨fun _ _ h => h, Nat.le_refl _⟩

/-- Growth in two steps. -/
theorem trans (h : heap.Grown heap₁) (h' : heap₁.Grown heap₂) : heap.Grown heap₂ :=
  ⟨fun s frame hframe => h'.scopes s frame (h.scopes s frame hframe), h.handles.trans h'.handles⟩

/-- There are at least as many scopes. -/
theorem size_le (h : heap.Grown heap₁) : heap.frames.size ≤ heap₁.frames.size := by
  by_contra hlt
  -- The last scope of the smaller heap would be missing.
  have hlast : (⟨heap₁.frames.size⟩ : ScopeId).number < heap.frames.size := by
    show heap₁.frames.size < heap.frames.size
    omega
  obtain ⟨frame, hframe⟩ := exists_frame?_of_number_lt hlast
  exact Nat.lt_irrefl _ (number_lt_of_frame? (h.scopes _ _ hframe))

end Heap.Grown

/-! ### Numbers in a heap that has grown -/

/-- Numbers below `size` stay the same. All others are moved up. -/
def shiftFrom (size more : Nat) : Nat ↪ Nat where
  toFun i := if i < size then i else i + more
  inj' i j h := by
    simp only at h
    split at h <;> split at h <;> omega

/-- Numbers that were given out already are kept. -/
theorem shiftFrom_of_lt {size i : Nat} (h : i < size) (more : Nat) : shiftFrom size more i = i :=
  if_pos h

/-- The others are moved on. -/
theorem shiftFrom_add (size more i : Nat) : shiftFrom size more (size + i) = size + more + i := by
  have hge : ¬size + i < size := by omega
  show (if size + i < size then size + i else size + i + more) = _
  rw [if_neg hge]
  omega

namespace Heap

/-- The numbers of a heap in one that has grown from it. -/
def shift (heap heap₁ : Heap) : Renaming where
  scope :=
    { toFun := fun s =>
        ⟨shiftFrom heap.frames.size (heap₁.frames.size - heap.frames.size) s.number⟩
      inj' := fun ⟨_⟩ ⟨_⟩ h =>
        congrArg ScopeId.mk ((shiftFrom _ _).injective (congrArg ScopeId.number h)) }
  handle :=
    { toFun := fun a => ⟨shiftFrom heap.nextHandle (heap₁.nextHandle - heap.nextHandle) a.number⟩
      inj' := fun ⟨_⟩ ⟨_⟩ h =>
        congrArg Handle.mk ((shiftFrom _ _).injective (congrArg Handle.number h)) }

/-- Scopes that were there already are kept. -/
theorem shift_scope_of_lt {s : ScopeId} (h : s.number < heap.frames.size) (heap₁ : Heap) :
    (heap.shift heap₁).scope s = s :=
  congrArg ScopeId.mk (shiftFrom_of_lt h _)

/-- So are handles. -/
theorem shift_handle_of_lt {a : Handle} (h : a.number < heap.nextHandle) (heap₁ : Heap) :
    (heap.shift heap₁).handle a = a :=
  congrArg Handle.mk (shiftFrom_of_lt h _)

end Heap

section Fixed

variable {σ : Renaming} {ρ : Pairing}

/-- The renaming keeps all numbers that are paired. -/
structure Renaming.Keeps (σ : Renaming) (ρ : Pairing) : Prop where
  scope {s s' : ScopeId} : ρ.scope s s' → σ.scope s = s
  handle {a a' : Handle} : ρ.handle a a' → σ.handle a = a

mutual

/-- A value stays the same if its numbers do. -/
theorem Value.rename_of_keeps (h : σ.Keeps ρ) :
    ∀ v v' : Value, Value.Corresponds ρ v v' → v.rename σ = v
  | .array _ items, _, .array ha hitems => by
      rw [Value.rename, h.handle ha, renameItems_of_keeps h items _ hitems]
  | .dict _ entries, _, .dict ha hentries => by
      rw [Value.rename, h.handle ha, renameEntries_of_keeps h entries _ hentries]
  | .closure _ _ _ _ _, _, .closure ha hs _ => by rw [Value.rename, h.handle ha, h.scope hs]
  | .quote _ _, _, .quote ha _ => by rw [Value.rename, h.handle ha]
  | .returned v, _, .returned hv => by rw [Value.rename, v.rename_of_keeps h _ hv]
  | .int _, _, _ | .bool _, _, _ | .null, _, _ | .str _, _, _ | .native _, _, _ | .fault _, _, _ =>
      rfl

/-- So are items. -/
theorem renameItems_of_keeps (h : σ.Keeps ρ) :
    ∀ items items' : List Value, List.Forall₂ (Value.Corresponds ρ) items items' →
      renameItems σ items = items
  | [], _, _ => rfl
  | v :: rest, _, .cons hv hrest => by
      rw [renameItems, v.rename_of_keeps h _ hv, renameItems_of_keeps h rest _ hrest]

/-- So are entries. -/
theorem renameEntries_of_keeps (h : σ.Keeps ρ) :
    ∀ entries entries' : List (Key × Value),
      List.Forall₂ (Keyed (Value.Corresponds ρ)) entries entries' →
        renameEntries σ entries = entries
  | [], _, _ => rfl
  | (key, v) :: rest, _, .cons (.under hv) hrest => by
      rw [renameEntries, v.rename_of_keeps h _ hv, renameEntries_of_keeps h rest _ hrest]

end

end Fixed

namespace Heap

/-- A shift keeps whatever the heap pairs with itself. -/
theorem shift_keeps (heap heap₁ : Heap) : (heap.shift heap₁).Keeps heap.diagonal :=
  ⟨fun hs => shift_scope_of_lt hs.2 heap₁, fun ha => shift_handle_of_lt ha.2 heap₁⟩

/-- A scope that is there stays the same in a heap that has grown. -/
theorem Coherent.rename_frame (h : heap.Coherent) {s : ScopeId} {frame : Frame}
    (hframe : heap.frame? s = some frame) (heap₁ : Heap) :
    frame.rename (heap.shift heap₁) = frame := by
  -- All numbers in the scope are numbers of what is there, and these are not moved.
  have hself := h.frame_self hframe
  have hbindings : ∀ binding ∈ frame.bindings,
      renameUnder (heap.shift heap₁) binding = binding := by
    intro binding hbinding
    obtain ⟨_, hpaired⟩ := exists_of_mem_left hself.bindings hbinding
    cases hpaired with
    | under hv =>
        exact congrArg (Prod.mk _) (Value.rename_of_keeps (shift_keeps heap heap₁) _ _ hv)
  have hparent : frame.parent.map (heap.shift heap₁).scope = frame.parent := by
    cases hp : frame.parent with
    | none => rfl
    | some p => exact congrArg some (shift_scope_of_lt (h.parent_lt hframe hp) heap₁)
  obtain ⟨bindings, parent⟩ := frame
  simp only [Frame.rename, hparent, List.map_congr_left hbindings, List.map_id']

/-- A heap in which nothing points to what is not there is found in
every heap that has grown from it. -/
theorem Coherent.renamed (h : heap.Coherent) (hgrown : heap.Grown heap₁) :
    heap.Renamed (heap.shift heap₁) heap₁ where
  frames hframe := by
    rw [h.rename_frame hframe, shift_scope_of_lt (number_lt_of_frame? hframe)]
    exact hgrown.scopes _ _ hframe
  captured hframe _ hbinding _ hr := h.captured_lt hframe hbinding hr
  parents hframe p hp := by
    -- Parents are older than the scopes inside them, so neither is moved.
    have hold := h.nested _ _ hframe p hp
    rw [shift_scope_of_lt (h.parent_lt hframe hp), shift_scope_of_lt (number_lt_of_frame? hframe)]
    exact ⟨hold, hold⟩
  scopes i := by
    have hsize : heap.frames.size + (heap₁.frames.size - heap.frames.size) = heap₁.frames.size :=
      Nat.add_sub_cancel' hgrown.size_le
    show (⟨shiftFrom _ _ (heap.frames.size + i)⟩ : ScopeId) = _
    rw [shiftFrom_add, hsize]
  handles i := by
    have hsize : heap.nextHandle + (heap₁.nextHandle - heap.nextHandle) = heap₁.nextHandle :=
      Nat.add_sub_cancel' hgrown.handles
    show (⟨shiftFrom _ _ (heap.nextHandle + i)⟩ : Handle) = _
    rw [shiftFrom_add, hsize]

end Heap

end QuoteScript
