import Mathlib.Logic.Equiv.Basic
import QuoteScript.Proofs.Eval.Lockstep
import QuoteScript.Proofs.Scope.Change

/-!
# `QuoteScript.Proofs.Scope.Relabelling`: heaps that differ in their handles

Two heaps may have the same scopes, with the same names bound to the same
values, and yet have come about in different ways: the names of a scope
may have been bound in another order, and the values may have been made
in another order, so that they carry each other's handles. No program can
tell such heaps from each other. Nothing looks at the order of the names,
and handles are only ever compared with each other.

* `Value.Carries`: the handles in a value.
* `Heap.Issued`: a heap that has handed out the handles in its values.
* `Heap.Relabelled`: the same heap, with the handles permuted.
* `Lockstep.relabelled`: such heaps go in step.
-/

set_option autoImplicit false

namespace QuoteScript

/-! ### Handles -/

/-- The handles in a value, at any depth. -/
inductive Value.Carries : Value → Handle → Prop where
  | array {a : Handle} {items : List Value} : Carries (.array a items) a
  | item {a b : Handle} {items : List Value} {v : Value} (hv : v ∈ items) :
      Carries v b → Carries (.array a items) b
  | dict {a : Handle} {entries : List (Key × Value)} : Carries (.dict a entries) a
  | entry {a b : Handle} {entries : List (Key × Value)} {key : Key} {v : Value}
      (hv : (key, v) ∈ entries) : Carries v b → Carries (.dict a entries) b
  | closure {kind : LambdaKind} {a : Handle} {params : List String} {body : Block} {s : ScopeId} :
      Carries (.closure kind a params body s) a
  | quote {a : Handle} {node : Node} : Carries (.quote a node) a
  | returned {v : Value} {a : Handle} : Carries v a → Carries (.returned v) a

/-- The handles in a value are paired. -/
theorem Value.Corresponds.carries {ρ : Pairing} {v v' : Value} (h : Corresponds ρ v v') {a : Handle}
    (ha : v.Carries a) : ∃ a', ρ.handle a a' := by
  induction ha generalizing v' with
  -- A handle is that of the value itself, or of one inside.
  | array =>
      cases h with
      | array ha _ => exact ⟨_, ha⟩
  | item hv _ ih =>
      cases h with
      | array _ hitems =>
          obtain ⟨v', hv'⟩ := exists_of_mem_left hitems hv
          exact ih hv'
  | dict =>
      cases h with
      | dict ha _ => exact ⟨_, ha⟩
  | entry hv _ ih =>
      cases h with
      | dict _ hentries =>
          obtain ⟨_, hentry⟩ := exists_of_mem_left hentries hv
          cases hentry with
          | under hv' => exact ih hv'
  | closure =>
      cases h with
      | closure ha _ _ => exact ⟨_, ha⟩
  | quote =>
      cases h with
      | quote ha _ => exact ⟨_, ha⟩
  | returned _ ih =>
      cases h with
      | returned hv => exact ih hv

/-- All handles in the values of a heap have been handed out. -/
def Heap.Issued (heap : Heap) : Prop :=
  ∀ s frame name v, heap.frame? s = some frame → frame.find? name = some v →
    ∀ a, v.Carries a → a.number < heap.nextHandle

/-- Other handles and the same scopes. -/
def Renaming.ofHandles (τ : Equiv.Perm Handle) : Renaming :=
  ⟨.refl ScopeId, τ.toEmbedding⟩

section Fixed

variable {τ : Equiv.Perm Handle}

mutual

/-- A value stays the same if its handles do. -/
theorem Value.rename_of_carries :
    ∀ v : Value, (∀ a, v.Carries a → τ a = a) → v.rename (.ofHandles τ) = v
  | .array _ items, h =>
      congrArg₂ Value.array (h _ .array) (renameItems_of_carries items fun _ hv a ha =>
        h a (.item hv ha))
  | .dict _ entries, h =>
      congrArg₂ Value.dict (h _ .dict) (renameEntries_of_carries entries fun _ _ hv a ha =>
        h a (.entry hv ha))
  | .closure kind _ params body s, h =>
      congrArg (Value.closure kind · params body s) (h _ .closure)
  | .quote _ node, h => congrArg (Value.quote · node) (h _ .quote)
  | .returned v, h => congrArg Value.returned (v.rename_of_carries fun a ha => h a (.returned ha))
  | .int _, _ | .bool _, _ | .null, _ | .str _, _ | .native _, _ | .fault _, _ => rfl

/-- The same for items. -/
theorem renameItems_of_carries :
    ∀ items : List Value, (∀ v ∈ items, ∀ a, v.Carries a → τ a = a) →
      renameItems (.ofHandles τ) items = items
  | [], _ => rfl
  | v :: rest, h =>
      congrArg₂ List.cons (v.rename_of_carries (h v List.mem_cons_self))
        (renameItems_of_carries rest fun u hu => h u (List.mem_cons_of_mem v hu))

/-- The same for entries. -/
theorem renameEntries_of_carries :
    ∀ entries : List (Key × Value), (∀ key v, (key, v) ∈ entries → ∀ a, v.Carries a → τ a = a) →
      renameEntries (.ofHandles τ) entries = entries
  | [], _ => rfl
  | (key, v) :: rest, h =>
      congrArg₂ List.cons
        (congrArg (Prod.mk key) (v.rename_of_carries (h key v List.mem_cons_self)))
        (renameEntries_of_carries rest fun k u hu => h k u (List.mem_cons_of_mem (key, v) hu))

end

end Fixed

/-! ### Heaps -/

/-- The same scope up to handles, and up to the order of its names. -/
structure Frame.Relabelled (τ : Equiv.Perm Handle) (frame frame' : Frame) : Prop where
  parent : frame'.parent = frame.parent
  find? (name : String) :
    frame'.find? name = (frame.find? name).map (Value.rename (.ofHandles τ))

/-- Binding a value and the relabelled one. -/
theorem Frame.Relabelled.bind {τ : Equiv.Perm Handle} {frame frame' : Frame}
    (h : frame.Relabelled τ frame') (name : String) (v : Value) :
    (frame.bind name v).Relabelled τ (frame'.bind name (v.rename (.ofHandles τ))) where
  parent := h.parent
  find? other := by
    rw [find?_bind, find?_bind]
    split
    · rfl
    · exact h.find? other

/-- The same heap up to handles. The handles that are handed out next are
the same ones. -/
structure Heap.Relabelled (τ : Equiv.Perm Handle) (heap heap' : Heap) : Prop where
  size : heap'.frames.size = heap.frames.size
  next : heap'.nextHandle = heap.nextHandle
  fresh {a : Handle} : heap.nextHandle ≤ a.number → τ a = a
  frames (s : ScopeId) : Option.Rel (Frame.Relabelled τ) (heap.frame? s) (heap'.frame? s)

namespace Heap

/-- Binding a name in a scope, whether the scope is there or not. -/
theorem frame?_bind (heap : Heap) (s : ScopeId) (name : String) (v : Value) :
    (heap.bind s name v).frame? s = (heap.frame? s).map (·.bind name v) := by
  simp [bind, frame?, Array.getElem?_modify]

/-- A name may be bound to a value whose handles have been handed
out. -/
theorem issued_bind {heap : Heap} (h : heap.Issued) (s : ScopeId) (name : String) {v : Value}
    (hv : ∀ a, v.Carries a → a.number < heap.nextHandle) : (heap.bind s name v).Issued := by
  intro t frame other u hframe hfind a ha
  -- Only the scope that is bound in holds anything new.
  by_cases ht : t = s
  · subst ht
    rw [frame?_bind, Option.map_eq_some_iff] at hframe
    obtain ⟨before, hbefore, rfl⟩ := hframe
    rw [Frame.find?_bind] at hfind
    split at hfind
    · cases hfind
      exact hv a ha
    · exact h t before other u hbefore hfind a ha
  · rw [frame?_bind_of_ne ht] at hframe
    exact h t frame other u hframe hfind a ha

namespace Relabelled

variable {τ : Equiv.Perm Handle} {heap heap' : Heap} (h : heap.Relabelled τ heap')

include h

/-- Names are looked up along the same chain, to relabelled values. -/
theorem lookupFrom (name : String) (steps : Nat) (s : ScopeId) :
    heap'.lookupFrom name steps s =
      (heap.lookupFrom name steps s).map (Value.rename (.ofHandles τ)) := by
  induction steps generalizing s with
  | zero => rfl
  | succ steps ih =>
      rw [Heap.lookupFrom, Heap.lookupFrom]
      have hframes := h.frames s
      generalize heap.frame? s = o, heap'.frame? s = o' at hframes
      cases hframes with
      | none => rfl
      | @some frame frame' hframe =>
          simp only [hframe.find? name, hframe.parent]
          -- Both frames bind the name or neither does, and they have the same parent.
          cases frame.find? name with
          | some v => rfl
          | none =>
              cases frame.parent with
              | none => rfl
              | some p => exact ih p

/-- A name means the same in both heaps, up to handles. -/
theorem lookup (s : ScopeId) (name : String) :
    heap'.lookup s name = (heap.lookup s name).map (Value.rename (.ofHandles τ)) :=
  h.lookupFrom name (s.number + 1) s

/-- A value and the relabelled one are bound in the same scope. -/
theorem bind (s : ScopeId) (name : String) (v : Value) :
    (heap.bind s name v).Relabelled τ (heap'.bind s name (v.rename (.ofHandles τ))) where
  size := by
    simp only [Heap.bind, Array.size_modify]
    exact h.size
  next := h.next
  fresh := h.fresh
  frames t := by
    have hframes := h.frames t
    by_cases ht : t = s
    · subst ht
      rw [frame?_bind, frame?_bind]
      generalize heap.frame? t = o, heap'.frame? t = o' at hframes
      cases hframes with
      | none => exact .none
      | some hframe => exact .some (hframe.bind name v)
    · rw [frame?_bind_of_ne ht, frame?_bind_of_ne ht]
      exact hframes

/-- A new scope has the same number on both sides. -/
theorem newScope (parent : Option ScopeId) :
    (heap.newScope parent).2.Relabelled τ (heap'.newScope parent).2 where
  size := by
    simp only [Heap.newScope, Array.size_push]
    rw [h.size]
  next := h.next
  fresh := h.fresh
  frames t := by
    by_cases ht : t = ⟨heap.frames.size⟩
    -- Scopes are not relabelled, and the heaps have as many of them.
    · have hself := frame?_newScope_self heap' parent
      rw [h.size] at hself
      rw [ht, frame?_newScope_self, hself]
      exact .some ⟨rfl, fun _ => rfl⟩
    · rw [frame?_newScope_of_ne ht, frame?_newScope_of_ne (h.size.symm ▸ ht)]
      exact h.frames t

/-- A new handle is one that the relabelling leaves alone. -/
theorem newHandle : heap.newHandle.2.Relabelled τ heap'.newHandle.2 where
  size := h.size
  next := congrArg (· + 1) h.next
  fresh ha := h.fresh (Nat.le_of_succ_le ha)
  frames := h.frames

/-- The next handle is the same one in both heaps. -/
theorem newHandle_eq : heap'.newHandle.1 = τ heap.newHandle.1 := by
  have hfresh : τ heap.newHandle.1 = heap.newHandle.1 := h.fresh (Nat.le_refl _)
  rw [hfresh]
  exact congrArg Handle.mk h.next

end Relabelled

end Heap

/-- Heaps that are the same up to handles go in step. Nothing has to be
known of their scopes. -/
def Lockstep.relabelled (τ : Equiv.Perm Handle) : Lockstep (.ofHandles τ) where
  World := Unit
  order :=
    { le := fun _ _ => True
      lt := fun _ _ => False
      lt_iff_le_not_ge := fun _ _ => ⟨False.elim, fun h => h.2 trivial⟩
      le_refl := fun _ => trivial
      le_trans := fun _ _ _ _ _ => trivial }
  known _ _ := True
  inside _ _ := True
  heaps _ := Heap.Relabelled τ
  known_mono _ _ := trivial
  inside_mono _ _ := trivial
  known_of_inside _ := trivial
  lookup h _ name := ⟨h.lookup _ name, fun _ _ _ _ => trivial⟩
  bind h _ name _ _ := h.bind _ name _
  newScope h _ := ⟨(), trivial, h.newScope _, congrArg ScopeId.mk h.size, trivial⟩
  newHandle h := ⟨(), trivial, h.newHandle, h.newHandle_eq⟩

end QuoteScript
