import QuoteScript.Proofs.Scope.Change
import QuoteScript.Proofs.Tree.Lexicon

/-!
# `QuoteScript.Proofs.Value.Stored`: what values and scopes hold

A value *contains* itself, and what its items or entries contain, down
to any depth. What unwinds is never meant to be stored: a value is
*clean* if it contains neither a pending `return` nor a fault.

`Value.Over L` is the invariant that evaluation keeps. It says that a
value is clean, and that the trees it contains, that is, the closures
and the quotes, are trees over the lexicon.

* `Value.over_full_iff`: over the lexicon of all trees, this is being
  clean.
* `Value.Outcome`: what evaluation answers, which is a value that may
  be stored, a pending `return` of one, or a fault.
* `Heap.All`, `Heap.Over`: all bindings of a heap have a property, and
  in particular may be stored.
-/

set_option autoImplicit false

namespace QuoteScript

namespace Value

/-- `v.Contains w`: the value `w` is `v` itself, or is stored in it, at
any depth. -/
inductive Contains : Value → Value → Prop where
  | self (v : Value) : Contains v v
  | item {handle : Handle} {items : List Value} {v w : Value} (hv : v ∈ items) :
      Contains v w → Contains (.array handle items) w
  | key {handle : Handle} {entries : List (Key × Value)} {key : Key} {v : Value}
      (hv : (key, v) ∈ entries) : Contains (.dict handle entries) key.toValue
  | entry {handle : Handle} {entries : List (Key × Value)} {key : Key} {v w : Value}
      (hv : (key, v) ∈ entries) : Contains v w → Contains (.dict handle entries) w

/-- Nothing that a value contains unwinds. -/
def Clean (v : Value) : Prop :=
  ∀ w, v.Contains w → w.isUnwinding = false

end Value

mutual

/-- A value that may be stored: it contains nothing that unwinds, and
its trees are trees over the lexicon. -/
def Value.Over (L : Lexicon) : Value → Prop
  | .int _ | .bool _ | .null | .str _ | .native _ => True
  | .array _ items => itemsOver L items
  | .dict _ entries => entriesOver L entries
  | .closure _ _ params body _ => (∀ name ∈ params, L.name name) ∧ body.Over L
  | .quote _ node => node.Quotable L
  | .returned _ | .fault _ => False

/-- The same for a list of values. -/
def itemsOver (L : Lexicon) : List Value → Prop
  | [] => True
  | v :: rest => v.Over L ∧ itemsOver L rest

/-- The same for the values of a dict. -/
def entriesOver (L : Lexicon) : List (Key × Value) → Prop
  | [] => True
  | (_, v) :: rest => v.Over L ∧ entriesOver L rest

end

variable {L : Lexicon}

/-- Items over a lexicon, one by one. -/
theorem itemsOver_iff {items : List Value} : itemsOver L items ↔ ∀ v ∈ items, v.Over L := by
  induction items with
  | nil => simp [itemsOver]
  | cons v rest ih => simp [itemsOver, ih]

/-- Entries over a lexicon, one by one. -/
theorem entriesOver_iff {entries : List (Key × Value)} :
    entriesOver L entries ↔ ∀ entry ∈ entries, entry.2.Over L := by
  induction entries with
  | nil => simp [entriesOver]
  | cons entry rest ih => simp [entriesOver, ih]

namespace Value

/-- What may be stored does not unwind. -/
theorem Over.isUnwinding {v : Value} (h : v.Over L) : v.isUnwinding = false := by
  cases v with
  | returned _ | fault _ => exact h.elim
  | _ => rfl

/-- Keys are over any lexicon: they have no tree in them. -/
theorem over_toValue (key : Key) : key.toValue.Over L := by
  cases key <;> exact trivial

/-- What a stored value contains may be stored. -/
theorem Over.contains {v w : Value} (h : v.Over L) (hw : v.Contains w) : w.Over L := by
  induction hw with
  | self => exact h
  | item hv _ ih => exact ih (itemsOver_iff.mp h _ hv)
  | key => exact over_toValue _
  | entry hv _ ih => exact ih (entriesOver_iff.mp h _ hv)

/-- A stored value is clean. -/
theorem Over.clean {v : Value} (h : v.Over L) : v.Clean :=
  fun _ hw => (h.contains hw).isUnwinding

end Value

mutual

/-- Over the lexicon of all trees, only what unwinds may not be
stored. -/
theorem Value.over_full_of_clean : ∀ v : Value, v.Clean → v.Over .full
  | .int _, _ | .bool _, _ | .null, _ | .str _, _ | .native _, _ => trivial
  | .array _ items, h => itemsOver_full_of_clean items fun _ hv w hw => h w (.item hv hw)
  | .dict _ entries, h => entriesOver_full_of_clean entries fun (_, _) hv w hw => h w (.entry hv hw)
  | .closure _ _ _ body _, _ => ⟨fun _ _ => trivial, body.over_full⟩
  | .quote _ node, _ => node.quotable_full
  -- What unwinds is in itself, so it is not clean.
  | .returned v, h => Bool.noConfusion (h _ (.self (.returned v)))
  | .fault f, h => Bool.noConfusion (h _ (.self (.fault f)))

/-- Clean items are over the full lexicon. -/
theorem itemsOver_full_of_clean :
    ∀ items : List Value, (∀ v ∈ items, v.Clean) → itemsOver .full items
  | [], _ => trivial
  | v :: rest, h =>
    ⟨v.over_full_of_clean (h v List.mem_cons_self),
      itemsOver_full_of_clean rest fun w hw => h w (List.mem_cons_of_mem _ hw)⟩

/-- So are clean entries. -/
theorem entriesOver_full_of_clean :
    ∀ entries : List (Key × Value), (∀ entry ∈ entries, entry.2.Clean) → entriesOver .full entries
  | [], _ => trivial
  | (_, v) :: rest, h =>
    ⟨v.over_full_of_clean (h (_, v) List.mem_cons_self),
      entriesOver_full_of_clean rest fun w hw => h w (List.mem_cons_of_mem _ hw)⟩

end

namespace Value

/-- Over the lexicon of all trees, the clean values are those that may
be stored. -/
theorem over_full_iff {v : Value} : v.Over .full ↔ v.Clean :=
  ⟨Over.clean, v.over_full_of_clean⟩

/-! ### Outcomes -/

/-- What evaluation answers. -/
inductive Outcome (L : Lexicon) : Value → Prop where
  | stored {v : Value} (h : v.Over L) : Outcome L v
  | returned {v : Value} (h : v.Over L) : Outcome L (.returned v)
  | fault (f : Fault) : Outcome L (.fault f)

/-- What a call answers: no `return` is pending behind it. -/
inductive Answer (L : Lexicon) : Value → Prop where
  | stored {v : Value} (h : v.Over L) : Answer L v
  | fault (f : Fault) : Answer L (.fault f)

/-- An answer is one of the outcomes there are. -/
theorem Answer.outcome {v : Value} (h : v.Answer L) : v.Outcome L := by
  cases h with
  | stored h => exact .stored h
  | fault f => exact .fault f

/-- What does not unwind may be stored. -/
theorem Outcome.over {v : Value} (h : v.Outcome L) (hv : v.isUnwinding = false) : v.Over L := by
  cases h with
  | stored h => exact h
  | returned _ | fault _ => cases hv

/-- Behind a call no `return` is pending. -/
theorem Outcome.unwrapReturn {v : Value} (h : v.Outcome L) : v.unwrapReturn.Answer L := by
  cases h with
  | stored h =>
      cases v with
      -- A pending `return` may not be stored, so it is not this case.
      | returned _ => exact h.elim
      | _ => exact .stored h
  | returned h => exact .stored h
  | fault f => exact .fault f

end Value

/-! ### Entries -/

/-- Putting a value under a key adds no other value. -/
theorem entriesOver_putEntry {key : Key} {v : Value} {entries : List (Key × Value)}
    (hv : v.Over L) (h : entriesOver L entries) : entriesOver L (putEntry key v entries) := by
  induction entries with
  | nil => exact ⟨hv, trivial⟩
  | cons entry rest ih =>
      obtain ⟨hentry, hrest⟩ := h
      -- The first entry with the key is replaced, and without one the entry is added.
      by_cases hkey : entry.1 = key
      · rw [putEntry, if_pos hkey]
        exact ⟨hv, hrest⟩
      · rw [putEntry, if_neg hkey]
        exact ⟨hentry, ih hrest⟩

/-! ### Heaps -/

namespace Heap

section All

variable {P : Value → Prop} {heap : Heap}

/-- Everything that is bound in a heap has the property `P`. -/
def All (P : Value → Prop) (heap : Heap) : Prop :=
  ∀ frame ∈ heap.frames, ∀ binding ∈ frame.bindings, P binding.2

/-- The empty heap holds nothing. -/
theorem all_empty : All P {} := by
  intro frame hframe
  exact absurd hframe (Array.not_mem_empty frame)

/-- Binding a name to what has the property. -/
theorem All.bind (h : heap.All P) (scope : ScopeId) (name : String) {v : Value} (hv : P v) :
    (heap.bind scope name v).All P := by
  intro frame hframe binding hbinding
  obtain ⟨i, hi, rfl⟩ := Array.mem_iff_getElem.mp hframe
  simp only [Heap.bind, Array.size_modify] at hi
  -- Only one scope is changed, and there only the binding of the name.
  simp only [Heap.bind, Array.getElem_modify] at hbinding
  split at hbinding
  · rcases Frame.mem_put hbinding with rfl | hold
    · exact hv
    · exact h _ (Array.getElem_mem hi) _ hold
  · exact h _ (Array.getElem_mem hi) _ hbinding

/-- A new scope is empty. -/
theorem All.newScope (h : heap.All P) (parent : Option ScopeId) :
    (heap.newScope parent).2.All P := by
  intro frame hframe binding hbinding
  rcases Array.mem_push.mp hframe with hold | rfl
  · exact h frame hold binding hbinding
  · cases hbinding

/-- What a name means has the property. -/
theorem All.lookup (h : heap.All P) {scope : ScopeId} {name : String} {v : Value}
    (hv : heap.lookup scope name = some v) : P v := by
  obtain ⟨s, frame, hframe, binding, hbinding, rfl⟩ := exists_binding_of_lookup hv
  exact h frame (Array.mem_of_getElem? hframe) binding hbinding

end All

/-- Everything that is bound in a heap may be stored. -/
def Over (L : Lexicon) (heap : Heap) : Prop :=
  ∀ frame ∈ heap.frames, ∀ binding ∈ frame.bindings, binding.2.Over L

/-- Everything that is bound in a heap is clean. -/
def Clean (heap : Heap) : Prop :=
  ∀ frame ∈ heap.frames, ∀ binding ∈ frame.bindings, binding.2.Clean

/-- Over the full lexicon nothing is asked of a heap but that it is
clean. -/
theorem over_full_iff {heap : Heap} : heap.Over .full ↔ heap.Clean := by
  simp only [Over, Clean, Value.over_full_iff]

/-- The empty heap is over any lexicon. -/
theorem over_empty : Over L {} :=
  all_empty

/-- Binding a name to what may be stored. -/
theorem Over.bind {heap : Heap} (h : heap.Over L) (scope : ScopeId) (name : String) {v : Value}
    (hv : v.Over L) : (heap.bind scope name v).Over L :=
  All.bind h scope name hv

/-- A new scope is empty. -/
theorem Over.newScope {heap : Heap} (h : heap.Over L) (parent : Option ScopeId) :
    (heap.newScope parent).2.Over L :=
  All.newScope h parent

/-- A new handle binds nothing. -/
theorem Over.newHandle {heap : Heap} (h : heap.Over L) : heap.newHandle.2.Over L :=
  h

/-- What a name means may be stored. -/
theorem Over.lookup {heap : Heap} (h : heap.Over L) {scope : ScopeId} {name : String} {v : Value}
    (hv : heap.lookup scope name = some v) : v.Over L :=
  All.lookup h hv

end Heap

end QuoteScript
