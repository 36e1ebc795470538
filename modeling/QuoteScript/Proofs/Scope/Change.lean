import QuoteScript.Scope.Heap

/-!
# `QuoteScript.Proofs.Scope.Change`: how heaps change

A `Change` says which heaps may come of a heap. Two of them matter. A
heap is *extended* if it gets new scopes, and all scopes that it had
stay as they were. It is *written* in one scope if, besides, this scope
may bind more names, and names to other values. No change touches the
parent of a scope, and none unbinds a name.

* `Heap.frame?_bind_of_ne`, `Heap.frame?_bind_self`,
  `Heap.frame?_newScope`: what the operations of the heap do to a scope.
* `Heap.exists_binding_of_lookup`: where a value comes from that is
  looked up.
* `Heap.Nested.lookup_of_extends`: names mean the same in a heap that is
  extended.
* `Change.extending`, `Change.writing`: the two changes.
* `Heap.Writes.extends_of_new`: what is written in a new scope only is
  an extension.
-/

set_option autoImplicit false

namespace QuoteScript

variable {heap heap' heap'' : Heap} {scope other : ScopeId} {frame : Frame}

/-! ### Operations -/

namespace Frame

/-- Binding a name unbinds none. -/
theorem mem_names_bind {frame : Frame} {bound : String} (h : bound ∈ frame.names) (name : String)
    (v : Value) : bound ∈ (frame.bind name v).names := by
  obtain ⟨bindings, parent⟩ := frame
  simp only [names, bind] at h ⊢
  induction bindings with
  | nil => cases h
  | cons first rest ih =>
      rw [put]
      -- The value takes the place of the old one, under the name that is there.
      rcases List.mem_cons.mp h with rfl | hrest
      · split
        · next hname => exact hname ▸ List.mem_cons_self
        · exact List.mem_cons_self
      · split
        · exact List.mem_cons_of_mem _ hrest
        · exact List.mem_cons_of_mem _ (ih hrest)

/-- A name that is bound means the value it is bound to. -/
theorem find?_bind (frame : Frame) (bound name : String) (v : Value) :
    (frame.bind bound v).find? name = if bound = name then some v else frame.find? name := by
  obtain ⟨bindings, parent⟩ := frame
  simp only [find?, bind]
  induction bindings with
  | nil =>
      by_cases hname : bound = name
      · simp [put, hname]
      · simp [put, hname]
  | cons first rest ih =>
      rw [put]
      -- The first binding is the one that is replaced, or the value goes further down.
      by_cases hfirst : first.1 = bound
      · rw [if_pos hfirst, List.find?_cons, List.find?_cons, hfirst]
        by_cases hname : bound = name
        · rw [beq_iff_eq.mpr hname, if_pos hname]
          rfl
        · rw [beq_eq_false_iff_ne.mpr hname, if_neg hname]
      · rw [if_neg hfirst, List.find?_cons, List.find?_cons]
        by_cases hname : first.1 = name
        · rw [beq_iff_eq.mpr hname, if_neg fun h => hfirst (hname.trans h.symm)]
        · rw [beq_eq_false_iff_ne.mpr hname]
          exact ih

/-- Binding a name adds one value to a scope. -/
theorem mem_put {name : String} {v : Value} {bindings : List (String × Value)}
    {binding : String × Value} (h : binding ∈ put name v bindings) :
    binding = (name, v) ∨ binding ∈ bindings := by
  induction bindings with
  | nil => exact .inl (List.mem_singleton.mp h)
  | cons first rest ih =>
      by_cases hname : first.1 = name
      · rw [put, if_pos hname] at h
        rcases List.mem_cons.mp h with h | h
        · exact .inl h
        · exact .inr (List.mem_cons_of_mem _ h)
      · rw [put, if_neg hname] at h
        rcases List.mem_cons.mp h with h | h
        · exact .inr (h ▸ List.mem_cons_self)
        · exact (ih h).imp_right (List.mem_cons_of_mem _)

/-- What a scope binds a name to is one of its values. -/
theorem mem_of_find? {frame : Frame} {name : String} {v : Value}
    (h : frame.find? name = some v) : ∃ binding ∈ frame.bindings, binding.2 = v := by
  obtain ⟨binding, hfind, rfl⟩ := Option.map_eq_some_iff.mp h
  exact ⟨binding, List.mem_of_find?_eq_some hfind, rfl⟩

end Frame

namespace Heap

/-- A name means what the scope itself binds it to. -/
theorem lookup_of_find? {name : String} {v : Value} (h : heap.frame? scope = some frame)
    (hv : frame.find? name = some v) : heap.lookup scope name = some v := by
  rw [lookup, lookupFrom, h]
  simp only [hv]

/-- What a name means is bound in some scope, in however many steps it
is looked up. -/
theorem exists_binding_of_lookupFrom {name : String} {v : Value} {steps : Nat}
    (h : heap.lookupFrom name steps scope = some v) :
    ∃ s frame, heap.frame? s = some frame ∧ ∃ binding ∈ frame.bindings, binding.2 = v := by
  induction steps generalizing scope with
  | zero => cases h
  | succ steps ih =>
      rw [lookupFrom] at h
      cases hframe : heap.frame? scope with
      | none =>
          rw [hframe] at h
          cases h
      | some frame =>
          rw [hframe] at h
          dsimp only at h
          cases hfind : frame.find? name with
          | none =>
              -- The name is looked up in the scope around this one.
              rw [hfind] at h
              obtain ⟨parent, -, hparent⟩ := Option.bind_eq_some_iff.mp h
              exact ih hparent
          | some found =>
              rw [hfind] at h
              cases h
              exact ⟨scope, frame, hframe, Frame.mem_of_find? hfind⟩

/-- A value that is looked up is bound in some scope. -/
theorem exists_binding_of_lookup {name : String} {v : Value}
    (h : heap.lookup scope name = some v) :
    ∃ s frame, heap.frame? s = some frame ∧ ∃ binding ∈ frame.bindings, binding.2 = v :=
  exists_binding_of_lookupFrom h

/-- A scope is there if its number is small enough. -/
theorem number_lt_of_frame? (h : heap.frame? scope = some frame) :
    scope.number < heap.frames.size :=
  (Array.getElem?_eq_some_iff.mp h).1

/-- A scope with a small enough number is there. -/
theorem exists_frame?_of_number_lt (h : scope.number < heap.frames.size) :
    ∃ frame, heap.frame? scope = some frame :=
  ⟨_, Array.getElem?_eq_getElem h⟩

/-- Binding a name changes no other scope. -/
theorem frame?_bind_of_ne (h : other ≠ scope) (name : String) (v : Value) :
    (heap.bind scope name v).frame? other = heap.frame? other := by
  have hnumber : scope.number ≠ other.number := by
    intro heq
    cases scope
    cases other
    exact h (congrArg ScopeId.mk heq.symm)
  simp [bind, frame?, Array.getElem?_modify, hnumber]

/-- Binding a name in a scope that is there. -/
theorem frame?_bind_self (h : heap.frame? scope = some frame) (name : String) (v : Value) :
    (heap.bind scope name v).frame? scope = some (frame.bind name v) := by
  have hsome : heap.frames[scope.number]? = some frame := h
  simp [bind, frame?, Array.getElem?_modify, hsome]

/-- A new scope changes no scope that is there. -/
theorem frame?_newScope (h : heap.frame? scope = some frame) (parent : Option ScopeId) :
    (heap.newScope parent).2.frame? scope = some frame := by
  have hlt := number_lt_of_frame? h
  have hsome : heap.frames[scope.number]? = some frame := h
  simp [newScope, frame?, Array.getElem?_push, Nat.ne_of_lt hlt, hsome]

/-- A scope that is made now. -/
theorem frame?_newScope_self (heap : Heap) (parent : Option ScopeId) :
    (heap.newScope parent).2.frame? ⟨heap.frames.size⟩ = some ⟨[], parent⟩ :=
  Array.getElem?_push_size

/-- Making a scope changes no scope but the one that is made. -/
theorem frame?_newScope_of_ne (h : scope ≠ ⟨heap.frames.size⟩) (parent : Option ScopeId) :
    (heap.newScope parent).2.frame? scope = heap.frame? scope := by
  have hnumber : scope.number ≠ heap.frames.size := fun heq => h (congrArg ScopeId.mk heq)
  simp [newScope, frame?, Array.getElem?_push, hnumber]

/-- A scope of a heap in which a name has been bound in a scope that is
there. -/
theorem frame?_bind_cases (h : heap.frame? scope = some frame) {name : String} {v : Value}
    {found : Frame} (hfound : (heap.bind scope name v).frame? other = some found) :
    (other = scope ∧ found = frame.bind name v) ∨
      (other ≠ scope ∧ heap.frame? other = some found) := by
  by_cases heq : other = scope
  · subst heq
    rw [frame?_bind_self h] at hfound
    cases hfound
    exact .inl ⟨rfl, rfl⟩
  · rw [frame?_bind_of_ne heq] at hfound
    exact .inr ⟨heq, hfound⟩

/-- A scope of a heap in which a scope has been made. -/
theorem frame?_newScope_cases {parent : Option ScopeId} {found : Frame}
    (hfound : (heap.newScope parent).2.frame? other = some found) :
    (other = ⟨heap.frames.size⟩ ∧ found = ⟨[], parent⟩) ∨ heap.frame? other = some found := by
  by_cases heq : other = ⟨heap.frames.size⟩
  · subst heq
    rw [frame?_newScope_self] at hfound
    cases hfound
    exact .inl ⟨rfl, rfl⟩
  · rw [frame?_newScope_of_ne heq] at hfound
    exact .inr hfound

/-! ### Changes -/

/-- All scopes of `heap` are scopes of `heap'`, with the same parent and
the same bindings. -/
def Extends (heap heap' : Heap) : Prop :=
  ∀ s frame, heap.frame? s = some frame → heap'.frame? s = some frame

/-- The only scope of `heap` that may differ in `heap'` is `scope`. It
has the same parent, and binds at least the same names. -/
structure Writes (scope : ScopeId) (heap heap' : Heap) : Prop where
  others : ∀ s frame, s ≠ scope → heap.frame? s = some frame → heap'.frame? s = some frame
  own : ∀ frame, heap.frame? scope = some frame →
    ∃ frame', heap'.frame? scope = some frame' ∧ frame'.parent = frame.parent ∧
      ∀ name ∈ frame.names, name ∈ frame'.names

/-- What leaves all scopes alone writes to no other than the given one. -/
theorem Extends.writes (h : heap.Extends heap') (scope : ScopeId) : heap.Writes scope heap' where
  others s frame _ hframe := h s frame hframe
  own frame hframe := ⟨frame, h scope frame hframe, rfl, fun _ hname => hname⟩

/-- Nothing has been written. -/
theorem Writes.refl (scope : ScopeId) (heap : Heap) : heap.Writes scope heap :=
  Extends.writes (fun _ _ h => h) scope

/-- Written to the same scope twice. -/
theorem Writes.trans (h : heap.Writes scope heap') (h' : heap'.Writes scope heap'') :
    heap.Writes scope heap'' where
  others s frame hs hframe := h'.others s frame hs (h.others s frame hs hframe)
  own frame hframe := by
    obtain ⟨frame', hframe', hparent, hnames⟩ := h.own frame hframe
    obtain ⟨frame'', hframe'', hparent', hnames'⟩ := h'.own frame' hframe'
    exact ⟨frame'', hframe'', hparent'.trans hparent,
      fun name hname => hnames' name (hnames name hname)⟩

/-- What is written in a scope that was not there is an extension. -/
theorem Writes.extends_of_new (hnew : heap.frame? scope = none) (hmade : heap.Extends heap')
    (h : heap'.Writes scope heap'') : heap.Extends heap'' := by
  intro s frame hframe
  have hne : s ≠ scope := by
    rintro rfl
    rw [hnew] at hframe
    cases hframe
  exact h.others s frame hne (hmade s frame hframe)

/-- Binding a name writes to its scope, and takes no name away. -/
theorem writes_bind (heap : Heap) (scope : ScopeId) (name : String) (v : Value) :
    heap.Writes scope (heap.bind scope name v) where
  others _ _ hs hframe := (frame?_bind_of_ne hs name v).trans hframe
  own frame hframe :=
    ⟨frame.bind name v, frame?_bind_self hframe name v, rfl,
      fun _ hname => Frame.mem_names_bind hname name v⟩

/-- A new scope leaves those that are there alone. -/
theorem extends_newScope (heap : Heap) (parent : Option ScopeId) :
    heap.Extends (heap.newScope parent).2 :=
  fun _ _ hframe => frame?_newScope hframe parent

/-! ### Nested scopes -/

/-- The scope around a scope is older. -/
def Nested (heap : Heap) : Prop :=
  ∀ s frame, heap.frame? s = some frame → ∀ p ∈ frame.parent, p.number < s.number

/-- What a name means does not change when scopes are made. -/
theorem Nested.lookupFrom_of_extends (hheap : heap.Nested) (h : heap.Extends heap') (name : String)
    (steps : Nat) {s : ScopeId} (hs : s.number < heap.frames.size) :
    heap'.lookupFrom name steps s = heap.lookupFrom name steps s := by
  induction steps generalizing s with
  | zero => rfl
  | succ steps ih =>
      obtain ⟨frame, hframe⟩ := exists_frame?_of_number_lt hs
      rw [lookupFrom, lookupFrom, hframe, h s frame hframe]
      dsimp only
      cases frame.find? name with
      | some v => rfl
      | none =>
          -- The parent is there, because it is older.
          cases hparent : frame.parent with
          | none => rfl
          | some p => exact ih (Nat.lt_trans (hheap s frame hframe p hparent) hs)

/-- New scopes do not change what an old one finds. -/
theorem Nested.lookup_of_extends (hheap : heap.Nested) (h : heap.Extends heap')
    (hscope : scope.number < heap.frames.size) (name : String) :
    heap'.lookup scope name = heap.lookup scope name :=
  hheap.lookupFrom_of_extends h name _ hscope

end Heap

/-- A way in which heaps may change, in any number of steps. -/
structure Change where
  /-- Whether the second heap may come of the first one. -/
  allows : Heap → Heap → Prop
  refl (heap : Heap) : allows heap heap
  trans {heap heap' heap'' : Heap} : allows heap heap' → allows heap' heap'' → allows heap heap''

namespace Change

/-- New scopes only. -/
def extending : Change where
  allows := Heap.Extends
  refl _ _ _ h := h
  trans h h' s frame hframe := h' s frame (h s frame hframe)

/-- New scopes, and new bindings in one scope. -/
def writing (scope : ScopeId) : Change where
  allows := Heap.Writes scope
  refl := Heap.Writes.refl scope
  trans := Heap.Writes.trans

end Change

end QuoteScript
