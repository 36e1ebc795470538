import Mathlib.Logic.Relation
import Mathlib.Order.WellFounded
import QuoteScript.Proofs.Scope.Change

/-!
# `QuoteScript.Proofs.Scope.Chain`: chains of scopes

A scope *encloses* another one if it is its parent. A name is looked up
from a scope outwards: the scope is asked first, then the one around it,
and so on. Nothing in this walk counts steps, so it ends only if the
scopes around a scope form a finite chain, and `Heap.lookup`, which does
count them, has to be shown to count far enough.

Both follow from one fact about a heap: it is `Heap.Nested`, that is,
each parent is older than its child. The chain of a scope is then found
by induction on the age, and a chain cannot have more scopes than there
are up to the one it starts from.

* `Heap.Encloses`, `Heap.Chain`: parents, and the scopes from a scope
  outwards.
* `Heap.Resolves`: the walk, with its answer. `Heap.resolves_none_iff`
  says that it finds nothing only at the end of a chain.
* `Heap.Nested.wellFounded`, `Heap.Nested.exists_chain`: parents form no
  cycle, and every scope has a chain.
* `Heap.Nested.lookup_eq_findSome?`: a name means what the nearest scope
  of the chain binds it to.
* `Heap.Nested.resolves_iff`: the walk ends with this answer, and with no
  other one.
* `Heap.Meets`: where a chain comes to a scope before the name is found.
* `Heap.Nested.lookup_bind_of_meets`, `lookup_bind_of_not_meets`,
  `lookup_bind_ne_iff`: what binding a name does to lookups.
-/

set_option autoImplicit false

namespace QuoteScript

namespace Heap

variable {heap heap' : Heap} {s p f : ScopeId} {frame : Frame} {name : String} {v : Value}
  {chain : List ScopeId}

/-! ### What a scope itself binds -/

/-- What a scope itself binds a name to. -/
def find? (heap : Heap) (s : ScopeId) (name : String) : Option Value :=
  (heap.frame? s).bind (·.find? name)

/-- What a scope binds is what its frame does. -/
theorem find?_of_frame? (hframe : heap.frame? s = some frame) (name : String) :
    heap.find? s name = frame.find? name := by
  rw [find?, hframe, Option.bind_some]

/-- Binding a name changes what one scope binds one name to. -/
theorem find?_bind (hf : f.number < heap.frames.size) (name : String) (v : Value) (s : ScopeId)
    (bound : String) :
    (heap.bind f name v).find? s bound =
      if s = f ∧ name = bound then some v else heap.find? s bound := by
  obtain ⟨frame, hframe⟩ := exists_frame?_of_number_lt hf
  by_cases hs : s = f
  · subst hs
    rw [find?_of_frame? (frame?_bind_self hframe name v), find?_of_frame? hframe, Frame.find?_bind]
    simp only [true_and]
  · rw [find?, find?, frame?_bind_of_ne hs, if_neg fun h => hs h.1]

/-! ### Chains -/

/-- The scope `p` is the one around the scope `s`. -/
def Encloses (heap : Heap) (p s : ScopeId) : Prop :=
  ∃ frame, heap.frame? s = some frame ∧ frame.parent = some p

/-- The scopes from a scope outwards: the scope itself, the one around
it, and so on, up to a scope that has no parent. -/
inductive Chain (heap : Heap) : ScopeId → List ScopeId → Prop where
  | outermost {s : ScopeId} {frame : Frame} (hframe : heap.frame? s = some frame)
      (hparent : frame.parent = none) : Chain heap s [s]
  | inside {s p : ScopeId} {frame : Frame} {rest : List ScopeId}
      (hframe : heap.frame? s = some frame) (hparent : frame.parent = some p)
      (hrest : Chain heap p rest) : Chain heap s (s :: rest)

/-- A scope has one chain only. -/
theorem Chain.unique {chain' : List ScopeId} (h : heap.Chain s chain) (h' : heap.Chain s chain') :
    chain = chain' := by
  induction h generalizing chain' with
  | outermost hframe hparent =>
      cases h' with
      | outermost => rfl
      | inside hframe' hparent' _ =>
          cases hframe.symm.trans hframe'
          cases hparent.symm.trans hparent'
  -- A scope has one frame, so both chains go on from it to the same parent.
  | inside hframe hparent _ ih =>
      cases h' with
      | outermost hframe' hparent' =>
          cases hframe.symm.trans hframe'
          cases hparent.symm.trans hparent'
      | inside hframe' hparent' hrest' =>
          cases hframe.symm.trans hframe'
          cases hparent.symm.trans hparent'
          rw [ih hrest']

/-- What is written in a scope moves no scope. -/
theorem Writes.exists_parent (h : heap.Writes f heap') (hframe : heap.frame? s = some frame) :
    ∃ frame', heap'.frame? s = some frame' ∧ frame'.parent = frame.parent := by
  by_cases hs : s = f
  · subst hs
    obtain ⟨frame', hframe', hparent, -⟩ := h.own frame hframe
    exact ⟨frame', hframe', hparent⟩
  · exact ⟨frame, h.others s frame hs hframe, rfl⟩

/-- Writing to a scope changes no chain, as parents are never written. -/
theorem Chain.of_writes (h : heap.Chain s chain) (hwrites : heap.Writes f heap') :
    heap'.Chain s chain := by
  induction h with
  | outermost hframe hparent =>
      obtain ⟨frame', hframe', hsame⟩ := hwrites.exists_parent hframe
      exact .outermost hframe' (hsame.trans hparent)
  | inside hframe hparent _ ih =>
      obtain ⟨frame', hframe', hsame⟩ := hwrites.exists_parent hframe
      exact .inside hframe' (hsame.trans hparent) ih

/-! ### Nested scopes -/

namespace Nested

/-- There is no way outwards without an end. -/
theorem wellFounded (hheap : heap.Nested) : WellFounded heap.Encloses := by
  have hage : Subrelation heap.Encloses (InvImage (· < ·) ScopeId.number) :=
    fun {p s} ⟨frame, hframe, hparent⟩ => hheap s frame hframe p hparent
  exact hage.wf (InvImage.wf ScopeId.number wellFounded_lt)

/-- No scope encloses itself, through however many others. -/
theorem not_transGen_self (hheap : heap.Nested) (s : ScopeId) :
    ¬Relation.TransGen heap.Encloses s s :=
  fun h => hheap.wellFounded.transGen.irrefl.irrefl s h

/-- The scope around a scope is there. -/
theorem parent_lt (hheap : heap.Nested) (h : heap.Encloses p s) : p.number < heap.frames.size := by
  obtain ⟨frame, hframe, hparent⟩ := h
  exact Nat.lt_trans (hheap s frame hframe p hparent) (number_lt_of_frame? hframe)

/-- Each scope of the heap has a chain, since its parent is an older
one. -/
theorem exists_chain (hheap : heap.Nested) (hs : s.number < heap.frames.size) :
    ∃ chain, heap.Chain s chain := by
  induction s using hheap.wellFounded.induction with
  | h s ih =>
      obtain ⟨frame, hframe⟩ := exists_frame?_of_number_lt hs
      cases hparent : frame.parent with
      | none => exact ⟨[s], .outermost hframe hparent⟩
      | some p =>
          -- The parent is there, so it has a chain.
          have hencloses : heap.Encloses p s := ⟨frame, hframe, hparent⟩
          obtain ⟨rest, hrest⟩ := ih p hencloses (hheap.parent_lt hencloses)
          exact ⟨s :: rest, .inside hframe hparent hrest⟩

/-- A new scope has a parent that is there, or none. -/
theorem newScope (hheap : heap.Nested) {parent : Option ScopeId}
    (hparent : ∀ p ∈ parent, p.number < heap.frames.size) : (heap.newScope parent).2.Nested := by
  intro s frame hframe p hp
  rcases frame?_newScope_cases hframe with ⟨rfl, rfl⟩ | hold
  · exact hparent p hp
  · exact hheap s frame hold p hp

/-- Binding a name changes no parent. -/
theorem bind (hheap : heap.Nested) (hf : f.number < heap.frames.size) (name : String) (v : Value) :
    (heap.bind f name v).Nested := by
  obtain ⟨own, hown⟩ := exists_frame?_of_number_lt hf
  intro s frame hframe p hp
  rcases frame?_bind_cases hown hframe with ⟨rfl, rfl⟩ | ⟨-, hold⟩
  · exact hheap s own hown p hp
  · exact hheap s frame hold p hp

end Nested

/-! ### Looking up -/

/-- A name is looked up from a scope, and this ends with an answer. The
scope is asked first; if it does not bind the name, the one around it is
asked, and if there is none, the name is not bound. No steps are
counted. -/
inductive Resolves (heap : Heap) (name : String) : ScopeId → Option Value → Prop where
  | bound {s : ScopeId} {frame : Frame} {v : Value} (hframe : heap.frame? s = some frame)
      (hv : frame.find? name = some v) : Resolves heap name s (some v)
  | outward {s p : ScopeId} {frame : Frame} {answer : Option Value}
      (hframe : heap.frame? s = some frame) (hnone : frame.find? name = none)
      (hparent : frame.parent = some p) (h : Resolves heap name p answer) :
      Resolves heap name s answer
  | unbound {s : ScopeId} {frame : Frame} (hframe : heap.frame? s = some frame)
      (hnone : frame.find? name = none) (hparent : frame.parent = none) :
      Resolves heap name s none

/-- The walk ends at the first scope of the chain that binds the name. -/
theorem Chain.resolves (h : heap.Chain s chain) (name : String) :
    heap.Resolves name s (chain.findSome? (heap.find? · name)) := by
  induction h with
  | @outermost s frame hframe hparent =>
      rw [List.findSome?_cons, find?_of_frame? hframe]
      cases hfind : frame.find? name with
      | some v => exact .bound hframe hfind
      | none => exact .unbound hframe hfind hparent
  | @inside s p frame rest hframe hparent _ ih =>
      rw [List.findSome?_cons, find?_of_frame? hframe]
      cases hfind : frame.find? name with
      | some v => exact .bound hframe hfind
      | none => exact .outward hframe hfind hparent ih

/-- The walk ends without a value if and only if there is a chain, and no
scope of it binds the name. Without a chain it goes on for ever. -/
theorem resolves_none_iff : heap.Resolves name s none ↔
    ∃ chain, heap.Chain s chain ∧ ∀ r ∈ chain, heap.find? r name = none := by
  constructor
  · intro h
    generalize hanswer : (none : Option Value) = answer at h
    induction h with
    | bound => cases hanswer
    -- Nothing found means that the name was looked for in the whole chain.
    | @outward s p frame _ hframe hnone hparent _ ih =>
        subst hanswer
        obtain ⟨rest, hrest, hunbound⟩ := ih rfl
        have hown : heap.find? s name = none := (find?_of_frame? hframe name).trans hnone
        exact ⟨s :: rest, .inside hframe hparent hrest, List.forall_mem_cons.mpr ⟨hown, hunbound⟩⟩
    | @unbound s frame hframe hnone hparent =>
        have hown : heap.find? s name = none := (find?_of_frame? hframe name).trans hnone
        exact ⟨[s], .outermost hframe hparent, List.forall_mem_singleton.mpr hown⟩
  · rintro ⟨chain, hchain, hunbound⟩
    have hresolves := hchain.resolves name
    rwa [List.findSome?_eq_none_iff.mpr hunbound] at hresolves

namespace Nested

/-- A walk that counts its steps ends like one that does not, if it may
take as many steps as there are scopes up to the first one. -/
theorem lookupFrom_of_resolves (hheap : heap.Nested) {answer : Option Value}
    (h : heap.Resolves name s answer) {steps : Nat} (hsteps : s.number ≤ steps) :
    heap.lookupFrom name (steps + 1) s = answer := by
  induction h generalizing steps with
  | bound hframe hv =>
      rw [lookupFrom, hframe]
      simp only [hv]
  | @outward s p frame _ hframe hnone hparent _ ih =>
      -- The parent is older, so a step is left for it.
      have hage : p.number < s.number := hheap s frame hframe p hparent
      have hleft : steps ≠ 0 := Nat.ne_zero_of_lt (hage.trans_le hsteps)
      obtain ⟨more, rfl⟩ := Nat.exists_eq_add_one_of_ne_zero hleft
      rw [lookupFrom, hframe]
      simp only [hnone, hparent, Option.bind_some]
      exact ih (by omega)
  | unbound hframe hnone hparent =>
      rw [lookupFrom, hframe]
      simp only [hnone, hparent, Option.bind_none]

/-- The walk ends with what the name means. -/
theorem lookup_of_resolves (hheap : heap.Nested) {answer : Option Value}
    (h : heap.Resolves name s answer) : heap.lookup s name = answer :=
  hheap.lookupFrom_of_resolves h (Nat.le_refl _)

/-- A name means what the nearest scope of the chain binds it to. -/
theorem lookup_eq_findSome? (hheap : heap.Nested) (h : heap.Chain s chain) (name : String) :
    heap.lookup s name = chain.findSome? (heap.find? · name) :=
  hheap.lookup_of_resolves (h.resolves name)

/-- From every scope that is there, the walk ends with what the name
means, and with nothing else. -/
theorem resolves_iff (hheap : heap.Nested) (hs : s.number < heap.frames.size) (name : String)
    (answer : Option Value) : heap.Resolves name s answer ↔ answer = heap.lookup s name := by
  constructor
  · intro h
    exact (hheap.lookup_of_resolves h).symm
  · rintro rfl
    obtain ⟨chain, hchain⟩ := hheap.exists_chain hs
    rw [hheap.lookup_eq_findSome? hchain]
    exact hchain.resolves name

end Nested

/-! ### Binding a name -/

/-- The chain of `s` meets the scope `f` before any other scope that
binds the name. -/
def Meets (heap : Heap) (name : String) (s f : ScopeId) : Prop :=
  ∃ inner outer, heap.Chain s (inner ++ f :: outer) ∧ ∀ r ∈ inner, heap.find? r name = none

/-- In a chain that comes to `f` before another scope binds the name,
the name is found in `f`. -/
theorem findSome?_bind_of_met (hf : f.number < heap.frames.size) {inner : List ScopeId}
    (hinner : ∀ r ∈ inner, heap.find? r name = none) (outer : List ScopeId) (v : Value) :
    (inner ++ f :: outer).findSome? ((heap.bind f name v).find? · name) = some v := by
  induction inner with
  | nil => rw [List.nil_append, List.findSome?_cons, find?_bind hf, if_pos ⟨rfl, rfl⟩]
  | cons r rest ih =>
      obtain ⟨hr, hrest⟩ := List.forall_mem_cons.mp hinner
      rw [List.cons_append, List.findSome?_cons, find?_bind hf]
      by_cases heq : r = f
      · rw [if_pos ⟨heq, rfl⟩]
      · rw [if_neg fun h => heq h.1, hr]
        exact ih hrest

/-- In any other chain, and for any other name, nothing else is found
than before. -/
theorem findSome?_bind_of_not_met (hf : f.number < heap.frames.size) {bound : String}
    (h : bound = name → ∀ inner outer, chain = inner ++ f :: outer →
      ¬∀ r ∈ inner, heap.find? r name = none) (v : Value) :
    chain.findSome? ((heap.bind f name v).find? · bound) =
      chain.findSome? (heap.find? · bound) := by
  induction chain with
  | nil => rfl
  | cons r rest ih =>
      -- If `r` were `f`, the chain would meet it here, with nothing in front.
      have hr : ¬(r = f ∧ name = bound) := by
        rintro ⟨rfl, rfl⟩
        exact h rfl [] rest rfl (List.forall_mem_nil _)
      rw [List.findSome?_cons, List.findSome?_cons, find?_bind hf, if_neg hr]
      cases hfind : heap.find? r bound with
      | some w => rfl
      | none =>
          refine ih fun hbound inner outer hrest hinner => ?_
          subst hbound
          exact h rfl (r :: inner) outer (congrArg (r :: ·) hrest)
            (List.forall_mem_cons.mpr ⟨hfind, hinner⟩)

namespace Nested

/-- Binding a name reaches the scopes whose chain meets the scope first. -/
theorem lookup_bind_of_meets (hheap : heap.Nested) (hf : f.number < heap.frames.size)
    (h : heap.Meets name s f) (v : Value) : (heap.bind f name v).lookup s name = some v := by
  obtain ⟨inner, outer, hchain, hinner⟩ := h
  have hchain' := hchain.of_writes (heap.writes_bind f name v)
  rw [(hheap.bind hf name v).lookup_eq_findSome? hchain']
  exact findSome?_bind_of_met hf hinner outer v

/-- Binding a name changes no other lookup. -/
theorem lookup_bind_of_not_meets (hheap : heap.Nested) (hf : f.number < heap.frames.size)
    (hs : s.number < heap.frames.size) {bound : String}
    (h : bound = name → ¬heap.Meets name s f) (v : Value) :
    (heap.bind f name v).lookup s bound = heap.lookup s bound := by
  obtain ⟨chain, hchain⟩ := hheap.exists_chain hs
  have hchain' := hchain.of_writes (heap.writes_bind f name v)
  rw [(hheap.bind hf name v).lookup_eq_findSome? hchain', hheap.lookup_eq_findSome? hchain]
  refine findSome?_bind_of_not_met hf (fun hbound inner outer hsplit hinner => ?_) v
  exact h hbound ⟨inner, outer, hsplit ▸ hchain, hinner⟩

/-- Binding a name changes a lookup if and only if it is one of that
name, the chain meets the scope first, and the value is another one. -/
theorem lookup_bind_ne_iff (hheap : heap.Nested) (hf : f.number < heap.frames.size)
    (hs : s.number < heap.frames.size) (name bound : String) (v : Value) :
    (heap.bind f name v).lookup s bound ≠ heap.lookup s bound ↔
      bound = name ∧ heap.Meets name s f ∧ heap.lookup s name ≠ some v := by
  constructor
  · intro hchanged
    by_cases hmet : bound = name ∧ heap.Meets name s f
    · obtain ⟨rfl, hmeets⟩ := hmet
      -- The lookup now finds the value, so it has changed only if it found another one before.
      rw [hheap.lookup_bind_of_meets hf hmeets] at hchanged
      exact ⟨rfl, hmeets, hchanged.symm⟩
    · have hother (hbound : bound = name) : ¬heap.Meets name s f :=
        fun hmeets => hmet ⟨hbound, hmeets⟩
      exact absurd (hheap.lookup_bind_of_not_meets hf hs hother v) hchanged
  · rintro ⟨rfl, hmeets, hv⟩
    rw [hheap.lookup_bind_of_meets hf hmeets]
    exact hv.symm

end Nested

end Heap

end QuoteScript
