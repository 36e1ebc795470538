import Mathlib.Logic.Function.Basic
import QuoteScript.Proofs.Session.Inherited

/-!
# `QuoteScript.Proofs.Session.Identity`: a handle tells one value

Whether two arrays, dicts, closures or quotes are the same one is a
question of their handles, and the values themselves are not looked at.
This is right only if a handle never belongs to two values. A value is
copied wherever it is bound, put into an array or handed out again, so
there is no single place to look at. But all copies go back to the moment
in which the handle was made.

So a *ledger* is kept beside a session, in which every handle is entered
with the value that it was given to. An entry is never changed, because
the next handle has not been given to anything; and every value that is
met, at any depth, is the one in its entry.

* `Value.Recorded`: a value and everything in it is in a ledger.
* `ledgers`: evaluation enters what it makes, and hands on the rest.
* `Found`: what is found in a heap and in an answer.
* `OneValueEach`: in them, a handle belongs to one value.
* `Reachable.oneValueEach`, `oneValueEach_of_evalNode`,
  `oneValueEach_of_run`, `oneValueEach_of_evaluate`: the heaps that
  sessions reach, and what is answered there.
-/

set_option autoImplicit false

namespace QuoteScript

/-! ### Ledgers -/

/-- The handle of a value that a run has made. -/
def Value.handle? : Value → Option Handle
  | array a _ | dict a _ | closure _ a _ _ _ | quote a _ => some a
  | int _ | bool _ | null | str _ | native _ | returned _ | fault _ => none

/-- The values that handles have been given to. -/
abbrev Ledger : Type :=
  Handle → Option Value

/-- The value is what its handle has been given to, and so is everything
in it. -/
inductive Value.Recorded (ledger : Ledger) : Value → Prop where
  | plain {v : Value} (h : v.Plain) : Recorded ledger v
  | array {a : Handle} {items : List Value} (ha : ledger a = some (.array a items))
      (h : ∀ v ∈ items, Recorded ledger v) : Recorded ledger (.array a items)
  | dict {a : Handle} {entries : List (Key × Value)} (ha : ledger a = some (.dict a entries))
      (h : ∀ entry ∈ entries, Recorded ledger entry.2) : Recorded ledger (.dict a entries)
  | closure {kind : LambdaKind} {a : Handle} {params : List String} {body : Block}
      {scope : ScopeId} (ha : ledger a = some (.closure kind a params body scope)) :
      Recorded ledger (.closure kind a params body scope)
  | quote {a : Handle} {node : Node} (ha : ledger a = some (.quote a node)) :
      Recorded ledger (.quote a node)
  | returned {v : Value} (h : Recorded ledger v) : Recorded ledger (.returned v)

namespace Value.Recorded

variable {ledger ledger' : Ledger} {v u : Value} {a : Handle}

/-- A ledger with more entries. -/
theorem mono (h : v.Recorded ledger) (hle : ∀ a u, ledger a = some u → ledger' a = some u) :
    v.Recorded ledger' := by
  induction h with
  | plain h => exact .plain h
  | array ha _ ih => exact .array (hle _ _ ha) ih
  | dict ha _ ih => exact .dict (hle _ _ ha) ih
  | closure ha => exact .closure (hle _ _ ha)
  | quote ha => exact .quote (hle _ _ ha)
  | returned _ ih => exact .returned ih

/-- The items of a recorded array are recorded. -/
theorem item {items : List Value} (h : (Value.array a items).Recorded ledger) :
    ∀ v ∈ items, v.Recorded ledger := by
  cases h with
  | plain h => cases h
  | array _ h => exact h

/-- So are the entries of a recorded dict. -/
theorem entry {entries : List (Key × Value)} (h : (Value.dict a entries).Recorded ledger) :
    ∀ entry ∈ entries, entry.2.Recorded ledger := by
  cases h with
  | plain h => cases h
  | dict _ h => exact h

/-- So is what a recorded return holds. -/
theorem pending (h : (Value.returned v).Recorded ledger) : v.Recorded ledger := by
  cases h with
  | plain h => cases h
  | returned h => exact h

/-- What is in a value has been recorded with it. -/
theorem contains (h : v.Recorded ledger) (hu : v.Contains u) : u.Recorded ledger := by
  induction hu with
  | self => exact h
  | item hv _ ih => exact ih (h.item _ hv)
  | @key _ _ key _ hv => exact .plain (by cases key <;> constructor)
  | entry hv _ ih => exact ih (h.entry _ hv)

/-- The entry of a handle is the value that carries it. -/
theorem entry_eq (h : v.Recorded ledger) (ha : v.handle? = some a) : ledger a = some v := by
  cases h with
  | plain h => cases h <;> cases ha
  | array h | dict h | closure h | quote h =>
      cases ha
      exact h
  | returned => cases ha

end Value.Recorded

/-- Everything that is bound in a heap has been recorded, and only handles
that have been handed out have entries. -/
structure Ledger.Covers (ledger : Ledger) (heap : Heap) : Prop where
  bound : heap.All (Value.Recorded ledger)
  issued {a : Handle} {v : Value} (ha : ledger a = some v) : a.number < heap.nextHandle

/-- The next handle is given to a value that is made of recorded ones. -/
theorem Ledger.Covers.newHandle {ledger : Ledger} {heap : Heap} (h : ledger.Covers heap)
    {f : Handle → Value} (hf : Makes (Value.Recorded ledger) f) :
    ∃ ledger' : Ledger, (∀ a v, ledger a = some v → ledger' a = some v) ∧
      ledger'.Covers heap.newHandle.2 ∧ (f heap.newHandle.1).Recorded ledger' := by
  let ledger' : Ledger := Function.update ledger heap.newHandle.1 (some (f heap.newHandle.1))
  have hnew : ledger' heap.newHandle.1 = some (f heap.newHandle.1) := Function.update_self ..
  have hold {a : Handle} (ha : a ≠ heap.newHandle.1) : ledger' a = ledger a :=
    Function.update_of_ne ha ..
  have hle : ∀ a v, ledger a = some v → ledger' a = some v := by
    intro a v hv
    -- The next handle has no entry yet.
    have hne : a ≠ heap.newHandle.1 := by
      rintro rfl
      exact Nat.lt_irrefl _ (h.issued hv)
    rw [hold hne, hv]
  refine ⟨ledger', hle, ⟨?bound, ?issued⟩, ?made⟩
  case bound =>
    exact fun frame hframe binding hbinding => (h.bound frame hframe binding hbinding).mono hle
  case issued =>
    intro a v hv
    -- One entry is new, and its handle has just been handed out.
    by_cases ha : a = heap.newHandle.1
    · subst ha
      exact Nat.lt_succ_self _
    · rw [hold ha] at hv
      exact Nat.lt_succ_of_lt (h.issued hv)
  case made =>
    cases hf with
    | array hitems => exact .array hnew fun v hv => (hitems v hv).mono hle
    | dict hpairs =>
        exact .dict hnew fun pair hpair => (hpairs pair (mem_of_mem_dictOf hpair)).mono hle
    | closure => exact .closure hnew
    | quote => exact .quote hnew

/-- What has been recorded, in ledgers that get longer. -/
def ledgers : Inheritance where
  World := Ledger
  order :=
    { le := fun ledger ledger' => ∀ a v, ledger a = some v → ledger' a = some v
      le_refl := fun _ _ _ h => h
      le_trans := fun _ _ _ h h' a v hv => h' a v (h a v hv) }
  heaps := Ledger.Covers
  holds := Value.Recorded
  holds_mono hle h := h.mono hle
  plain := .plain
  returned := .returned
  item h := h.item
  entry h := h.entry
  pending h := h.pending
  empty := ⟨fun _ => none, Heap.all_empty, nofun⟩
  lookup hheap := hheap.bound.lookup
  bind hheap scope name _ hv := ⟨hheap.bound.bind scope name hv, hheap.issued⟩
  newScope hheap parent := ⟨hheap.bound.newScope parent, hheap.issued⟩
  -- The ledger grows with the handles: a new one is entered with its value.
  newHandle hheap _ hf := hheap.newHandle hf

/-! ### What is found -/

/-- A value is in something that a heap binds, or in an answer, at any
depth. -/
inductive Found (heap : Heap) (answer : Option Value) (u : Value) : Prop where
  | bound {frame : Frame} {binding : String × Value} (hframe : frame ∈ heap.frames)
      (hbinding : binding ∈ frame.bindings) (hu : binding.2.Contains u)
  | answered {v : Value} (hv : v ∈ answer) (hu : v.Contains u)

/-- A handle belongs to one value only. -/
def OneValueEach (heap : Heap) (answer : Option Value) : Prop :=
  ∀ a u u', Found heap answer u → Found heap answer u' →
    u.handle? = some a → u'.handle? = some a → u = u'

variable {heap heap' : Heap} {answer : Option Value}

/-- A property that is handed on to all parts of a value is one of all
that is found. -/
theorem Found.of_all {P : Value → Prop} {u : Value} (h : Found heap answer u)
    (hparts : ∀ v u, P v → v.Contains u → P u) (hbound : heap.All P)
    (hanswer : ∀ v ∈ answer, P v) : P u := by
  cases h with
  | bound hframe hbinding hu => exact hparts _ _ (hbound _ hframe _ hbinding) hu
  | answered hv hu => exact hparts _ _ (hanswer _ hv) hu

/-- With all values recorded, those of the same handle are the same. -/
theorem Ledger.Covers.oneValueEach {ledger : Ledger} (h : ledger.Covers heap)
    (hanswer : ∀ v ∈ answer, v.Recorded ledger) : OneValueEach heap answer := by
  -- Each of them is the one value in the entry of its handle.
  have hrecorded {u : Value} (hu : Found heap answer u) : u.Recorded ledger :=
    hu.of_all (fun _ _ hv hcontains => hv.contains hcontains) h.bound hanswer
  intro a u u' hu hu' ha ha'
  exact Option.some.inj (((hrecorded hu).entry_eq ha).symm.trans ((hrecorded hu').entry_eq ha'))

section Sessions

variable {evaluable : Node → Prop} (hheap : Reachable evaluable heap)

include hheap

/-- No handle has two values in a heap that a session can reach. -/
theorem Reachable.oneValueEach : OneValueEach heap none := by
  obtain ⟨ledger, hcovers⟩ := ledgers.reachable hheap
  exact hcovers.oneValueEach nofun

/-- Nor has one in the heap and the value of an evaluation. -/
theorem oneValueEach_of_evalNode {fuel : Nat} {scope : ScopeId} {node : Node} {v : Value}
    (hrun : evalNode fuel scope node heap = .ok (v, heap')) : OneValueEach heap' (some v) := by
  obtain ⟨ledger, hcovers⟩ := ledgers.reachable hheap
  obtain ⟨ledger', -, hcovers', hv⟩ :=
    EvalM.Ensures.of_run (ledgers.evalNode fuel scope node) hcovers hrun
  exact hcovers'.oneValueEach fun u hu => Option.some.inj hu ▸ hv

/-- Nor in those of a run. -/
theorem oneValueEach_of_run {fuel : Nat} {source : String} {scope macros : ScopeId}
    (hrun : (run fuel source scope macros).run heap = .ok (.ok answer, heap')) :
    OneValueEach heap' answer := by
  obtain ⟨ledger, hcovers⟩ := ledgers.reachable hheap
  obtain ⟨ledger', -, hcovers', hanswer⟩ :=
    EvalM.Ensures.of_run (ledgers.run fuel source scope macros) hcovers hrun
  exact hcovers'.oneValueEach (hanswer answer rfl)

/-- Nor in those of an evaluation without macros. -/
theorem oneValueEach_of_evaluate {fuel : Nat} {source : String} {scope : ScopeId}
    (hrun : (evaluate fuel source scope).run heap = .ok (.ok answer, heap')) :
    OneValueEach heap' answer := by
  obtain ⟨ledger, hcovers⟩ := ledgers.reachable hheap
  obtain ⟨ledger', -, hcovers', hanswer⟩ :=
    EvalM.Ensures.of_run (ledgers.evaluate fuel source scope) hcovers hrun
  exact hcovers'.oneValueEach (hanswer answer rfl)

end Sessions

end QuoteScript
