import QuoteScript.Eval.Monad
import QuoteScript.Proofs.Tree.Visit

/-!
# `QuoteScript.Proofs.Eval.Logic`: what computations ensure

`EvalM.Ensures pre x post` says three things about the computation `x`
on a heap with the property `pre`: if it ends with an answer, the
answer and the heap have the property `post`; no partial operation
meets an argument outside its domain; and if it stops, it stops for
want of fuel.

There is one rule for each way in which computations are put together;
`EvalM.bind_run` and `EvalM.bind_run_eq_ok` say how a sequence runs, and
`EvalM.foldlM_run_eq_error` says where a loop fails.
`EvalM.Keeps` is for computations that keep an invariant of the heap,
and `EvalM.KeepsOk` for those that may also fail in some other way.
`EvalM.keeps` and `EvalM.keepsOk` collect their rules as a `Guarantee`.

`exists_ok_of_map_toOption` and `exists_ok_of_bind_toOption` are for runs
on fixed inputs.
-/

set_option autoImplicit false

namespace QuoteScript

/-! ### Runs on fixed inputs -/

section Computed

variable {ε α β : Type} {x : Except ε α} {b : β}

/-- An answer of which something has been read off is there. Whether two
heaps are the same is not decidable, so a run on a fixed input is computed
by what is read off its answer. -/
theorem exists_ok_of_map_toOption {read : α → β} (h : x.toOption.map read = some b) :
    ∃ a, x = .ok a ∧ read a = b := by
  cases x with
  | error e => cases h
  | ok a => exact ⟨a, rfl, Option.some.inj h⟩

/-- The same if there may be nothing to read off, such as the answer of a
second run that starts where the first one has ended. -/
theorem exists_ok_of_bind_toOption {read : α → Option β} (h : x.toOption.bind read = some b) :
    ∃ a, x = .ok a ∧ read a = some b := by
  cases x with
  | error e => cases h
  | ok a => exact ⟨a, rfl, h⟩

end Computed

namespace EvalM

variable {α β : Type}

/-! ### Sequencing -/

section Bind

variable {x : EvalM α} {next : α → EvalM β} {heap heap' : Heap}

/-- A computation goes on from the answer of its first part. -/
theorem bind_run {a : α} (h : x heap = .ok (a, heap')) : (x >>= next) heap = next a heap' := by
  have hbind : (x >>= next) heap = (x heap >>= fun r => next r.1 r.2) := rfl
  rw [hbind, h]
  rfl

/-- A computation stops where its first part does. -/
theorem bind_run_of_error {stop : Stop} (h : x heap = .error stop) :
    (x >>= next) heap = .error stop := by
  have hbind : (x >>= next) heap = (x heap >>= fun r => next r.1 r.2) := rfl
  rw [hbind, h]
  rfl

/-- If a computation ends with an answer, so do its parts. -/
theorem bind_run_eq_ok {b : β} (h : (x >>= next) heap = .ok (b, heap')) :
    ∃ a heap₁, x heap = .ok (a, heap₁) ∧ next a heap₁ = .ok (b, heap') := by
  cases hx : x heap with
  | ok r => exact ⟨r.1, r.2, rfl, (bind_run hx).symm.trans h⟩
  | error stop => cases (bind_run_of_error hx).symm.trans h

end Bind

section Lift

variable {ε : Type} {x : EvalM α} {heap heap' : Heap}

/-- A computation that does not fail, among those that may. -/
theorem lift_run {a : α} (h : x heap = .ok (a, heap')) :
    (ExceptT.lift x : ExceptT ε EvalM α).run heap = .ok (.ok a, heap') := by
  have hbind : (x >>= fun a => Pure.pure (Except.ok a : Except ε α)) heap = .ok (.ok a, heap') :=
    bind_run h
  exact hbind

/-- A computation that stops does so when it is lifted. -/
theorem lift_run_of_error {stop : Stop} (h : x heap = .error stop) :
    (ExceptT.lift x : ExceptT ε EvalM α).run heap = .error stop := by
  have hbind : (x >>= fun a => Pure.pure (Except.ok a : Except ε α)) heap = .error stop :=
    bind_run_of_error h
  exact hbind

/-- A computation that may fail goes on from the answer of its first
part. -/
theorem bind_run_of_ok {x : ExceptT ε EvalM α} {next : α → ExceptT ε EvalM β} {a : α}
    (h : x.run heap = .ok (.ok a, heap')) : (x >>= next).run heap = (next a).run heap' :=
  bind_run h

/-- A lifted computation does not fail. -/
theorem lift_run_eq_ok {r : Except ε α}
    (h : (ExceptT.lift x : ExceptT ε EvalM α).run heap = .ok (r, heap')) :
    ∃ a, r = .ok a ∧ x heap = .ok (a, heap') := by
  have hbind : (x >>= fun a => Pure.pure (Except.ok a : Except ε α)) heap = .ok (r, heap') := h
  obtain ⟨a, heap₁, hx, hr⟩ := bind_run_eq_ok hbind
  cases hr
  exact ⟨a, rfl, hx⟩

end Lift

section Fails

variable {ε : Type} {e : ε} {heap after : Heap}

/-- What fails in its first part fails. -/
theorem bind_run_of_fails {x : ExceptT ε EvalM α} (h : x.run heap = .ok (.error e, after))
    (next : α → ExceptT ε EvalM β) : (x >>= next).run heap = .ok (.error e, after) :=
  bind_run h

/-- Making something of the answer does not fail. -/
theorem bind_pure_run_eq_error {x : ExceptT ε EvalM α} {make : α → β} :
    (x >>= fun a => pure (make a)).run heap = .ok (.error e, after) ↔
      x.run heap = .ok (.error e, after) := by
  constructor
  · intro h
    rw [ExceptT.run_bind] at h
    obtain ⟨r, heap₁, hx, hr⟩ := bind_run_eq_ok h
    cases r with
    | ok a => cases hr
    | error e' =>
        cases hr
        exact hx
  · exact fun h => bind_run_of_fails h _

/-- A loop fails if and only if all turns up to some turn have ended and
this turn fails. What comes behind it makes no difference. -/
theorem foldlM_run_eq_error {f : β → α → ExceptT ε EvalM β} {as : List α} {b : β} :
    (as.foldlM f b).run heap = .ok (.error e, after) ↔
      ∃ before a rest b' heap₁, as = before ++ a :: rest ∧
        (before.foldlM f b).run heap = .ok (.ok b', heap₁) ∧
        (f b' a).run heap₁ = .ok (.error e, after) := by
  induction as generalizing b heap with
  | nil =>
      constructor
      · intro h
        cases h
      · rintro ⟨before, a, rest, b', heap₁, heq, -⟩
        simp at heq
  | cons a rest ih =>
      rw [List.foldlM_cons, ExceptT.run_bind]
      constructor
      · intro h
        obtain ⟨r, heap₁, hturn, hrest⟩ := bind_run_eq_ok h
        cases r with
        | error e' =>
            cases hrest
            -- The first turn fails, and nothing comes in front of it.
            exact ⟨[], a, rest, b, heap, rfl, rfl, hturn⟩
        | ok b₁ =>
            obtain ⟨before, a', rest', b', heap₂, rfl, hbefore, hfails⟩ := ih.mp hrest
            refine ⟨a :: before, a', rest', b', heap₂, rfl, ?_, hfails⟩
            rw [List.foldlM_cons]
            exact (bind_run_of_ok hturn).trans hbefore
      · rintro ⟨before, a', rest', b', heap₂, heq, hbefore, hfails⟩
        cases before with
        | nil =>
            cases heq
            cases hbefore
            exact bind_run_of_fails hfails _
        | cons first before =>
            cases heq
            rw [List.foldlM_cons, ExceptT.run_bind] at hbefore
            obtain ⟨r, heap₁, hturn, hrest⟩ := bind_run_eq_ok hbefore
            cases r with
            | error e' => cases hrest
            | ok b₁ =>
                -- The first turn does not fail, so the one that does is among the others.
                have hfails' := ih.mpr ⟨before, a', rest', b', heap₂, rfl, hrest, hfails⟩
                exact (bind_run hturn).trans hfails'

end Fails

/-! ### What is ensured -/

/-- What holds of the answer and the heap in which `x` ends, if it
starts in a heap with the property `pre`. No defect shows. -/
def Ensures (pre : Heap → Prop) (x : EvalM α) (post : α → Heap → Prop) : Prop :=
  ∀ heap, pre heap →
    match x heap with
    | .ok (a, heap') => post a heap'
    | .error stop => stop = .outOfFuel

namespace Ensures

variable {pre : Heap → Prop} {post : α → Heap → Prop}

/-- What holds of an answer that is given. -/
theorem of_run {x : EvalM α} (h : Ensures pre x post) {heap heap' : Heap} {a : α}
    (hpre : pre heap) (hrun : x heap = .ok (a, heap')) : post a heap' := by
  have hpost := h heap hpre
  rw [hrun] at hpost
  exact hpost

/-- What is ensured may be weakened. -/
theorem mono {x : EvalM α} {post' : α → Heap → Prop} (h : Ensures pre x post)
    (hpost : ∀ a heap, post a heap → post' a heap) : Ensures pre x post' := by
  intro heap hpre
  have hrun := h heap hpre
  cases hx : x heap with
  | ok r =>
      rw [hx] at hrun
      exact hpost r.1 r.2 hrun
  | error stop =>
      rw [hx] at hrun
      exact hrun

/-- An answer without a computation. -/
theorem pure {a : α} (h : ∀ heap, pre heap → post a heap) : Ensures pre (Pure.pure a) post :=
  fun heap hpre => h heap hpre

/-- Two computations in a row: the second one starts from what the
first one ensures. -/
theorem bind {x : EvalM α} {next : α → EvalM β} {post' : β → Heap → Prop}
    (hx : Ensures pre x post) (hnext : ∀ a, Ensures (post a) (next a) post') :
    Ensures pre (x >>= next) post' := by
  intro heap hpre
  have hrun := hx heap hpre
  have hbind : (x >>= next) heap = (x heap >>= fun r => next r.1 r.2) := rfl
  rw [hbind]
  cases hx : x heap with
  | ok r =>
      rw [hx] at hrun
      exact hnext r.1 r.2 hrun
  -- A computation that stops has nothing behind it to go on with.
  | error stop =>
      rw [hx] at hrun
      exact hrun

/-- Running out of fuel ensures anything. -/
theorem outOfFuel : Ensures pre (outOfFuel : EvalM α) post :=
  fun _ _ => rfl

end Ensures

/-! ### Invariants of the heap -/

/-- `x` keeps the invariant of the heap, and its answer has the
property `P`. -/
def Keeps (inv : Heap → Prop) (x : EvalM α) (P : α → Prop) : Prop :=
  Ensures inv x fun a heap => inv heap ∧ P a

namespace Keeps

variable {inv : Heap → Prop} {P : α → Prop} {Q : β → Prop}

/-- What is said of the answer may be weakened. -/
theorem mono {x : EvalM α} {P' : α → Prop} (h : Keeps inv x P) (hP : ∀ a, P a → P' a) :
    Keeps inv x P' :=
  Ensures.mono h fun a _ ⟨hinv, ha⟩ => ⟨hinv, hP a ha⟩

/-- An answer leaves the heap as it is. -/
theorem pure {a : α} (h : P a) : Keeps inv (Pure.pure a) P :=
  Ensures.pure fun _ hinv => ⟨hinv, h⟩

/-- Two computations in sequence keep what both of them keep. -/
theorem bind {x : EvalM α} {next : α → EvalM β} (hx : Keeps inv x P)
    (hnext : ∀ a, P a → Keeps inv (next a) Q) : Keeps inv (x >>= next) Q :=
  Ensures.bind hx fun a heap ⟨hinv, ha⟩ => hnext a ha heap hinv

end Keeps

/-- The same for a computation that may fail in some other way: it keeps
the invariant even then, and what it answers when it does not fail has
the property `P`. -/
def KeepsOk {ε : Type} (inv : Heap → Prop) (x : ExceptT ε EvalM α) (P : α → Prop) : Prop :=
  Keeps inv x.run fun r => ∀ a, r = .ok a → P a

namespace KeepsOk

variable {ε : Type} {inv : Heap → Prop} {P : α → Prop} {Q : β → Prop}

/-- An answer that has the property. -/
theorem pure {a : α} (h : P a) : KeepsOk inv (Pure.pure a : ExceptT ε EvalM α) P :=
  Keeps.pure fun _ ha => by cases ha; exact h

/-- Two computations in sequence, of which the second is left out if the
first one fails. -/
theorem bind {x : ExceptT ε EvalM α} {next : α → ExceptT ε EvalM β} (hx : KeepsOk inv x P)
    (hnext : ∀ a, P a → KeepsOk inv (next a) Q) : KeepsOk inv (x >>= next) Q := by
  refine Keeps.bind hx fun r hr => ?_
  cases r with
  | ok a => exact hnext a (hr a rfl)
  | error e => exact Keeps.pure nofun

/-- A computation that does not fail in the other way. -/
theorem lift {x : EvalM α} (h : Keeps inv x P) :
    KeepsOk inv (ExceptT.lift x : ExceptT ε EvalM α) P := by
  intro heap hinv
  have hrun := h heap hinv
  have hlift : (ExceptT.lift x : ExceptT ε EvalM α).run heap
      = (x heap >>= fun r => Pure.pure (.ok r.1, r.2)) := rfl
  rw [hlift]
  -- A lifted computation never fails by itself, so an answer is one of `x`.
  cases hx : x heap with
  | ok r =>
      rw [hx] at hrun
      refine ⟨hrun.1, fun a ha => ?_⟩
      cases ha
      exact hrun.2
  | error stop =>
      rw [hx] at hrun
      exact hrun

/-- Failing changes nothing, and answers nothing. -/
theorem throw {e : ε} : KeepsOk inv (throw e : ExceptT ε EvalM α) P := by
  show Keeps inv (Pure.pure (Except.error e)) fun r => ∀ a, r = Except.ok a → P a
  exact Keeps.pure nofun

end KeepsOk

/-! ### Guarantees -/

/-- What is answered by computations that keep an invariant. -/
def keeps (inv : Heap → Prop) : Guarantee EvalM where
  gives := Keeps inv
  pure := Keeps.pure
  bind := Keeps.bind

/-- What is answered by computations that keep an invariant and may fail
in some other way. -/
def keepsOk (ε : Type) (inv : Heap → Prop) : Guarantee (ExceptT ε EvalM) where
  gives := KeepsOk inv
  pure := KeepsOk.pure
  bind := KeepsOk.bind

end EvalM

end QuoteScript
