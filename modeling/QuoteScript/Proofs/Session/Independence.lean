import QuoteScript.Proofs.Session.Steps

/-!
# `QuoteScript.Proofs.Session.Independence`: sessions next to each other

Any number of sessions may share a heap. They take their steps in any
order, and every step makes scopes and handles, so that a session finds
other numbers given out than it would alone. It cannot tell. If no scope
is seen by two of the sessions, then each of them answers what it would
answer alone, and its scopes look the same.

A run of a session among others is compared with its run alone. At
first the scopes that it sees are paired with themselves. Its own steps
keep the two heaps corresponding, since evaluation and expansion do.
The steps of the others write scopes that are not paired at all.

* `Heap.Sees`: the scopes that can be reached from those of a session.
* `Heap.view_corresponds`: a heap corresponds to itself in what a
  session sees of it.
* `Mirrors`: the invariant. `Mirrors.perform` is for the steps of the
  session itself, and `Mirrors.spare` for those of the others.
* `Interleaves.performs` and `interleaves_of_performs`: from all runs
  to each one alone, and back.
* `sessions_are_independent`: both directions, and the answers.
-/

set_option autoImplicit false

namespace QuoteScript

open EvalM

/-! ### What a session sees -/

namespace Heap

/-- The scopes that a session can get to: its own ones, the scopes
around these, and those that the closures in them were written in. -/
inductive Sees (heap : Heap) (env : Environments) : ScopeId → Prop where
  | named {s : ScopeId} (hs : env.Names s) : Sees heap env s
  | parent {s p : ScopeId} {frame : Frame} (hframe : heap.frame? s = some frame)
      (hparent : frame.parent = some p) : Sees heap env s → Sees heap env p
  | captured {s r : ScopeId} {frame : Frame} {name : String} {v : Value}
      (hframe : heap.frame? s = some frame) (hv : (name, v) ∈ frame.bindings)
      (hr : v.Captures r) : Sees heap env s → Sees heap env r

/-- Pairs every scope that a session sees with itself, and every
handle. -/
def view (heap : Heap) (env : Environments) : Pairing where
  scope s s' := s = s' ∧ heap.Sees env s
  handle a a' := a = a' ∧ a.number < heap.nextHandle

variable {heap : Heap} {env : Environments} {s : ScopeId} {frame : Frame}

/-- What a session sees is there. -/
theorem Sees.number_lt (h : heap.Coherent) (henv : ∀ s, env.Names s → s.number < heap.frames.size)
    (hs : heap.Sees env s) : s.number < heap.frames.size := by
  induction hs with
  | named hs => exact henv _ hs
  | parent hframe hparent => exact h.parent_lt hframe hparent
  | captured hframe hv hr => exact h.captured_lt hframe hv hr

/-- A heap corresponds to itself in what a session sees of it. -/
theorem view_corresponds (h : heap.Coherent)
    (henv : ∀ s, env.Names s → s.number < heap.frames.size) :
    Heap.Corresponds (heap.view env) heap heap where
  injective := by
    refine ⟨?_, ?_⟩
    · rintro s s' r r' ⟨rfl, -⟩ ⟨rfl, -⟩
      exact Iff.rfl
    · rintro a a' b b' ⟨rfl, -⟩ ⟨rfl, -⟩
      exact Iff.rfl
  handles := by
    rintro a a' ⟨rfl, ha⟩
    exact ⟨ha, ha⟩
  frames := by
    rintro s s' ⟨rfl, hs⟩
    have hlt := hs.number_lt h henv
    have hframe : heap.frame? s = some heap.frames[s.number] := Array.getElem?_eq_getElem hlt
    refine ⟨_, _, hframe, hframe, ?bindings, ?parent⟩
    case bindings =>
      -- What the closures in a seen scope capture is seen.
      refine forall₂_keyed_of_leOn (h.frame_self hframe).bindings fun name v hv => ⟨?_, id⟩
      intro r r' hr hpaired
      exact ⟨hpaired.1, hs.captured hframe hv hr⟩
    case parent =>
      have hparent := (h.frame_self hframe).parent
      cases hp : heap.frames[s.number].parent with
      | none => exact .none
      | some p =>
          have hold := h.nested _ _ hframe p hp
          exact .some ⟨⟨rfl, hs.parent hframe hp⟩, hold, hold⟩

end Heap

/-! ### One session among others -/

/-- A session has run alone from some heap to `alone`, and among others
from there to `heap`. The two correspond, and what they pair includes
what was paired at the start, but none of the scopes of others. -/
structure Mirrors (start ρ : Pairing) (others : ScopeId → Prop) (alone heap : Heap) : Prop where
  corresponds : Heap.Corresponds ρ alone heap
  le : start ≤ ρ
  apart {s s' : ScopeId} : ρ.scope s s' → ¬ others s'

namespace Mirrors

variable {start ρ : Pairing} {others : ScopeId → Prop} {alone alone' heap heap' : Heap}
  {env : Environments} {fuel : Nat} {step : Step} {shown : Shown}

/-- What is made on both sides is none of the scopes of others, since
these are old. -/
theorem grows {ρ' : Pairing} (h : Mirrors start ρ others alone heap)
    (hothers : ∀ s, others s → s.number < heap.frames.size)
    (hgrows : ρ.Grows ρ' alone heap alone' heap') (hheaps : Heap.Corresponds ρ' alone' heap') :
    Mirrors start ρ' others alone' heap' where
  corresponds := hheaps
  le := h.le.trans hgrows.le
  apart := by
    rintro ⟨i⟩ ⟨j⟩ hpaired hother
    rcases (hgrows.scopes.iff i j).mp hpaired with hold | hnew
    · exact h.apart hold hother
    · have hlt : j < heap.frames.size := hothers _ hother
      omega

/-- A step in the heap of all sessions and the same step in the heap of
one of them. -/
theorem simulates (h : Mirrors start ρ others alone heap)
    (henv : ∀ s, env.Names s → start.scope s s) (fuel : Nat) (step : Step) :
    Simulates ρ (step.perform fuel env) (step.perform fuel env) fun _ => Eq :=
  step.perform_simulates fuel (h.le.1 _ _ (henv env.values (.inl rfl)))
    (h.le.1 _ _ (henv env.macros (.inr rfl)))

/-- What the session does alone, it does among others. -/
theorem perform (h : Mirrors start ρ others alone heap)
    (henv : ∀ s, env.Names s → start.scope s s)
    (hothers : ∀ s, others s → s.number < heap.frames.size)
    (hrun : step.perform fuel env alone = .ok (shown, alone')) :
    ∃ heap' ρ', step.perform fuel env heap = .ok (shown, heap') ∧
      Mirrors start ρ' others alone' heap' := by
  obtain ⟨_, heap', ρ', hrun', hgrows, hheaps, rfl⟩ :=
    (h.simulates henv fuel step).of_run h.corresponds hrun
  exact ⟨heap', ρ', hrun', h.grows hothers hgrows hheaps⟩

/-- What the session does among others, it does alone. -/
theorem perform_alone (h : Mirrors start ρ others alone heap)
    (henv : ∀ s, env.Names s → start.scope s s)
    (hothers : ∀ s, others s → s.number < heap.frames.size)
    (hrun : step.perform fuel env heap = .ok (shown, heap')) :
    ∃ alone' ρ', step.perform fuel env alone = .ok (shown, alone') ∧
      Mirrors start ρ' others alone' heap' := by
  obtain ⟨_, alone', ρ', hrun', hgrows, hheaps, rfl⟩ :=
    (h.simulates henv fuel step).of_run' h.corresponds hrun
  exact ⟨alone', ρ', hrun', h.grows hothers hgrows hheaps⟩

/-- What another session does makes no difference. -/
theorem spare (h : Mirrors start ρ others alone heap) (henv : ∀ s, env.Names s → others s)
    (hspares : heap.Spares env heap') (hhandles : heap.nextHandle ≤ heap'.nextHandle) :
    Mirrors start ρ others alone heap' where
  corresponds :=
    { injective := h.corresponds.injective
      handles := fun ha =>
        ⟨(h.corresponds.handles ha).1, (h.corresponds.handles ha).2.trans_le hhandles⟩
      frames := by
        intro s s' hs
        obtain ⟨frame, frame', hframe, hframe', hcorresponds⟩ := h.corresponds.frames hs
        -- What is mirrored belongs to no other session, and these write to their own scopes only.
        have hspared := hspares s' frame' (fun hnames => h.apart hs (henv s' hnames)) hframe'
        exact ⟨frame, frame', hframe, hspared, hcorresponds⟩ }
  le := h.le
  apart := h.apart

end Mirrors

/-! ### Many sessions -/

variable {ι : Type}

/-- Sessions take steps, in the order of a schedule. Each step ends,
with some amount of fuel. -/
inductive Interleaves (env : ι → Environments) :
    List (ι × Step) → Heap → List (ι × Shown) → Heap → Prop where
  | nil {heap : Heap} : Interleaves env [] heap [] heap
  | cons {i : ι} {step : Step} {rest : List (ι × Step)} {shown : Shown}
      {answers : List (ι × Shown)} {heap heap₁ heap₂ : Heap}
      (hstep : Ends (step.perform · (env i)) heap shown heap₁)
      (hrest : Interleaves env rest heap₁ answers heap₂) :
      Interleaves env ((i, step) :: rest) heap ((i, shown) :: answers) heap₂

/-- The scopes of the sessions other than `i`. -/
def Others (env : ι → Environments) (i : ι) (s : ScopeId) : Prop :=
  ∃ j, j ≠ i ∧ (env j).Names s

/-- A heap that corresponds to itself, with the scopes of all sessions
in it. -/
structure Heap.Hosts (heap : Heap) (env : ι → Environments) : Prop where
  coherent : heap.Coherent
  scopes (i : ι) {s : ScopeId} : (env i).Names s → s.number < heap.frames.size

section Sessions

variable {env : ι → Environments} {start : ι → Pairing} {heap heap' : Heap}

/-- The scopes of the other sessions are scopes of the heap. -/
theorem Heap.Hosts.others_lt (h : heap.Hosts env) {i : ι} {s : ScopeId} (hs : Others env i s) :
    s.number < heap.frames.size := by
  obtain ⟨j, -, hs⟩ := hs
  exact h.scopes j hs

/-- No step takes anything out of a heap. -/
theorem Heap.Hosts.perform (h : heap.Hosts env) {fuel : Nat} {step : Step} {i : ι} {shown : Shown}
    (hrun : step.perform fuel (env i) heap = .ok (shown, heap')) :
    heap'.Hosts env ∧ heap.nextHandle ≤ heap'.nextHandle := by
  have hvalues := Heap.diagonal_scope (h.scopes i (.inl rfl))
  have hmacros := Heap.diagonal_scope (h.scopes i (.inr rfl))
  have hself := Step.perform_simulates fuel step hvalues hmacros
  have hcoherent := h.coherent.of_run hself hrun
  obtain ⟨_, _, _, hrun', hgrows, -, -⟩ := hself.of_run h.coherent hrun
  cases hrun.symm.trans hrun'
  exact ⟨⟨hcoherent, fun j s hs => (h.scopes j hs).trans_le hgrows.scopes.le⟩, hgrows.handles.le⟩

/-- One step of the session `i`, for the session `j`. -/
theorem Mirrors.spare_step {i j : ι} (hne : j ≠ i) {ρ : Pairing} {alone : Heap}
    (h : Mirrors (start j) ρ (Others env j) alone heap) (hhosts : heap.Hosts env) {fuel : Nat}
    {step : Step} {shown : Shown}
    (hrun : step.perform fuel (env i) heap = .ok (shown, heap')) :
    Mirrors (start j) ρ (Others env j) alone heap' :=
  h.spare (fun _ hs => ⟨i, hne.symm, hs⟩) (Step.perform_others hrun) (hhosts.perform hrun).2

variable [DecidableEq ι]

/-- What belongs to one session, in a list of what belongs to several
ones. -/
def partOf {α : Type} (i : ι) (entries : List (ι × α)) : List α :=
  entries.filterMap fun entry => if entry.1 = i then some entry.2 else none

/-- A step of the session itself belongs to its part. -/
theorem partOf_cons_self {α : Type} (i : ι) (a : α) (rest : List (ι × α)) :
    partOf i ((i, a) :: rest) = a :: partOf i rest := by
  simp [partOf]

/-- A step of another session does not. -/
theorem partOf_cons_of_ne {α : Type} {i j : ι} (h : j ≠ i) (a : α) (rest : List (ι × α)) :
    partOf i ((j, a) :: rest) = partOf i rest := by
  simp [partOf, h]

variable (hstart : ∀ i s, (env i).Names s → (start i).scope s s)
include hstart

/-- What is left of a run if the steps of the other sessions are left
out is a run of one session alone. -/
theorem Interleaves.performs {schedule : List (ι × Step)} {answers : List (ι × Shown)}
    (h : Interleaves env schedule heap answers heap') (hhosts : heap.Hosts env) (i : ι)
    {ρ : Pairing} {alone : Heap} (hmirrors : Mirrors (start i) ρ (Others env i) alone heap) :
    ∃ alone' ρ', Performs (env i) (partOf i schedule) alone (partOf i answers) alone' ∧
      Mirrors (start i) ρ' (Others env i) alone' heap' := by
  induction h generalizing ρ alone with
  | nil => exact ⟨alone, ρ, .nil, hmirrors⟩
  | @cons j step rest shown answers heap heap₁ heap₂ hstep _ ih =>
      obtain ⟨fuel, hrun⟩ := hstep
      have hhosts₁ := (hhosts.perform hrun).1
      by_cases hj : j = i
      -- The session's own steps are taken in both heaps, those of the others in one of them only.
      · subst hj
        obtain ⟨alone₁, ρ₁, hrun₁, hmirrors₁⟩ :=
          hmirrors.perform_alone (hstart j) (fun _ => hhosts.others_lt) hrun
        obtain ⟨alone₂, ρ₂, hperforms, hmirrors₂⟩ := ih hhosts₁ hmirrors₁
        rw [partOf_cons_self, partOf_cons_self]
        exact ⟨alone₂, ρ₂, .cons ⟨fuel, hrun₁⟩ hperforms, hmirrors₂⟩
      · rw [partOf_cons_of_ne hj, partOf_cons_of_ne hj]
        exact ih hhosts₁ (hmirrors.spare_step (Ne.symm hj) hhosts hrun)

/-- If all sessions end alone, they end in any order. -/
theorem interleaves_of_performs {schedule : List (ι × Step)} (hhosts : heap.Hosts env)
    {alone : ι → Heap} (hmirrors : ∀ i, ∃ ρ, Mirrors (start i) ρ (Others env i) (alone i) heap)
    (hperforms : ∀ i, ∃ answers after,
      Performs (env i) (partOf i schedule) (alone i) answers after) :
    ∃ answers after, Interleaves env schedule heap answers after := by
  induction schedule generalizing heap alone with
  | nil => exact ⟨[], heap, .nil⟩
  | cons entry rest ih =>
      obtain ⟨i, step⟩ := entry
      obtain ⟨answers, after, hown⟩ := hperforms i
      rw [partOf_cons_self] at hown
      cases hown with
      | @cons _ _ shown _ _ alone₁ _ hstep hrest =>
          obtain ⟨fuel, halone⟩ := hstep
          obtain ⟨ρ, hmirror⟩ := hmirrors i
          obtain ⟨heap₁, ρ₁, hrun, hmirror₁⟩ :=
            hmirror.perform (hstart i) (fun _ => hhosts.others_lt) halone
          -- Only the session `i` has gone on.
          have hmirrors₁ : ∀ j, ∃ ρ, Mirrors (start j) ρ (Others env j)
              (Function.update alone i alone₁ j) heap₁ := by
            rw [Function.forall_update_iff alone fun j after =>
              ∃ ρ, Mirrors (start j) ρ (Others env j) after heap₁]
            refine ⟨⟨ρ₁, hmirror₁⟩, fun j hj => ?_⟩
            obtain ⟨ρ, hmirror⟩ := hmirrors j
            exact ⟨ρ, hmirror.spare_step hj hhosts hrun⟩
          have hperforms₁ : ∀ j, ∃ answers after, Performs (env j) (partOf j rest)
              (Function.update alone i alone₁ j) answers after := by
            rw [Function.forall_update_iff alone fun j before =>
              ∃ answers after, Performs (env j) (partOf j rest) before answers after]
            refine ⟨⟨_, _, hrest⟩, fun j hj => ?_⟩
            have hother := hperforms j
            rw [partOf_cons_of_ne (Ne.symm hj)] at hother
            exact hother
          obtain ⟨answers, after, hinterleaves⟩ :=
            ih (hhosts.perform hrun).1 hmirrors₁ hperforms₁
          exact ⟨_, after, .cons ⟨fuel, hrun⟩ hinterleaves⟩

end Sessions

variable [DecidableEq ι]

/-- Sessions that see no scope in common do not influence each other.
In the heap of a session there are the scopes of any number of sessions,
and no scope is seen by two of them. They take their steps in any order.
Then all steps end if and only if those of each session end when they
are taken alone. If they do, each session is shown the same answers as
alone, and every scope that it has seen at the start looks the same.
There is only one way in which it ends alone (`Performs.unique`). -/
theorem sessions_are_independent (env : ι → Environments) {heap : Heap}
    (hheap : SessionHeap heap)
    (hscopes : ∀ i s, (env i).Names s → s.number < heap.frames.size)
    (hapart : ∀ i j s, heap.Sees (env i) s → heap.Sees (env j) s → i = j)
    (schedule : List (ι × Step)) :
    ((∃ answers after, Interleaves env schedule heap answers after) ↔
      ∀ i, ∃ answers after, Performs (env i) (partOf i schedule) heap answers after) ∧
    ∀ answers after, Interleaves env schedule heap answers after →
      ∀ i answers' after', Performs (env i) (partOf i schedule) heap answers' after' →
        partOf i answers = answers' ∧
          ∀ s, heap.Sees (env i) s → after.shown s = after'.shown s := by
  have hhosts : heap.Hosts env := ⟨hheap.coherent, fun i s => hscopes i s⟩
  have hstart (i : ι) (s : ScopeId) (hs : (env i).Names s) : (heap.view (env i)).scope s s :=
    ⟨rfl, .named hs⟩
  have hmirrors (i : ι) :
      Mirrors (heap.view (env i)) (heap.view (env i)) (Others env i) heap heap := by
    refine ⟨Heap.view_corresponds hheap.coherent (hscopes i), le_refl _, ?apart⟩
    rintro s s' ⟨rfl, hs⟩ ⟨j, hne, hother⟩
    exact hne (hapart j i s (.named hother) hs)
  refine ⟨⟨?alone, ?among⟩, ?answers⟩
  case alone =>
    rintro ⟨answers, after, hinterleaves⟩ i
    obtain ⟨after', _, hperforms, -⟩ := hinterleaves.performs hstart hhosts i (hmirrors i)
    exact ⟨_, after', hperforms⟩
  case among =>
    intro hperforms
    exact interleaves_of_performs hstart hhosts (fun i => ⟨_, hmirrors i⟩) hperforms
  case answers =>
    intro answers after hinterleaves i answers' after' hperforms
    obtain ⟨_, ρ, hperforms', hmirror⟩ := hinterleaves.performs hstart hhosts i (hmirrors i)
    -- There is only one way in which the session ends alone.
    obtain ⟨rfl, rfl⟩ := hperforms.unique hperforms'
    refine ⟨rfl, fun s hs => ?_⟩
    exact (hmirror.corresponds.shown (hmirror.le.1 _ _ ⟨rfl, hs⟩)).symm

/-- Two sessions in turn. Both of them bind `a`, and one of them tells
its array from an equal one. -/
theorem sessions_are_independent_two :
    let heap : Heap :=
      ((((({} : Heap).newScope none).2.newScope none).2.newScope none).2.newScope none).2
    let env (first : Bool) : Environments := if first then ⟨⟨0⟩, ⟨1⟩⟩ else ⟨⟨2⟩, ⟨3⟩⟩
    let schedule : List (Bool × Step) :=
      [(true, .run "let a = [1]; a"),
        (false, .expand "let m = macro(x) \x7b quote(unquote(x) + 1) \x7d; m(2)"),
        (true, .run "[a == a, a == [1]]"),
        (false, .run "let a = fn() \x7b m(2) \x7d; a()")]
    ∃ answers after, Interleaves env schedule heap answers after ∧
      partOf true answers = [.value .array "[1]", .value .array "[true, false]"] ∧
      partOf false answers = [.program "(2 + 1);", .value .integer "3"] := by
  intro heap env schedule
  have hheap : SessionHeap heap := .newScope nofun (.newScope nofun (.newScope nofun
    (.newScope nofun .empty)))
  have hscopes : ∀ first s, (env first).Names s → s.number < heap.frames.size := by
    rintro (_ | _) s (rfl | rfl) <;> decide
  -- Nothing is bound, so a session sees no scopes but its own.
  have hframe : ∀ s frame, heap.frame? s = some frame → frame = ⟨[], none⟩ := by
    rintro ⟨n⟩ frame hframe
    match n, hframe with
    | 0, rfl | 1, rfl | 2, rfl | 3, rfl => rfl
  have hsees : ∀ first s, heap.Sees (env first) s → (env first).Names s := by
    intro first s hs
    induction hs with
    | named hs => exact hs
    | parent hs hparent => cases hframe _ _ hs ▸ hparent
    | captured hs hv => cases hframe _ _ hs ▸ hv
  have hapart : ∀ i j s, heap.Sees (env i) s → heap.Sees (env j) s → i = j := by
    intro i j s hi hj
    have hi := hsees i s hi
    have hj := hsees j s hj
    rcases i with _ | _ <;> rcases j with _ | _ <;> rcases hi with rfl | rfl <;>
      rcases hj with hj | hj <;> first | rfl | cases hj
  obtain ⟨hends, hanswers⟩ := sessions_are_independent env hheap hscopes hapart schedule
  have hfirst : ((partOf true schedule).mapM (Step.perform 9 (env true)) heap).toOption.map (·.1)
      = some [.value .array "[1]", .value .array "[true, false]"] := by decide +kernel
  have hsecond : ((partOf false schedule).mapM (Step.perform 9 (env false)) heap).toOption.map (·.1)
      = some [.program "(2 + 1);", .value .integer "3"] := by decide +kernel
  obtain ⟨r, hrun, hfirst⟩ := exists_ok_of_map_toOption hfirst
  obtain ⟨r', hrun', hsecond⟩ := exists_ok_of_map_toOption hsecond
  have hperforms := Performs.of_mapM hrun
  have hperforms' := Performs.of_mapM hrun'
  have hall : ∀ i, ∃ answers after, Performs (env i) (partOf i schedule) heap answers after := by
    rintro (_ | _)
    · exact ⟨_, _, hperforms'⟩
    · exact ⟨_, _, hperforms⟩
  obtain ⟨answers, after, hinterleaves⟩ := hends.mpr hall
  have hanswers := hanswers answers after hinterleaves
  exact ⟨answers, after, hinterleaves, (hanswers true _ _ hperforms).1.trans hfirst,
    (hanswers false _ _ hperforms').1.trans hsecond⟩

end QuoteScript
