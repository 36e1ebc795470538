import QuoteScript.Proofs.Expansion.Simulation
import QuoteScript.Proofs.Grammar.Telling
import QuoteScript.Session.Run

/-!
# `QuoteScript.Proofs.Session.Simulation`: two sessions side by side

What is true of two evaluations and of two expansions is true of the
steps of two sessions: in corresponding heaps, and with paired scopes, a
source text is run with corresponding answers.

A session that names only scopes that it has made is like itself: its
heap corresponds to itself if every scope and every handle is paired
with itself. So nothing in it points to what is not there.

* `expand_simulates`, `run_simulates`, `evaluate_simulates`,
  `evalNode_simulates`: the steps. `expand_simulates_of_alike` is for two
  texts.
* `Heap.Coherent`: a heap that corresponds to itself.
* `SessionHeap.coherent`: the heaps of sessions, by induction on the
  steps.
-/

set_option autoImplicit false

namespace QuoteScript

open EvalM

variable {ρ : Pairing} {s s' r r' : ScopeId}

/-! ### Steps -/

/-- A misuse becomes a failure of the session, on both sides. -/
theorem liftMisuse_simulates {α β : Type} {x : ExceptT Misuse EvalM α} {y : ExceptT Misuse EvalM β}
    {P : Pairing → α → β → Prop} (h : SimulatesOrFails ρ x y P) :
    SimulatesOrFails ρ (liftMisuse x) (liftMisuse y) P := by
  refine Simulates.bind h fun ρ' r r' _ hr => ?_
  cases hr with
  | ok h => exact .pure (.ok h)
  | error misuse => exact .pure (.error (Failure.misuse misuse))

/-- Two texts that are parsed as alike programs expand to alike
programs in corresponding heaps. -/
theorem expand_simulates_of_alike {source source' : String} (fuel : Nat) (hs : ρ.scope s s')
    (herrors : (parse source).errors = []) (herrors' : (parse source').errors = [])
    (halike : ProgramsAlike (parse source).program (parse source').program) :
    SimulatesOrFails ρ (expand fuel source s) (expand fuel source' s') fun _ => ProgramsAlike := by
  unfold expand
  rw [if_pos (List.isEmpty_iff.mpr herrors), if_pos (List.isEmpty_iff.mpr herrors')]
  -- Both texts define their macros first, and then are expanded with them.
  have hdefine := defineMacros_simulates hs halike
  exact (SimulatesOrFails.lift hdefine).bind fun ρ' _ _ hle hprogram =>
    liftMisuse_simulates (expandProgram_simulates fuel (hle.1 _ _ hs) hprogram)

/-- A text expands to alike programs in corresponding heaps. -/
theorem expand_simulates (fuel : Nat) (source : String) (hs : ρ.scope s s') :
    SimulatesOrFails ρ (expand fuel source s) (expand fuel source s') fun _ => ProgramsAlike := by
  by_cases herrors : (parse source).errors = []
  · exact expand_simulates_of_alike fuel hs herrors herrors (parse_telling herrors)
  · unfold expand
    rw [if_neg (mt List.isEmpty_iff.mp herrors), if_neg (mt List.isEmpty_iff.mp herrors)]
    exact .throw _

/-- What expands to alike programs is run with corresponding answers. -/
theorem run_simulates_of_expand {source source' : String} {fuel : Nat} (hs : ρ.scope s s')
    (hexpand : SimulatesOrFails ρ (expand fuel source r) (expand fuel source' r')
      fun _ => ProgramsAlike) :
    SimulatesOrFails ρ (run fuel source s r) (run fuel source' s' r') OptionCorresponds :=
  hexpand.bind fun _ _ _ hle hprogram => .lift (evalProgram_simulates fuel (hle.1 _ _ hs) hprogram)

/-- A text is run with corresponding answers in corresponding heaps. -/
theorem run_simulates (fuel : Nat) (source : String) (hs : ρ.scope s s') (hr : ρ.scope r r') :
    SimulatesOrFails ρ (run fuel source s r) (run fuel source s' r') OptionCorresponds :=
  run_simulates_of_expand hs (expand_simulates fuel source hr)

/-- Evaluating the same source in paired scopes. -/
theorem evaluate_simulates (fuel : Nat) (source : String) (hs : ρ.scope s s') :
    SimulatesOrFails ρ (evaluate fuel source s) (evaluate fuel source s') OptionCorresponds := by
  unfold evaluate
  by_cases herrors : (parse source).errors.isEmpty = true
  · rw [if_pos herrors, if_pos herrors]
    have hparsed := parse_telling (List.isEmpty_iff.mp herrors)
    exact .lift (evalProgram_simulates fuel hs hparsed)
  · rw [if_neg herrors, if_neg herrors]
    exact .throw _

/-- Alike nodes, as the expansion of a macro evaluates them. -/
theorem evalNode_simulates (fuel : Nat) (hs : ρ.scope s s') {node node' : Node}
    (h : Alike .telling node.part node'.part) :
    Simulates ρ (evalNode fuel s node) (evalNode fuel s' node') Value.Corresponds := by
  have heval := evalExpr_simulates fuel
  -- Whatever the nodes are, what they answer is unwrapped in the same way.
  have hparts {x y : EvalM (Option Value)} (hxy : Simulates ρ x y OptionCorresponds) :
      Simulates ρ (x >>= fun v => pure (v.getD .null).unwrapReturn)
        (y >>= fun v => pure (v.getD .null).unwrapReturn) Value.Corresponds :=
    hxy.bind fun _ _ _ _ hv => .pure (corresponds_getD hv).unwrapReturn
  cases h.nodes with
  | program hp => exact hparts (evalProgram_simulates fuel hs hp)
  | stmt hst => exact hparts (evalStmt_simulates heval hs hst)
  | block hb => exact hparts (evalBlock_simulates heval hs hb)
  | expr he => exact hparts ((heval ρ s s' _ _ hs he).bind fun _ _ _ _ hv => .pure (.some hv))

/-! ### Heaps that correspond to themselves -/

namespace Heap

/-- Pairs every scope and every handle of a heap with itself. -/
def diagonal (heap : Heap) : Pairing where
  scope s s' := s = s' ∧ s.number < heap.frames.size
  handle a a' := a = a' ∧ a.number < heap.nextHandle

/-- A heap that corresponds to itself. Every scope and every handle in
it is there, and the tokens of its trees tell what they stand for. -/
def Coherent (heap : Heap) : Prop :=
  Heap.Corresponds heap.diagonal heap heap

variable {heap after : Heap} {frame : Frame}

/-- A scope of the heap is paired with itself. -/
theorem diagonal_scope (h : s.number < heap.frames.size) : heap.diagonal.scope s s :=
  ⟨rfl, h⟩

/-- The empty heap is coherent: there is nothing to pair. -/
theorem coherent_empty : Coherent {} where
  injective := ⟨fun h => absurd h.2 (Nat.not_lt_zero _), fun h => absurd h.2 (Nat.not_lt_zero _)⟩
  frames h := absurd h.2 (Nat.not_lt_zero _)
  handles h := absurd h.2 (Nat.not_lt_zero _)

/-- A frame of a coherent heap corresponds to itself. -/
theorem Coherent.frame_self (h : heap.Coherent) (hframe : heap.frame? s = some frame) :
    Frame.Corresponds heap.diagonal s s frame frame := by
  obtain ⟨frame₁, frame₂, hframe₁, hframe₂, hcorresponds⟩ :=
    h.frames (diagonal_scope (number_lt_of_frame? hframe))
  cases hframe.symm.trans hframe₁
  cases hframe.symm.trans hframe₂
  exact hcorresponds

/-- The parents of a coherent heap are older than the scopes inside
them. -/
theorem Coherent.nested (h : heap.Coherent) : heap.Nested := by
  intro s frame hframe p hparent
  have hpaired := (h.frame_self hframe).parent
  rw [hparent] at hpaired
  cases hpaired with
  | some hp => exact hp.2.1

/-- The scope around a scope is there. -/
theorem Coherent.parent_lt (h : heap.Coherent) (hframe : heap.frame? s = some frame) {p : ScopeId}
    (hparent : frame.parent = some p) : p.number < heap.frames.size :=
  Nat.lt_trans (h.nested s frame hframe p hparent) (number_lt_of_frame? hframe)

/-- The scopes that the values in a scope capture are there. -/
theorem Coherent.captured_lt (h : heap.Coherent) (hframe : heap.frame? s = some frame)
    {binding : String × Value} (hbinding : binding ∈ frame.bindings) {r : ScopeId}
    (hr : binding.2.Captures r) : r.number < heap.frames.size := by
  obtain ⟨_, hpaired⟩ := exists_of_mem_left (h.frame_self hframe).bindings hbinding
  cases hpaired with
  -- A captured scope is paired with something, and only scopes that are there are paired.
  | under hv =>
      obtain ⟨_, hscope⟩ := hv.captures hr
      exact hscope.2

/-- What has grown from the pairing of everything with itself is the
pairing of everything with itself. -/
theorem diagonal_of_grows (h : heap.diagonal.Grows ρ heap heap after after) :
    ρ = after.diagonal := by
  have hle := h.scopes.le
  have hle' := h.handles.le
  -- Both sides have given out the same numbers, from the same ones on.
  have hscope (s s' : ScopeId) : ρ.scope s s' ↔ after.diagonal.scope s s' := by
    obtain ⟨i⟩ := s
    obtain ⟨j⟩ := s'
    refine (h.scopes.iff i j).trans ?_
    simp only [diagonal, ScopeId.mk.injEq]
    omega
  have hhandle (a a' : Handle) : ρ.handle a a' ↔ after.diagonal.handle a a' := by
    obtain ⟨i⟩ := a
    obtain ⟨j⟩ := a'
    refine (h.handles.iff i j).trans ?_
    simp only [diagonal, Handle.mk.injEq]
    omega
  obtain ⟨scope, handle⟩ := ρ
  rw [diagonal, Pairing.mk.injEq]
  exact ⟨funext₂ fun s s' => propext (hscope s s'), funext₂ fun a a' => propext (hhandle a a')⟩

/-- A computation that is like itself leaves a heap behind that
corresponds to itself. -/
theorem Coherent.of_run {α : Type} {x : EvalM α} {P : Pairing → α → α → Prop} {a : α}
    (h : heap.Coherent) (hx : Simulates heap.diagonal x x P) (hrun : x heap = .ok (a, after)) :
    after.Coherent := by
  obtain ⟨b, after', ρ', hrun', hgrows, hheaps, -⟩ := hx.of_run h hrun
  -- Both sides start in the same heap, so they are the same run.
  cases hrun.symm.trans hrun'
  rw [diagonal_of_grows hgrows] at hheaps
  exact hheaps

/-- A new scope in a coherent heap, inside one that is there or in none. -/
theorem Coherent.newScope (h : heap.Coherent) {parent : Option ScopeId}
    (hparent : ∀ p ∈ parent, p.number < heap.frames.size) :
    (heap.newScope parent).2.Coherent := by
  have hpaired : Option.Rel heap.diagonal.scope parent parent := by
    cases parent with
    | none => exact .none
    | some p => exact .some (diagonal_scope (hparent p rfl))
  -- A scope made on both sides has the same number on both, so it is paired with itself.
  have hheaps := Heap.Corresponds.newScope h hpaired
  rw [diagonal_of_grows (.newScope _ heap heap parent parent)] at hheaps
  exact hheaps

end Heap

/-- The heaps of sessions. A session makes scopes, and runs, expands and
evaluates source texts and trees in scopes that it has made, one after
the other and in any order. The tokens of the trees tell what they stand
for, like those of all parsed trees. A step may end in a fault, and it
may fail: what it has bound until then stays bound. -/
inductive SessionHeap : Heap → Prop where
  | empty : SessionHeap {}
  | newScope {heap : Heap} {parent : Option ScopeId}
      (hparent : ∀ p ∈ parent, p.number < heap.frames.size) :
      SessionHeap heap → SessionHeap (heap.newScope parent).2
  | expand {heap heap' : Heap} {fuel : Nat} {source : String} {macros : ScopeId}
      {answer : Except Failure Program} (hmacros : macros.number < heap.frames.size) :
      SessionHeap heap → (expand fuel source macros).run heap = .ok (answer, heap') →
        SessionHeap heap'
  | run {heap heap' : Heap} {fuel : Nat} {source : String} {scope macros : ScopeId}
      {answer : Except Failure (Option Value)} (hscope : scope.number < heap.frames.size)
      (hmacros : macros.number < heap.frames.size) :
      SessionHeap heap → (run fuel source scope macros).run heap = .ok (answer, heap') →
        SessionHeap heap'
  | evaluate {heap heap' : Heap} {fuel : Nat} {source : String} {scope : ScopeId}
      {answer : Except Failure (Option Value)} (hscope : scope.number < heap.frames.size) :
      SessionHeap heap → (evaluate fuel source scope).run heap = .ok (answer, heap') →
        SessionHeap heap'
  | evalNode {heap heap' : Heap} {fuel : Nat} {scope : ScopeId} {node : Node} {v : Value}
      (hscope : scope.number < heap.frames.size) (hnode : Alike .telling node.part node.part) :
      SessionHeap heap → evalNode fuel scope node heap = .ok (v, heap') → SessionHeap heap'

/-- In the heap of a session, nothing points to what is not there. -/
theorem SessionHeap.coherent {heap : Heap} (h : SessionHeap heap) : heap.Coherent := by
  induction h with
  | empty => exact Heap.coherent_empty
  | newScope hparent _ ih => exact ih.newScope hparent
  | expand hmacros _ hrun ih =>
      exact ih.of_run (expand_simulates _ _ (Heap.diagonal_scope hmacros)) hrun
  | run hscope hmacros _ hrun ih =>
      exact ih.of_run
        (run_simulates _ _ (Heap.diagonal_scope hscope) (Heap.diagonal_scope hmacros)) hrun
  | evaluate hscope _ hrun ih =>
      exact ih.of_run (evaluate_simulates _ _ (Heap.diagonal_scope hscope)) hrun
  | evalNode hscope hnode _ hrun ih =>
      exact ih.of_run (evalNode_simulates _ (Heap.diagonal_scope hscope) hnode) hrun

end QuoteScript
