import QuoteScript.Proofs.Expansion.Recursion
import QuoteScript.Proofs.Scope.Relabelling
import QuoteScript.Proofs.Session.Effects
import QuoteScript.Proofs.Session.Simulation

/-!
# `QuoteScript.Proofs.Session.Hoisting`: where macros are defined

The macros of a program are defined before anything in it is expanded, so
it does not matter at which places of the program they are defined. What
matters is the order of the definitions of one name, since the last one
of them counts.

Two definitions next to each other that define different names can be
swapped. The scope of macros then binds the two names in the other order,
and each of the two macros gets the handle that the other one had, and
that is all: the heaps are the same up to handles. Any two programs that
have the same definitions of each name, in the same order, and otherwise
the same statements, are some swaps apart.

* `Frame.find?_define`: what a name means behind definitions.
* `Heap.relabelled_swap`: two definitions that are swapped.
* `eq_of_definitionsOf_eq`: lists of definitions that are some swaps
  apart.
* `hoisting_is_exact`: programs.
-/

set_option autoImplicit false

namespace QuoteScript

open EvalM

/-! ### The definitions of a name -/

/-- The definitions of a name among others, in order. -/
def definitionsOf (name : String) (definitions : List Definition) : List Definition :=
  definitions.filter (·.1 = name)

section DefinitionsOf

variable {name : String} {definition : Definition}

/-- A definition of the name is the first of its definitions. -/
theorem definitionsOf_cons_of_eq (h : definition.1 = name) (rest : List Definition) :
    definitionsOf name (definition :: rest) = definition :: definitionsOf name rest :=
  List.filter_cons_of_pos (decide_eq_true h)

/-- A definition of another name does not count. -/
theorem definitionsOf_cons_of_ne (h : definition.1 ≠ name) (rest : List Definition) :
    definitionsOf name (definition :: rest) = definitionsOf name rest :=
  List.filter_cons_of_neg (by simpa using h)

/-- Definitions of the name are looked for in both lists. -/
theorem definitionsOf_append (name : String) (ds ds' : List Definition) :
    definitionsOf name (ds ++ ds') = definitionsOf name ds ++ definitionsOf name ds' :=
  List.filter_append ..

end DefinitionsOf

/-- There are none among definitions of other names. -/
theorem definitionsOf_eq_nil {name : String} {ds : List Definition} (h : ∀ d ∈ ds, d.1 ≠ name) :
    definitionsOf name ds = [] :=
  List.filter_eq_nil_iff.mpr fun d hd => by simpa using h d hd

section Swaps

variable {α : Type} {F : List Definition → α}

/-- A definition can be moved to the front past definitions of other
names. -/
theorem move_to_front
    (hswap : ∀ before d d' behind, d.1 ≠ d'.1 →
      F (before ++ d :: d' :: behind) = F (before ++ d' :: d :: behind))
    {d : Definition} {front : List Definition} (hfront : ∀ u ∈ front, u.1 ≠ d.1)
    (before behind : List Definition) :
    F (before ++ (front ++ d :: behind)) = F (before ++ d :: (front ++ behind)) := by
  induction front generalizing before with
  | nil => rfl
  | cons u front ih =>
      obtain ⟨hu, hrest⟩ := List.forall_mem_cons.mp hfront
      have hpast := ih hrest (before ++ [u])
      rw [List.append_assoc, List.append_assoc] at hpast
      exact hpast.trans (hswap before u d (front ++ behind) hu)

/-- What is made of a list of definitions does not change when the list
is rearranged and every name keeps its definitions in order, if it does
not change when two definitions of different names are swapped. -/
theorem eq_of_definitionsOf_eq
    (hswap : ∀ before d d' behind, d.1 ≠ d'.1 →
      F (before ++ d :: d' :: behind) = F (before ++ d' :: d :: behind))
    {ds ds' : List Definition} (h : ∀ name, definitionsOf name ds' = definitionsOf name ds) :
    F ds' = F ds := by
  induction ds generalizing F ds' with
  | nil =>
      cases ds' with
      | nil => rfl
      | cons d rest =>
          have hnone := h d.1
          rw [definitionsOf_cons_of_eq rfl] at hnone
          cases hnone
  | cons d ds ih =>
      -- The first definition stands in the other list behind definitions of other names.
      have hfirst : definitionsOf d.1 ds' = d :: definitionsOf d.1 ds :=
        (h d.1).trans (definitionsOf_cons_of_eq rfl ds)
      obtain ⟨front, behind, rfl, hfront, -, hbehind⟩ := List.filter_eq_cons_iff.mp hfirst
      have hfront : ∀ u ∈ front, u.1 ≠ d.1 := by simpa using hfront
      have hrest (name : String) :
          definitionsOf name (front ++ behind) = definitionsOf name ds := by
        by_cases hname : d.1 = name
        · subst hname
          rw [definitionsOf_append, definitionsOf_eq_nil hfront]
          exact hbehind
        · have hall := h name
          rwa [definitionsOf_append, definitionsOf_cons_of_ne hname,
            definitionsOf_cons_of_ne hname, ← definitionsOf_append] at hall
      calc F (front ++ d :: behind)
        _ = F (d :: (front ++ behind)) := move_to_front hswap hfront [] behind
        _ = F (d :: ds) :=
          ih (F := fun rest => F (d :: rest)) (fun before => hswap (d :: before)) hrest

end Swaps

/-! ### Definitions in a heap -/

/-- The macro that a definition makes. -/
def Definition.toValue (macros : ScopeId) (a : Handle) (definition : Definition) : Value :=
  .closure .macroRule a definition.2.1 definition.2.2 macros

/-- A name means its last definition. A name that is not defined means
what it has meant before. -/
theorem Frame.find?_define (macros : ScopeId) (next : Nat) (frame : Frame)
    (definitions : List Definition) (name : String) :
    (definitionsOf name definitions = [] →
      (frame.define macros next definitions).find? name = frame.find? name) ∧
    ∀ last, (definitionsOf name definitions).getLast? = some last → ∃ a : Handle,
      next ≤ a.number ∧
        (frame.define macros next definitions).find? name = some (last.toValue macros a) := by
  induction definitions generalizing frame next with
  | nil => exact ⟨fun _ => rfl, nofun⟩
  | cons d rest ih =>
      obtain ⟨bound, params, body⟩ := d
      rw [define]
      obtain ⟨hnone, hlast⟩ := ih (next + 1)
        (frame.bind bound (.closure .macroRule ⟨next⟩ params body macros))
      rw [find?_bind] at hnone
      by_cases hbound : bound = name
      · rw [definitionsOf_cons_of_eq hbound]
        refine ⟨nofun, fun last hmem => ?_⟩
        cases hrest : definitionsOf name rest with
        | nil =>
            -- No other definition of the name follows.
            rw [hrest] at hmem
            cases hmem
            exact ⟨⟨next⟩, Nat.le_refl _, by rw [hnone hrest, if_pos hbound]; rfl⟩
        | cons d' rest' =>
            rw [hrest, List.getLast?_cons_cons] at hmem
            obtain ⟨a, ha, hfind⟩ := hlast last (by rw [hrest]; exact hmem)
            exact ⟨a, Nat.le_of_succ_le ha, hfind⟩
      · rw [definitionsOf_cons_of_ne hbound]
        rw [if_neg hbound] at hnone
        refine ⟨hnone, fun last hmem => ?_⟩
        obtain ⟨a, ha, hfind⟩ := hlast last hmem
        exact ⟨a, Nat.le_of_succ_le ha, hfind⟩

/-- A macro under another handle is the renamed macro. -/
theorem Definition.rename_toValue {τ : Equiv.Perm Handle} (macros : ScopeId) (a : Handle)
    (definition : Definition) :
    (definition.toValue macros a).rename (.ofHandles τ) = definition.toValue macros (τ a) :=
  rfl

/-- Different names may be bound in either order. -/
theorem Frame.Relabelled.bind_swap {τ : Equiv.Perm Handle} {frame frame' : Frame}
    (h : frame.Relabelled τ frame') {name name' : String} (hne : name ≠ name') (v v' : Value) :
    ((frame.bind name v).bind name' v').Relabelled τ
      ((frame'.bind name' (v'.rename (.ofHandles τ))).bind name (v.rename (.ofHandles τ))) where
  parent := h.parent
  find? other := by
    rw [find?_bind, find?_bind, find?_bind, find?_bind]
    -- Under two different names either value is bound, whichever came first.
    by_cases hname : name = other
    · rw [if_pos hname, if_pos hname, if_neg fun h => hne (hname.trans h.symm)]
      rfl
    · rw [if_neg hname, if_neg hname]
      split
      · rfl
      · exact h.find? other

/-- Definitions leave the parent of a scope alone. -/
theorem Frame.parent_define (macros : ScopeId) (next : Nat) (frame : Frame)
    (definitions : List Definition) :
    (frame.define macros next definitions).parent = frame.parent := by
  induction definitions generalizing frame next with
  | nil => rfl
  | cons d rest ih => exact ih _ _

namespace Heap

variable {heap heap' : Heap} {macros : ScopeId} {τ : Equiv.Perm Handle}

/-- Definitions are bound one after the other. -/
theorem define_append (heap : Heap) (macros : ScopeId) (ds ds' : List Definition) :
    heap.define macros (ds ++ ds') = (heap.define macros ds).define macros ds' := by
  induction ds generalizing heap with
  | nil => rfl
  | cons d ds ih => exact ih _

/-- Every macro gets a handle that has been handed out. -/
theorem Issued.define (h : heap.Issued) (macros : ScopeId) (definitions : List Definition) :
    (heap.define macros definitions).Issued := by
  induction definitions generalizing heap with
  | nil => exact h
  | cons d rest ih =>
      obtain ⟨name, params, body⟩ := d
      have hmade : heap.newHandle.2.Issued := fun s frame name v hframe hfind a ha =>
        Nat.lt_succ_of_lt (h s frame name v hframe hfind a ha)
      refine ih (issued_bind hmade macros name fun a ha => ?_)
      cases ha
      exact Nat.lt_succ_self _

/-- The same definitions keep heaps the same up to handles. -/
theorem Relabelled.define (h : heap.Relabelled τ heap') (macros : ScopeId)
    (definitions : List Definition) :
    (heap.define macros definitions).Relabelled τ (heap'.define macros definitions) := by
  induction definitions generalizing heap heap' with
  | nil => exact h
  | cons d rest ih =>
      obtain ⟨name, params, body⟩ := d
      have hbind := h.newHandle.bind macros name
        (.closure .macroRule heap.newHandle.1 params body macros)
      rw [Value.rename] at hbind
      exact ih (h.newHandle_eq ▸ hbind)

/-- A scope stays the same if all handles do that have been handed
out. -/
theorem Issued.frame_relabelled (h : heap.Issued)
    (hτ : ∀ a : Handle, a.number < heap.nextHandle → τ a = a) {s : ScopeId} {frame : Frame}
    (hframe : heap.frame? s = some frame) : frame.Relabelled τ frame where
  parent := rfl
  find? name := by
    cases hfind : frame.find? name with
    | none => rfl
    | some v =>
        have hv : ∀ a, v.Carries a → τ a = a := fun a ha =>
          hτ a (h s frame name v hframe hfind a ha)
        rw [Option.map_some, v.rename_of_carries hv]

/-- Two definitions of different names may be swapped, and the handles of
the two macros with them. -/
theorem relabelled_swap (h : heap.Issued) (macros : ScopeId) {d d' : Definition}
    (hne : d.1 ≠ d'.1) :
    (heap.define macros [d, d']).Relabelled (Equiv.swap ⟨heap.nextHandle⟩ ⟨heap.nextHandle + 1⟩)
      (heap.define macros [d', d]) where
  size := by simp [define, bind, newHandle]
  next := rfl
  fresh {a} ha := by
    have hle : heap.nextHandle + 2 ≤ a.number := ha
    refine Equiv.swap_apply_of_ne_of_ne ?_ ?_ <;>
      (rintro rfl; simp only at hle; omega)
  frames s := by
    have hold : ∀ a : Handle, a.number < heap.nextHandle →
        Equiv.swap (⟨heap.nextHandle⟩ : Handle) ⟨heap.nextHandle + 1⟩ a = a := by
      intro a ha
      refine Equiv.swap_apply_of_ne_of_ne ?_ ?_ <;>
        (rintro rfl; simp only at ha; omega)
    -- The scope of the macros binds both; all others are as they were.
    by_cases hs : s = macros
    · subst hs
      have hdefine (d d' : Definition) : (heap.define s [d, d']).frame? s =
          (heap.frame? s).map fun frame => (frame.bind d.1 (d.toValue s ⟨heap.nextHandle⟩)).bind
            d'.1 (d'.toValue s ⟨heap.nextHandle + 1⟩) := by
        show ((_ : Heap).bind s d'.1 (d'.toValue s _)).frame? s = _
        rw [frame?_bind]
        show Option.map _ (((_ : Heap).bind s d.1 (d.toValue s _)).frame? s) = _
        rw [frame?_bind, Option.map_map]
        rfl
      rw [hdefine, hdefine]
      cases hframe : heap.frame? s with
      | none => exact .none
      | some frame =>
          have hswap := (h.frame_relabelled hold hframe).bind_swap hne
            (d.toValue s ⟨heap.nextHandle⟩) (d'.toValue s ⟨heap.nextHandle + 1⟩)
          rw [Definition.rename_toValue, Definition.rename_toValue, Equiv.swap_apply_left,
            Equiv.swap_apply_right] at hswap
          exact .some hswap
    · rw [frame?_define_of_ne hs, frame?_define_of_ne hs]
      cases hframe : heap.frame? s with
      | none => exact .none
      | some frame => exact .some (h.frame_relabelled hold hframe)

end Heap

/-! ### Expansion -/

/-- Defines the macros of a program, and expands the other statements. -/
def hoistAndExpand (fuel : Nat) (macros : ScopeId) (program : Program) :
    ExceptT Misuse EvalM Program := do
  let rest ← defineMacros macros program
  expandProgram fuel macros rest

namespace Heap

variable {heap heap' : Heap} {τ : Equiv.Perm Handle}

/-- A program expands to the same in heaps that are the same up to
handles, or fails in the same way. -/
theorem Relabelled.answer_expandProgram (h : heap.Relabelled τ heap') (fuel : Nat)
    (macros : ScopeId) (program : Program) :
    heap'.answerOrMisuse (expandProgram fuel macros program) =
      heap.answerOrMisuse (expandProgram fuel macros program) := by
  -- Expansion does not see which handles the macros have.
  have hstep : (Lockstep.relabelled τ).InStep () (expandProgram fuel macros program).run
      (expandProgram fuel macros program).run fun _ => OrFails Eq :=
    Tandem.expandProgram (T := (Lockstep.relabelled τ).tandem) (w := ()) fuel trivial program
  show ExceptT.mk (Prod.fst <$> (expandProgram fuel macros program).run heap') =
    ExceptT.mk (Prod.fst <$> (expandProgram fuel macros program).run heap)
  cases hrun : (expandProgram fuel macros program).run heap with
  | error stop => rw [hstep.of_stop h hrun]
  | ok r =>
      obtain ⟨answer, after⟩ := r
      obtain ⟨answer', after', -, hrun', -, -, hanswers⟩ := hstep.of_run h hrun
      rw [hrun']
      cases hanswers with
      | ok heq =>
          rw [heq]
          rfl
      | error misuse => rfl

/-- What the definitions and the expansion answer together. -/
theorem answer_hoistAndExpand (heap : Heap) (fuel : Nat) (macros : ScopeId) (program : Program) :
    heap.answerOrMisuse (hoistAndExpand fuel macros program) =
      (heap.define macros program.definitions).answerOrMisuse
        (expandProgram fuel macros program.withoutDefinitions) := by
  have hlift : (ExceptT.lift (defineMacros macros program) : ExceptT Misuse EvalM Program).run heap
      = .ok (.ok program.withoutDefinitions, heap.define macros program.definitions) :=
    lift_run (defineMacros_run macros program heap)
  have hrun : (hoistAndExpand fuel macros program).run heap =
      (expandProgram fuel macros program.withoutDefinitions).run
        (heap.define macros program.definitions) :=
    bind_run_of_ok hlift
  rw [answerOrMisuse, answerOrMisuse, answer, answer, hrun]

/-- Definitions that are rearranged make no difference to an expansion,
if every name keeps its definitions in their order. -/
theorem answer_define (h : heap.Issued) (fuel : Nat) (macros : ScopeId) (program : Program)
    {ds ds' : List Definition} (hds : ∀ name, definitionsOf name ds' = definitionsOf name ds) :
    (heap.define macros ds').answerOrMisuse (expandProgram fuel macros program) =
      (heap.define macros ds).answerOrMisuse (expandProgram fuel macros program) := by
  refine eq_of_definitionsOf_eq (F := fun ds =>
    (heap.define macros ds).answerOrMisuse (expandProgram fuel macros program)) ?_ hds
  -- Definitions of the same names in the same order are swapped into place, two at a time.
  intro before d d' behind hne
  have hsplit (d d' : Definition) : heap.define macros (before ++ d :: d' :: behind) =
      ((heap.define macros before).define macros [d, d']).define macros behind := by
    rw [← define_append, ← define_append]
    rfl
  simp only [hsplit]
  have hswap := relabelled_swap (h.define macros before) macros hne
  exact ((hswap.define macros behind).answer_expandProgram fuel macros program).symm

end Heap

/-! ### Programs -/

/-- A heap in which the macros of a program have been defined. In their
scope, every name that is defined means the macro of its last definition,
which has been made now and was written in that scope. All other names,
and all other scopes, are as they were. -/
structure Heap.Hoists (macros : ScopeId) (definitions : List Definition) (heap heap' : Heap) :
    Prop where
  own {frame : Frame} : heap.frame? macros = some frame → ∃ frame',
    heap'.frame? macros = some frame' ∧ frame'.parent = frame.parent ∧
      (∀ name, definitionsOf name definitions = [] → frame'.find? name = frame.find? name) ∧
      ∀ name last, (definitionsOf name definitions).getLast? = some last → ∃ a : Handle,
        heap.nextHandle ≤ a.number ∧ frame'.find? name = some (last.toValue macros a)
  others {s : ScopeId} : s ≠ macros → heap'.frame? s = heap.frame? s

/-- Binding the definitions hoists them. -/
theorem Heap.hoists_define (heap : Heap) (macros : ScopeId) (definitions : List Definition) :
    heap.Hoists macros definitions (heap.define macros definitions) where
  own {frame} hframe :=
    have hfind := frame.find?_define macros heap.nextHandle definitions
    ⟨_, frame?_define_self hframe definitions, frame.parent_define _ _ _,
      fun name => (hfind name).1, fun name => (hfind name).2⟩
  others hs := frame?_define_of_ne hs definitions

/-- A program in which the definitions of macros stand at other places.
Those of one name are in the same order, and so are the other
statements. -/
structure Program.Rearranged (p p' : Program) : Prop where
  others : p'.withoutDefinitions = p.withoutDefinitions
  definitions (name : String) :
    definitionsOf name p'.definitions = definitionsOf name p.definitions

/-- In the heap of a session, all handles have been handed out. -/
theorem SessionHeap.issued {heap : Heap} (h : SessionHeap heap) : heap.Issued := by
  intro s frame name v hframe hfind a ha
  obtain ⟨binding, hbinding, rfl⟩ := Frame.mem_of_find? hfind
  obtain ⟨_, hpaired⟩ := exists_of_mem_left (h.coherent.frame_self hframe).bindings hbinding
  cases hpaired with
  | under hv =>
      obtain ⟨_, hhandle⟩ := hv.carries ha
      exact hhandle.2

/-- Defining the macros of a program takes exactly the definitions out of
it, and binds each name that is defined to the macro of its last
definition. Where the definitions stand makes no difference: if they are
moved, the program expands to the same, tokens included, or ends in the
same misuse, or stops in the same way. -/
theorem hoisting_is_exact (heap : Heap) (fuel : Nat) (macros : ScopeId) (p : Program) :
    (∃ after, defineMacros macros p heap = .ok (p.withoutDefinitions, after) ∧
      heap.Hoists macros p.definitions after) ∧
    (heap.Issued → ∀ p', p.Rearranged p' →
      heap.answerOrMisuse (hoistAndExpand fuel macros p') =
        heap.answerOrMisuse (hoistAndExpand fuel macros p)) := by
  refine ⟨⟨_, defineMacros_run macros p heap, heap.hoists_define macros p.definitions⟩,
    fun hheap p' h => ?_⟩
  rw [Heap.answer_hoistAndExpand, Heap.answer_hoistAndExpand, h.others]
  exact Heap.answer_define hheap fuel macros p.withoutDefinitions h.definitions

/-- A macro is called in front of its definitions. The first of these is
moved behind the call, and behind the definition of another macro. -/
theorem hoisting_is_exact_redefined :
    let token : Token := .fixed .illegal ⟨7, 9⟩
    let define (name : String) (params : List String) (tree : Expr) : Stmt :=
      .letIn token name (.lambda token .macroRule params
        (quotingBlock token token token token tree))
    let call : Stmt := .expr token (.call token (.ident token "m") [.int token 2])
    let first := define "m" ["x"] (.int token 0)
    let other := define "n" [] (.int token 1)
    let last := define "m" ["x"] (.str token "last")
    let heap : Heap := (({} : Heap).newScope none).2
    heap.Issued ∧ Program.Rearranged [first, call, other, last] [call, other, first, last] ∧
      heap.answerOrMisuse (hoistAndExpand 9 ⟨0⟩ [call, other, first, last]) =
        pure [.expr token (.str token "last")] := by
  intro token define call first other last heap
  have hsession : SessionHeap heap := .newScope nofun .empty
  have hheap : heap.Issued := hsession.issued
  -- The two definitions of `m` are in the same order in both programs.
  have hmoved : Program.Rearranged [first, call, other, last] [call, other, first, last] := by
    refine ⟨rfl, fun name => ?_⟩
    show List.filter _ [_, _, _] = List.filter _ [_, _, _]
    by_cases hm : "m" = name
    · subst hm
      rfl
    · by_cases hn : "n" = name
      · subst hn
        rfl
      · simp [hm, hn]
  have hexact := hoisting_is_exact heap 9 ⟨0⟩ [first, call, other, last]
  refine ⟨hheap, hmoved, (hexact.2 hheap _ hmoved).trans ?_⟩
  rfl

end QuoteScript
