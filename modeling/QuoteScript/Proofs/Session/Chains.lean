import QuoteScript.Proofs.Expansion.Tandem
import QuoteScript.Proofs.Scope.Chain
import QuoteScript.Proofs.Scope.Renaming
import QuoteScript.Proofs.Value.Stored

/-!
# `QuoteScript.Proofs.Session.Chains`: chains of scopes in a session

Closures are bound in the scopes that they were written in, so values
and scopes point to each other in circles. The scopes alone do not. A
scope is made inside of one that is there already, and stays inside of
it, so the numbers of scopes go down on the way outwards.

For this it has to be known that what a closure captures is there when
the closure is called. The scope around the new scope is the one that
the closure captures, and a closure that captured a scope yet to be made
could close a circle. So the invariant is about values, too: a heap is
`Heap.WellScoped` if parents are older than their children and if all
captured scopes are there.

Evaluation keeps it. A heap of this kind is one that is found in itself,
with all numbers as they are, and evaluations in two heaps of which one
is found in the other go in step.

* `Heap.Knows`, `Heap.WellScoped`: the invariant.
* `Heap.WellScoped.renamed_self`: such a heap is found in itself.
* `Calls`, `Reached`: one call, and the heaps after any number of them.
* `Calls.wellScoped`: what a call keeps, and what is known of its answer.
* `Reached.wellScoped`: the invariant, by induction on the calls.
* `scope_chains_are_well_founded`: chains, lookups and bindings in a
  session.
-/

set_option autoImplicit false

namespace QuoteScript

/-! ### What points to a scope -/

/-- Renaming nothing changes no frame. -/
theorem Frame.rename_id (frame : Frame) : frame.rename .id = frame := by
  obtain ⟨bindings, parent⟩ := frame
  have hbindings : bindings.map (renameUnder .id) = bindings :=
    List.map_id'' (fun binding => congrArg (Prod.mk binding.1) binding.2.rename_id) bindings
  have hparent : parent.map Renaming.id.scope = parent := Option.map_id' ..
  rw [Frame.rename, hbindings, hparent]

namespace Heap

variable {heap heap' : Heap} {s : ScopeId} {v : Value}

/-- The scopes that a value captures are there. -/
def Knows (heap : Heap) (v : Value) : Prop :=
  ∀ r, v.Captures r → r.number < heap.frames.size

/-- The scope around a scope is older, and the scopes that are captured
by what is bound are there. -/
structure WellScoped (heap : Heap) : Prop where
  nested : heap.Nested
  bound : heap.All heap.Knows

namespace WellScoped

/-- The empty heap is well scoped: it has no scopes. -/
theorem empty : WellScoped {} where
  nested _ _ hframe := absurd (number_lt_of_frame? hframe) (Nat.not_lt_zero _)
  bound := all_empty

/-- A new scope inside one that is there, or in none. -/
theorem newScope (h : heap.WellScoped) {parent : Option ScopeId}
    (hparent : ∀ p ∈ parent, p.number < heap.frames.size) :
    (heap.newScope parent).2.WellScoped where
  nested := h.nested.newScope hparent
  bound := by
    intro frame hframe binding hbinding r hr
    have hold := h.bound.newScope parent frame hframe binding hbinding r hr
    simp only [Heap.newScope, Array.size_push]
    exact Nat.lt_succ_of_lt hold

/-- Binding a value of which the heap knows all scopes. -/
theorem bind (h : heap.WellScoped) (hs : s.number < heap.frames.size) (name : String)
    (hv : heap.Knows v) : (heap.bind s name v).WellScoped where
  nested := h.nested.bind hs name v
  bound := by
    intro frame hframe binding hbinding r hr
    have hold := h.bound.bind s name hv frame hframe binding hbinding r hr
    simp only [Heap.bind, Array.size_modify]
    exact hold

/-- Nothing points to what is not there, so the heap is found in
itself. -/
theorem renamed_self (h : heap.WellScoped) : heap.Renamed .id heap where
  frames {s frame} hframe := by
    rw [frame.rename_id]
    exact hframe
  captured hframe binding hbinding := h.bound _ (Array.mem_of_getElem? hframe) binding hbinding
  parents {s frame} hframe p hp :=
    have hage := h.nested s frame hframe p hp
    ⟨hage, hage⟩
  scopes _ := rfl
  handles _ := rfl

/-- A heap that is renamed to itself is well scoped. -/
theorem of_renamed (h : heap.Renamed .id heap) : heap.WellScoped where
  nested _ _ hframe p hp := (h.parents hframe p hp).1
  bound := by
    intro frame hframe binding hbinding
    obtain ⟨i, hi⟩ := Array.mem_iff_getElem?.mp hframe
    exact h.captured (s := ⟨i⟩) hi binding hbinding

/-- What goes in step with itself leaves a heap of the same kind
behind. -/
theorem of_run {α : Type} {x : EvalM α} {P : Nat × Nat → α → α → Prop} {a : α}
    (h : heap.WellScoped)
    (hx : (renamed .id).InStep (heap.frames.size, heap.nextHandle) x x P)
    (hrun : x heap = .ok (a, heap')) :
    heap'.WellScoped ∧ P (heap'.frames.size, heap'.nextHandle) a a := by
  obtain ⟨b, heap₁, w, hrun', -, ⟨rfl, hheaps⟩, hP⟩ := hx.of_run ⟨rfl, h.renamed_self⟩ hrun
  -- Both sides are the same run, so they end in the same heap.
  cases hrun.symm.trans hrun'
  exact ⟨of_renamed hheaps, hP⟩

end WellScoped

end Heap

/-! ### Calls -/

/-- `Calls heap answer heap'`: something is called that finds the heap
`heap` and leaves the heap `heap'` behind, and `answer` is the value that
it hands out, if there is one. A call runs, expands or evaluates a source
text, or evaluates a node, whatever tokens it has; or it makes a scope,
or binds a name. All scopes that it names are there. It has some fuel and
ends, with an answer or a failure. -/
inductive Calls : Heap → Option Value → Heap → Prop where
  | newScope {heap : Heap} {parent : Option ScopeId}
      (hparent : ∀ p ∈ parent, p.number < heap.frames.size) :
      Calls heap none (heap.newScope parent).2
  | bind {heap : Heap} {scope : ScopeId} {v : Value} (hscope : scope.number < heap.frames.size)
      (name : String) (hv : heap.Knows v) : Calls heap none (heap.bind scope name v)
  | expand {heap heap' : Heap} {macros : ScopeId} {answer : Except Failure Program} (fuel : Nat)
      (source : String) (hmacros : macros.number < heap.frames.size)
      (hrun : (expand fuel source macros).run heap = .ok (answer, heap')) :
      Calls heap none heap'
  | run {heap heap' : Heap} {scope macros : ScopeId} {answer : Except Failure (Option Value)}
      (fuel : Nat) (source : String) (hscope : scope.number < heap.frames.size)
      (hmacros : macros.number < heap.frames.size)
      (hrun : (run fuel source scope macros).run heap = .ok (answer, heap')) :
      Calls heap answer.toOption.join heap'
  | evaluate {heap heap' : Heap} {scope : ScopeId} {answer : Except Failure (Option Value)}
      (fuel : Nat) (source : String) (hscope : scope.number < heap.frames.size)
      (hrun : (evaluate fuel source scope).run heap = .ok (answer, heap')) :
      Calls heap answer.toOption.join heap'
  | evalNode {heap heap' : Heap} {scope : ScopeId} {v : Value} (fuel : Nat) (node : Node)
      (hscope : scope.number < heap.frames.size)
      (hrun : evalNode fuel scope node heap = .ok (v, heap')) : Calls heap (some v) heap'

/-- The heaps that are reached by calls, from nothing on. -/
inductive Reached : Heap → Prop where
  | start : Reached {}
  | call {heap heap' : Heap} {answer : Option Value} (h : Reached heap)
      (hcall : Calls heap answer heap') : Reached heap'

variable {heap heap' : Heap}

namespace Heap

/-- What is known of the answer to a node. -/
theorem knows_of_renames {v v' : Value}
    (h : (renamed .id).tandem.Renames (heap.frames.size, heap.nextHandle) v v') :
    heap.Knows v := by
  cases h with
  | of hknown => exact hknown

/-- What is known of the answer to a text. -/
theorem knows_of_orFails {r r' : Except Failure (Option Value)}
    (h : OrFails ((renamed .id).tandem.RenamesOption (heap.frames.size, heap.nextHandle)) r r') :
    ∀ v ∈ r.toOption.join, heap.Knows v := by
  intro v hv
  cases h with
  | error failure => cases hv
  | ok hanswer =>
      cases hanswer with
      | of hknown => exact hknown v hv

end Heap

/-- A call leaves a heap of the same kind behind, and the scopes that its
answer captures are there. -/
theorem Calls.wellScoped {answer : Option Value} (hcall : Calls heap answer heap')
    (h : heap.WellScoped) : heap'.WellScoped ∧ ∀ v ∈ answer, heap'.Knows v := by
  cases hcall with
  -- In two cases the heap is changed by the call itself, and no value is handed out.
  | newScope hparent => exact ⟨h.newScope hparent, nofun⟩
  | bind hscope name hv => exact ⟨h.bind hscope name hv, nofun⟩
  -- All other calls go in step with themselves.
  | expand fuel source hmacros hrun =>
      exact ⟨(h.of_run ((renamed .id).tandem.expand fuel source hmacros) hrun).1, nofun⟩
  | run fuel source hscope hmacros hrun =>
      have hstep := h.of_run ((renamed .id).tandem.run fuel source hscope hmacros) hrun
      exact ⟨hstep.1, Heap.knows_of_orFails hstep.2⟩
  | evaluate fuel source hscope hrun =>
      have hstep := h.of_run ((renamed .id).tandem.evaluate fuel source hscope) hrun
      exact ⟨hstep.1, Heap.knows_of_orFails hstep.2⟩
  | @evalNode _ scope _ fuel node hscope hrun =>
      have hinside : (renamed .id).tandem.inside (heap.frames.size, heap.nextHandle) scope := hscope
      have hstep := h.of_run ((renamed .id).tandem.evalNode fuel hinside node) hrun
      exact ⟨hstep.1, fun _ hv => Option.some.inj hv ▸ Heap.knows_of_renames hstep.2⟩

/-- In a heap that is reached by calls, nothing points to a scope that is
not there. -/
theorem Reached.wellScoped (h : Reached heap) : heap.WellScoped := by
  induction h with
  | start => exact .empty
  | call _ hcall ih => exact (hcall.wellScoped ih).1

/-- The parents of all scopes, those that closures and macros capture
included, form no cycle, in every heap that is reached by calls. So the
way outwards has an end: every scope that is there has one chain, and
asking for a name, from scope to scope and without a bound, ends with
just one answer. This is what the name means, and it is what the nearest
scope of the chain binds the name to, or nothing if none of them binds
it.

When a name is bound in the scope `f`, the lookups that change are those
of this name from the scopes whose chain meets `f` before another scope
that binds it, unless they gave the same value before. From then on they
give the value. -/
theorem scope_chains_are_well_founded (h : Reached heap) :
    WellFounded heap.Encloses ∧
    (∀ s, ¬Relation.TransGen heap.Encloses s s) ∧
    (∀ p s, heap.Encloses p s → p.number < heap.frames.size) ∧
    heap.All heap.Knows ∧
    (∀ v heap', Calls heap (some v) heap' → heap'.Knows v) ∧
    ∀ s, s.number < heap.frames.size →
      (∃ chain, heap.Chain s chain ∧ (∀ chain', heap.Chain s chain' → chain' = chain) ∧
        ∀ name, heap.lookup s name = chain.findSome? (heap.find? · name)) ∧
      (∀ name answer, heap.Resolves name s answer ↔ answer = heap.lookup s name) ∧
      ∀ f name v, f.number < heap.frames.size →
        (heap.Meets name s f → (heap.bind f name v).lookup s name = some v) ∧
        ∀ bound, (heap.bind f name v).lookup s bound ≠ heap.lookup s bound ↔
          bound = name ∧ heap.Meets name s f ∧ heap.lookup s name ≠ some v := by
  -- Parents are older than the scopes inside them: from this comes all the rest.
  have hscoped := h.wellScoped
  have hnested := hscoped.nested
  refine ⟨hnested.wellFounded, hnested.not_transGen_self, fun _ _ => hnested.parent_lt,
    hscoped.bound, fun v heap' hcall => ?answer, fun s hs => ⟨?chain, ?walk, ?bind⟩⟩
  case answer => exact (hcall.wellScoped hscoped).2 v rfl
  case chain =>
    obtain ⟨chain, hchain⟩ := hnested.exists_chain hs
    exact ⟨chain, hchain, fun chain' hchain' => hchain'.unique hchain,
      hnested.lookup_eq_findSome? hchain⟩
  case walk => exact hnested.resolves_iff hs
  case bind =>
    intro f name v hf
    exact ⟨fun hmeets => hnested.lookup_bind_of_meets hf hmeets v,
      fun bound => hnested.lookup_bind_ne_iff hf hs name bound v⟩

/-- A closure that is written in a call, and called by a text that calls
a macro, too. The chain of the scope of its body goes through the scope
of the call, which binds `x`. So binding `make` at the top changes what
it means there, and binding `x` does not. -/
theorem scope_chains_are_well_founded_closure :
    let source := "let m = macro(e) \x7b quote(unquote(e)) \x7d;" ++
      "let make = fn(x) \x7b fn(y) \x7b x + y \x7d \x7d; let add = make(1); m(add(2))"
    let start : Heap := ((({} : Heap).newScope none).2.newScope none).2
    ∃ answer heap, (run 20 source ⟨0⟩ ⟨1⟩).run start = .ok (answer, heap) ∧ Reached heap ∧
      (∀ s, ¬Relation.TransGen heap.Encloses s s) ∧
      heap.Chain ⟨4⟩ [⟨4⟩, ⟨3⟩, ⟨0⟩] ∧
      heap.Resolves "make" ⟨4⟩ (heap.find? ⟨0⟩ "make") ∧
      (heap.bind ⟨0⟩ "make" .null).lookup ⟨4⟩ "make" = some .null ∧
      (heap.bind ⟨0⟩ "x" .null).lookup ⟨4⟩ "x" = heap.lookup ⟨4⟩ "x" := by
  intro source start
  -- The parent of each scope, and whether it binds `make` and `x`.
  let looks (frame : Frame) := (frame.parent, (frame.find? "make").isSome, (frame.find? "x").isSome)
  let scopes : List (Option ScopeId × Bool × Bool) :=
    [(none, true, false), (none, false, false), (some ⟨1⟩, false, false), (some ⟨0⟩, false, true),
      (some ⟨3⟩, false, false)]
  have hcomputed : ((run 20 source ⟨0⟩ ⟨1⟩).run start).toOption.map
      (fun r => r.2.frames.toList.map looks) = some scopes := by decide +kernel
  obtain ⟨⟨answer, heap⟩, hrun, hlooks⟩ := exists_ok_of_map_toOption hcomputed
  have hnone (heap : Heap) : ∀ p ∈ (none : Option ScopeId), p.number < heap.frames.size := nofun
  have hstart : Reached start :=
    (Reached.start.call (.newScope (hnone _))).call (.newScope (hnone _))
  have hreached : Reached heap := hstart.call (.run 20 source (by decide) (by decide) hrun)
  have hframe (i : Nat) : (heap.frame? ⟨i⟩).map looks = scopes[i]? := by
    rw [← hlooks, List.getElem?_map, Array.getElem?_toList]
    rfl
  obtain ⟨top, htop, hlooks₀⟩ := Option.map_eq_some_iff.mp (hframe 0)
  obtain ⟨call, hcall, hlooks₃⟩ := Option.map_eq_some_iff.mp (hframe 3)
  obtain ⟨body, hbody, hlooks₄⟩ := Option.map_eq_some_iff.mp (hframe 4)
  simp only [looks, Prod.mk.injEq, Option.isSome_eq_false_iff, Option.isNone_iff_eq_none,
    ← Heap.find?_of_frame? htop, ← Heap.find?_of_frame? hcall, ← Heap.find?_of_frame? hbody]
    at hlooks₀ hlooks₃ hlooks₄
  have hchain : heap.Chain ⟨4⟩ [⟨4⟩, ⟨3⟩, ⟨0⟩] :=
    .inside hbody hlooks₄.1 (.inside hcall hlooks₃.1 (.outermost htop hlooks₀.1))
  obtain ⟨-, hcycle, -, -, -, hscopes⟩ := scope_chains_are_well_founded hreached
  obtain ⟨⟨chain, -, hunique, hmeaning⟩, hwalk, hbind⟩ :=
    hscopes ⟨4⟩ (Heap.number_lt_of_frame? hbody)
  obtain rfl := hunique _ hchain
  have hbind₀ (name : String) := hbind ⟨0⟩ name .null (Heap.number_lt_of_frame? htop)
  refine ⟨answer, heap, hrun, hreached, hcycle, hchain, ?walk, ?make, ?x⟩
  case walk =>
    rw [hwalk, hmeaning]
    simp [hlooks₄.2.1, hlooks₃.2.1]
  case make =>
    refine (hbind₀ "make").1 ⟨[⟨4⟩, ⟨3⟩], [], hchain, ?_⟩
    simp [hlooks₄.2.1, hlooks₃.2.1]
  case x =>
    by_contra hchanged
    obtain ⟨-, ⟨inner, outer, hmet, hinner⟩, -⟩ := ((hbind₀ "x").2 "x").mp hchanged
    -- The scope of the call stands in front of the one at the top.
    have hmem : (⟨3⟩ : ScopeId) ∈ inner := by
      have hsplit := hunique _ hmet
      rcases inner with _ | ⟨a, _ | ⟨b, rest⟩⟩ <;> simp_all
    rw [hinner _ hmem] at hlooks₃
    simp at hlooks₃

end QuoteScript
