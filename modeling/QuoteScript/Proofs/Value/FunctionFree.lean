import QuoteScript.Proofs.Eval.Splicing
import QuoteScript.Proofs.Value.Entries
import QuoteScript.Proofs.Value.Renaming

/-!
# `QuoteScript.Proofs.Value.FunctionFree`: values without functions in them

A tree is free of lambdas if no function and no macro is written in it.
A value is free of functions if it contains no closure, at any depth, and
if the trees that it quotes are free of lambdas, so that no closure can
come out of them either.

Nothing but the literal of a lambda makes a closure, and nothing but a
name takes one from where it is bound. So it is enough to look at one
scope that has no scope around it: what is evaluated there only sees what
is bound there. The other scopes of the heap may hold anything.

* `Node.LambdaFree`, `Value.FunctionFree`, `Heap.FunctionFree`: trees,
  values, and the bindings that can be seen from a scope.
* `Node.lambdaFree_refill`: a pass over a tree puts no lambda into it.
* `functionFree_applyIndex`, `Native.apply_functionFree`: what is taken
  out of values, and put together of them.
-/

set_option autoImplicit false

namespace QuoteScript

open EvalM

/-! ### Trees -/

/-- Whether a node is the literal of a function or of a macro. -/
def Node.isLambda : Node → Bool
  | .expr (.lambda _ _ _ _) => true
  | _ => false

/-- No function and no macro is written in a tree. -/
def Node.LambdaFree (t : Node) : Prop :=
  ∀ node ∈ t.postorder, node.isLambda = false

namespace Node

/-- A child is visited in the postorder of its parent. -/
theorem mem_postorder_of_mem_children {t c : Node} (hc : c ∈ t.children) : c ∈ t.postorder :=
  mem_postorder_of_child hc c.self_mem_postorder

/-- What holds of all nodes of a tree holds of the root, and of all nodes
of the trees below it. -/
theorem forall_mem_postorder_iff {P : Node → Prop} {t : Node} :
    (∀ node ∈ t.postorder, P node) ↔ P t ∧ ∀ c ∈ t.children, ∀ node ∈ c.postorder, P node := by
  constructor
  · intro h
    refine ⟨h t t.self_mem_postorder, fun c hc node hnode => ?_⟩
    exact h node (mem_postorder_of_child hc hnode)
  · rintro ⟨hroot, hparts⟩ node hnode
    rw [t.postorder_eq, List.mem_append, List.mem_flatMap, List.mem_singleton] at hnode
    obtain ⟨c, hc, hnode⟩ | rfl := hnode
    · exact hparts c hc node hnode
    · exact hroot

/-- A tree is free of lambdas if its root is none and the trees below the
root are free of them. -/
theorem lambdaFree_iff {t : Node} :
    t.LambdaFree ↔ t.isLambda = false ∧ ∀ c ∈ t.children, c.LambdaFree :=
  forall_mem_postorder_iff

/-- The children of a tree without lambdas have none. -/
theorem LambdaFree.child {t c : Node} (h : t.LambdaFree) (hc : c ∈ t.children) : c.LambdaFree :=
  (lambdaFree_iff.mp h).2 c hc

/-- A node is a lambda after its places are filled only if it was one. -/
theorem isLambda_refill (t : Node) (visits : List Visit) :
    (t.refill visits).isLambda = t.isLambda := by
  cases t with
  | program | stmt => rfl
  | block b => cases b; rfl
  | expr e =>
      show (Node.expr (e.refill visits)).isLambda = _
      unfold Expr.refill
      split <;> rfl

/-- A tree stays free of lambdas when trees without any are put into its
places. -/
theorem lambdaFree_refill {t : Node} {visits : List Visit} (ht : t.LambdaFree)
    (hfits : FitAll t.children visits) (hvisits : ∀ v ∈ visits, v.answer.LambdaFree) :
    (t.refill visits).LambdaFree := by
  rw [lambdaFree_iff, isLambda_refill, t.children_refill hfits]
  refine ⟨(lambdaFree_iff.mp ht).1, fun c hc => ?_⟩
  obtain ⟨v, hv, rfl⟩ := List.mem_map.mp hc
  exact hvisits v hv

/-- The argument of a call that splices is below the call. -/
theorem mem_children_of_unquotedArgument? {t : Node} {span : Span} {arg : Expr}
    (h : unquotedArgument? t = some (span, arg)) : .expr arg ∈ t.children := by
  unfold unquotedArgument? at h
  split at h
  · split at h
    · cases h
      exact List.mem_cons_of_mem _ List.mem_cons_self
    · cases h
  · cases h

end Node

/-- A name is no lambda. -/
theorem Expr.lambdaFree_ident (t : Token) (name : String) :
    (Node.expr (.ident t name)).LambdaFree :=
  Node.lambdaFree_iff.mpr ⟨rfl, nofun⟩

/-- Calling a name with one argument makes no lambda. -/
theorem Expr.lambdaFree_namedCall (t t' : Token) (name : String) {arg : Expr}
    (harg : (Node.expr arg).LambdaFree) :
    (Node.expr (.call t (.ident t' name) [arg])).LambdaFree :=
  Node.lambdaFree_iff.mpr ⟨rfl, List.forall_mem_cons.mpr
    ⟨lambdaFree_ident t' name, List.forall_mem_singleton.mpr harg⟩⟩

/-- The tree of an integer is free of lambdas. -/
theorem Expr.lambdaFree_ofInt (n : Int64) (span : Span) :
    (Node.expr (.ofInt n span)).LambdaFree := by
  have hint (n : Int64) : (Node.expr (.mkInt n span)).LambdaFree :=
    Node.lambdaFree_iff.mpr ⟨rfl, nofun⟩
  have hnegation (n : Int64) :
      (Node.expr (.mkUnary .negate (.mkInt n span) span)).LambdaFree :=
    Node.lambdaFree_iff.mpr ⟨rfl, List.forall_mem_singleton.mpr (hint n)⟩
  unfold Expr.ofInt
  split
  · exact hint n
  · split
    -- The least integer is a difference of a negation and one.
    · refine Node.lambdaFree_iff.mpr ⟨rfl, List.forall_mem_cons.mpr ⟨hnegation _, ?_⟩⟩
      exact List.forall_mem_singleton.mpr (hint 1)
    · exact hnegation _

/-! ### Values -/

/-- A value contains no closure, and what it quotes is an expression
without lambdas. -/
inductive Value.FunctionFree : Value → Prop where
  | plain {v : Value} (h : v.Plain) : FunctionFree v
  | quote {handle : Handle} {e : Expr} (h : (Node.expr e).LambdaFree) :
      FunctionFree (.quote handle (.expr e))
  | array {handle : Handle} {items : List Value} (h : ∀ v ∈ items, FunctionFree v) :
      FunctionFree (.array handle items)
  | dict {handle : Handle} {entries : List (Key × Value)}
      (h : ∀ entry ∈ entries, FunctionFree entry.2) : FunctionFree (.dict handle entries)
  | returned {v : Value} (h : FunctionFree v) : FunctionFree (.returned v)

namespace Value.FunctionFree

variable {v : Value} {handle : Handle}

/-- The items of an array without functions are without functions. -/
theorem items {items : List Value} (h : (Value.array handle items).FunctionFree) :
    ∀ v ∈ items, v.FunctionFree := by
  cases h with
  | plain h => cases h
  | array h => exact h

/-- So are the entries of a dict. -/
theorem entries {entries : List (Key × Value)} (h : (Value.dict handle entries).FunctionFree) :
    ∀ entry ∈ entries, entry.2.FunctionFree := by
  cases h with
  | plain h => cases h
  | dict h => exact h

/-- So is what a pending return holds. -/
theorem unwrapReturn (h : v.FunctionFree) : v.unwrapReturn.FunctionFree := by
  cases h with
  | returned h => exact h
  | plain h => cases h <;> exact .plain (by constructor)
  | quote h => exact .quote h
  | array h => exact .array h
  | dict h => exact .dict h

/-- A missing value counts as null. -/
theorem getD {o : Option Value} (h : ∀ v ∈ o, v.FunctionFree) : (o.getD .null).FunctionFree := by
  cases o with
  | none => exact .plain .null
  | some v => exact h v rfl

end Value.FunctionFree

/-- What a value is spliced as is an expression without lambdas. -/
theorem spliceValue_functionFree {v : Value} (h : v.FunctionFree) (span : Span) :
    ∃ o : Option Expr, spliceValue v span = pure (o.map .expr) ∧
      ∀ e ∈ o, (Node.expr e).LambdaFree := by
  cases h with
  | plain h =>
      cases h with
      | bool b =>
          refine ⟨some (.mkBool b span), rfl, fun e he => ?_⟩
          cases he
          cases b <;> exact Node.lambdaFree_iff.mpr ⟨rfl, List.forall_mem_nil _⟩
      | int n =>
          refine ⟨some (.ofInt n span), ?_, fun e he => ?_⟩
          · rw [spliceValue, spliceInt_eq]
            rfl
          · cases he
            exact Expr.lambdaFree_ofInt n span
      | _ => exact ⟨none, rfl, by simp⟩
  | @quote _ e h =>
      refine ⟨some e, rfl, fun e' he' => ?_⟩
      cases he'
      exact h
  -- No other value has a tree.
  | array | dict | returned => exact ⟨none, rfl, by simp⟩

/-- What is indexed hands out only what is in it. -/
theorem functionFree_applyIndex {v : Value} (h : v.FunctionFree) (index : Value) :
    (applyIndex v index).FunctionFree := by
  unfold applyIndex
  split
  · unfold itemAt
    split
    · exact .plain .null
    · exact .getD fun w hw => h.items w (List.mem_of_getElem? hw)
  · unfold valueAt
    split
    · exact .getD fun w hw => h.entries _ (mem_of_valueUnder? hw)
    · exact .plain (.fault _)
  · exact .plain (.fault _)

/-! ### Scopes -/

/-- A scope has no scope around it, and no function is bound in it. -/
def Heap.FunctionFree (heap : Heap) (scope : ScopeId) : Prop :=
  ∃ bindings, heap.frame? scope = some ⟨bindings, none⟩ ∧
    ∀ binding ∈ bindings, binding.2.FunctionFree

namespace Heap.FunctionFree

variable {heap : Heap} {scope : ScopeId}

/-- What a name means has no functions in it. -/
theorem lookup (h : heap.FunctionFree scope) {name : String} {v : Value}
    (hv : heap.lookup scope name = some v) : v.FunctionFree := by
  obtain ⟨bindings, hframe, hbindings⟩ := h
  rw [Heap.lookup, Heap.lookupFrom, hframe] at hv
  dsimp only at hv
  cases hfind : Frame.find? ⟨bindings, none⟩ name with
  | none =>
      -- There is no scope around this one.
      rw [hfind] at hv
      cases hv
  | some w =>
      rw [hfind] at hv
      cases hv
      obtain ⟨binding, hmem, rfl⟩ := Frame.mem_of_find? hfind
      exact hbindings binding hmem

/-- A value without functions may be bound. -/
theorem bind (h : heap.FunctionFree scope) (name : String) {v : Value} (hv : v.FunctionFree) :
    (heap.bind scope name v).FunctionFree scope := by
  obtain ⟨bindings, hframe, hbindings⟩ := h
  refine ⟨Frame.put name v bindings, Heap.frame?_bind_self hframe name v, fun binding hmem => ?_⟩
  rcases Frame.mem_put hmem with rfl | hold
  · exact hv
  · exact hbindings binding hold

/-- A new handle binds nothing. -/
theorem newHandle (h : heap.FunctionFree scope) : heap.newHandle.2.FunctionFree scope :=
  h

end Heap.FunctionFree

/-! ### Native functions -/

/-- A computation ends, whatever the heap, with a value without
functions; it makes handles, and touches no scope. -/
def EndsFunctionFree (x : EvalM Value) : Prop :=
  ∀ heap scope, heap.FunctionFree scope →
    ∃ v heap', x heap = .ok (v, heap') ∧ v.FunctionFree ∧ heap'.FunctionFree scope

namespace EndsFunctionFree

/-- A value without functions that is there. -/
theorem pure {v : Value} (h : v.FunctionFree) : EndsFunctionFree (Pure.pure v) :=
  fun heap _ hheap => ⟨v, heap, rfl, h, hheap⟩

/-- A new array of values without functions. -/
theorem newArray {items : List Value} (h : ∀ v ∈ items, v.FunctionFree) :
    EndsFunctionFree (EvalM.newArray items) :=
  fun _ _ hheap => ⟨_, _, rfl, .array h, hheap.newHandle⟩

/-- A new dict of such values. -/
theorem newDict {entries : List (Key × Value)} (h : ∀ entry ∈ entries, entry.2.FunctionFree) :
    EndsFunctionFree (EvalM.newDict entries) :=
  fun _ _ hheap => ⟨_, _, rfl, .dict h, hheap.newHandle⟩

end EndsFunctionFree

/-- A name is evaluated without a change to the heap, to a value without
functions. -/
theorem evalName_functionFree {heap : Heap} {scope : ScopeId} (hheap : heap.FunctionFree scope)
    (name : String) : ∃ v, evalName scope name heap = .ok (v, heap) ∧ v.FunctionFree := by
  have hlookup : EvalM.lookup scope name heap = .ok (heap.lookup scope name, heap) := rfl
  cases hv : heap.lookup scope name with
  | some v =>
      rw [hv] at hlookup
      exact ⟨v, bind_run hlookup, hheap.lookup hv⟩
  | none =>
      rw [hv] at hlookup
      cases hnative : Native.ofName? name with
      | some native =>
          -- A native function has no body: it is not one of those that are ruled out.
          refine ⟨.native native, (bind_run hlookup).trans ?_, .plain (.native native)⟩
          rw [hnative]
          rfl
      | none =>
          refine ⟨.fault (.unboundName name), (bind_run hlookup).trans ?_, .plain (.fault _)⟩
          rw [hnative]
          rfl

/-- A native function on an array. If it takes another argument, it is
there. -/
theorem Native.applyToArray_functionFree (native : Native) {items args : List Value}
    (hitems : ∀ v ∈ items, v.FunctionFree) (hargs : ∀ v ∈ args, v.FunctionFree)
    (harity : native.arity = args.length + 1) :
    EndsFunctionFree (native.applyToArray items args) := by
  cases native with
  | len => exact .pure (.plain (.int _))
  | typeof => exact .pure (.plain (.str _))
  | first => exact .pure (.getD fun v hv => hitems v (List.mem_of_head? hv))
  | last => exact .pure (.getD fun v hv => hitems v (List.mem_of_getLast? hv))
  | rest =>
      cases items with
      | nil => exact .pure (.plain .null)
      | cons v rest => exact .newArray (List.forall_mem_cons.mp hitems).2
  | push =>
      cases args with
      -- The arity leaves an argument to push.
      | nil => cases harity
      | cons v more =>
          have hv := List.forall_mem_singleton.mpr (hargs v List.mem_cons_self)
          exact .newArray (List.forall_mem_append.mpr ⟨hitems, hv⟩)

/-- A native function with as many arguments as it takes. -/
theorem Native.apply_functionFree (native : Native) {args : List Value}
    (hargs : ∀ v ∈ args, v.FunctionFree) (harity : native.arity = args.length) :
    EndsFunctionFree (native.apply args) := by
  cases args with
  | nil =>
      -- Every native function takes an argument.
      have hpos : 0 < native.arity := by cases native <;> decide
      rw [harity] at hpos
      cases hpos
  | cons v more =>
      obtain ⟨hv, hmore⟩ := List.forall_mem_cons.mp hargs
      unfold Native.apply
      split
      · contradiction
      · next heq =>
          cases heq
          exact native.applyToArray_functionFree hv.items hmore harity
      · split
        · exact .pure (.plain (.str _))
        · exact .pure (.plain (.int _))
        · exact .pure (.plain (.fault _))
        · exact .pure (.plain (.fault _))

/-- Calling a value without functions evaluates no body, so it does not
matter what evaluator there is. -/
theorem applyValue_functionFree {callee : Value} (hcallee : callee.FunctionFree)
    {args : List Value} (hargs : ∀ v ∈ args, v.FunctionFree) :
    ∃ x, EndsFunctionFree x ∧ ∀ eval, applyValue eval callee args = x := by
  -- Only a closure's body is evaluated, and there is none here: any evaluator will do.
  refine ⟨applyValue (fun _ _ => outOfFuel) callee args, ?_, fun eval => ?_⟩
  · unfold applyValue
    split
    · cases hcallee with
      | plain h => cases h
    · split
      · next harity => exact Native.apply_functionFree _ hargs harity
      · exact .pure (.plain (.fault _))
    · exact .pure (.plain (.fault _))
  · cases hcallee with
    | plain h => cases h <;> rfl
    | quote | array | dict | returned => rfl

end QuoteScript
