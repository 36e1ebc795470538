import QuoteScript.Proofs.Eval.Splicing
import QuoteScript.Proofs.Value.DistinctKeys
import QuoteScript.Proofs.Value.Renaming

/-!
# `QuoteScript.Proofs.Eval.Inherited`: what values have from their parts

Evaluation makes values of values in few ways: it puts them into an
array, puts pairs one after the other into a dict, and makes a pending
`return`; and it takes them out again. So a property that is handed on in
these ways, and that all other values have, is a property of every value
that is answered, as long as everything that is bound has it.

Nothing is asked of the tree that is evaluated, because there are no
values in trees. And a value that unwinds has the property like any other
one, so it makes no difference here where an evaluation stops.

What is known of values may grow with every handle that is given to a new
one. So it is kept in a *world*, and what holds of a value in a world
holds of it in all later ones. A property that does not grow has one
world only.

* `Inheritance`: what is handed on, in worlds.
* `Inheritance.Hands`: what is said of a computation.
* `Inheritance.evalWith`: one level of evaluation, given the levels
  below.
* `Inheritance.evalExpr`, `Inheritance.evalProgram`,
  `Inheritance.evalNode`: evaluation, by induction on the fuel.
* `Inherited`: the properties that are handed on in a single world.
* `inherited_distinctKeys`: no dict has a key twice.
-/

set_option autoImplicit false

namespace QuoteScript

open EvalM

/-- What a new handle is given to: a value that is made of values with
the property `P`. -/
inductive Makes (P : Value → Prop) : (Handle → Value) → Prop where
  | array {items : List Value} (h : ∀ v ∈ items, P v) : Makes P (.array · items)
  | dict {pairs : List (Key × Value)} (h : ∀ pair ∈ pairs, P pair.2) :
      Makes P (.dict · (dictOf pairs))
  | closure (kind : LambdaKind) (params : List String) (body : Block) (scope : ScopeId) :
      Makes P (.closure kind · params body scope)
  | quote (node : Node) : Makes P (.quote · node)

/-- What is known of values and of the heap in a world, handed on from
values to what is made of them, and from a world to later ones. -/
structure Inheritance where
  World : Type
  [order : Preorder World]
  heaps : World → Heap → Prop
  holds : World → Value → Prop
  holds_mono {w w' : World} {v : Value} (hle : w ≤ w') (h : holds w v) : holds w' v
  plain {w : World} {v : Value} (h : v.Plain) : holds w v
  returned {w : World} {v : Value} (h : holds w v) : holds w (.returned v)
  item {w : World} {handle : Handle} {items : List Value} (h : holds w (.array handle items)) :
    ∀ v ∈ items, holds w v
  entry {w : World} {handle : Handle} {entries : List (Key × Value)}
    (h : holds w (.dict handle entries)) : ∀ entry ∈ entries, holds w entry.2
  pending {w : World} {v : Value} (h : holds w (.returned v)) : holds w v
  empty : ∃ w, heaps w {}
  lookup {w : World} {heap : Heap} {scope : ScopeId} {name : String} {v : Value}
    (hheap : heaps w heap) (hv : heap.lookup scope name = some v) : holds w v
  bind {w : World} {heap : Heap} (hheap : heaps w heap) (scope : ScopeId) (name : String)
    {v : Value} (hv : holds w v) : heaps w (heap.bind scope name v)
  newScope {w : World} {heap : Heap} (hheap : heaps w heap) (parent : Option ScopeId) :
    heaps w (heap.newScope parent).2
  newHandle {w : World} {heap : Heap} (hheap : heaps w heap) {f : Handle → Value}
    (hf : Makes (holds w) f) :
    ∃ w', w ≤ w' ∧ heaps w' heap.newHandle.2 ∧ holds w' (f heap.newHandle.1)

attribute [instance] Inheritance.order

namespace Inheritance

/-- From the world on, `x` leads to a later one, where its answer has the
property `Q`. -/
def Hands (I : Inheritance) (w : I.World) {α : Type} (x : EvalM α) (Q : I.World → α → Prop) :
    Prop :=
  EvalM.Ensures (I.heaps w) x fun a heap => ∃ w', w ≤ w' ∧ I.heaps w' heap ∧ Q w' a

/-- An evaluator whose answers have the property. -/
def Evaluator (I : Inheritance) (eval : QuoteScript.Evaluator) : Prop :=
  ∀ w scope e, I.Hands w (eval scope e) I.holds

variable {I : Inheritance} {w w' : I.World} {α β : Type}

namespace Hands

variable {Q : I.World → α → Prop}

/-- An answer that has the property is handed back in the world there
is. -/
theorem pure {a : α} (h : Q w a) : I.Hands w (Pure.pure a) Q :=
  Ensures.pure fun _ hheap => ⟨w, le_rfl, hheap, h⟩

/-- Two computations in sequence: the worlds grow one behind the other. -/
theorem bind {x : EvalM α} {next : α → EvalM β} {R : I.World → β → Prop} (hx : I.Hands w x Q)
    (hnext : ∀ w' a, w ≤ w' → Q w' a → I.Hands w' (next a) R) : I.Hands w (x >>= next) R := by
  refine Ensures.bind hx fun a heap ⟨w', hle, hheap, ha⟩ => ?_
  have hrun := (hnext w' a hle ha).mono fun b after ⟨w'', hle', hafter, hb⟩ =>
    (⟨w'', hle.trans hle', hafter, hb⟩ : ∃ w'', w ≤ w'' ∧ I.heaps w'' after ∧ R w'' b)
  exact hrun heap hheap

/-- What is said of the answer may be weakened. -/
theorem mono {x : EvalM α} {R : I.World → α → Prop} (h : I.Hands w x Q)
    (hQ : ∀ w' a, Q w' a → R w' a) : I.Hands w x R :=
  Ensures.mono h fun _ _ ⟨w', hle, hheap, ha⟩ => ⟨w', hle, hheap, hQ w' _ ha⟩

end Hands

/-- What is answered from a world on, whatever world it is in. -/
def guarantee (I : Inheritance) (w : I.World) : Guarantee EvalM where
  gives x P := ∀ w', w ≤ w' → I.Hands w' x fun _ => P
  pure h _ _ := .pure h
  bind hx hnext w' hle := (hx w' hle).bind fun w'' a hle' ha => hnext a ha w'' (hle.trans hle')

/-! ### Operations that make values -/

section Values

/-- A new value that is made of values with the property has it, too. -/
theorem make {f : Handle → Value} (hf : Makes (I.holds w) f) :
    I.Hands w (EvalM.newHandle >>= fun a => Pure.pure (f a)) I.holds :=
  fun _ hheap => I.newHandle hheap hf

/-- A new array of values with the property. -/
theorem newArray {items : List Value} (h : ∀ v ∈ items, I.holds w v) :
    I.Hands w (EvalM.newArray items) I.holds :=
  make (.array h)

/-- A new dict of values with the property. -/
theorem newDict {pairs : List (Key × Value)} (h : ∀ pair ∈ pairs, I.holds w pair.2) :
    I.Hands w (EvalM.newDict (dictOf pairs)) I.holds :=
  make (.dict h)

/-- A new closure, of which the property asks nothing. -/
theorem newClosure (kind : LambdaKind) (params : List String) (body : Block) (scope : ScopeId) :
    I.Hands w (EvalM.newClosure kind params body scope) I.holds :=
  make (.closure kind params body scope)

/-- A new quote, of which it asks nothing either. -/
theorem newQuote (node : Node) : I.Hands w (EvalM.newQuote node) I.holds :=
  make (.quote node)

/-- A missing value counts as null, which is plain. -/
theorem getD {o : Option Value} (h : ∀ v ∈ o, I.holds w v) : I.holds w (o.getD .null) := by
  cases o with
  | none => exact I.plain .null
  | some v => exact h v rfl

/-- What a pending return holds has the property, if it has. -/
theorem unwrapReturn {v : Value} (h : I.holds w v) : I.holds w v.unwrapReturn := by
  cases v with
  | returned v => exact I.pending h
  | _ => exact h

/-- Values with the property keep it in a later world. -/
theorem mono_all {items : List Value} (hle : w ≤ w') (h : ∀ v ∈ items, I.holds w v) :
    ∀ v ∈ items, I.holds w' v :=
  fun v hv => I.holds_mono hle (h v hv)

/-- Infix operators answer with plain values. -/
theorem applyBinary (op : BinaryOp) (v u : Value) : I.Hands w (applyBinary op v u) I.holds := by
  obtain ⟨r, hr, heq⟩ := applyBinary_plain op v u
  rw [heq]
  exact .pure (I.plain hr)

/-- Indexing answers with a part of the operand, or with a plain value. -/
theorem applyIndex {v : Value} (hv : I.holds w v) (index : Value) :
    I.holds w (applyIndex v index) := by
  unfold QuoteScript.applyIndex
  split
  · unfold itemAt
    split
    · exact I.plain .null
    · exact getD fun u hu => I.item hv u (List.mem_of_getElem? hu)
  · unfold valueAt
    split
    · exact getD fun u hu => I.entry hv _ (mem_of_valueUnder? hu)
    · exact I.plain (.fault _)
  · exact I.plain (.fault _)

/-- A native function on an array. If it takes another argument, it is
there. -/
theorem applyToArray (native : Native) {items args : List Value} (hitems : ∀ v ∈ items, I.holds w v)
    (hargs : ∀ v ∈ args, I.holds w v) (harity : native.arity = args.length + 1) :
    I.Hands w (native.applyToArray items args) I.holds := by
  cases native with
  | len => exact .pure (I.plain (.int _))
  | typeof => exact .pure (I.plain (.str _))
  | first => exact .pure (getD fun v hv => hitems v (List.mem_of_head? hv))
  | last => exact .pure (getD fun v hv => hitems v (List.mem_of_getLast? hv))
  | rest =>
      cases items with
      | nil => exact .pure (I.plain .null)
      | cons v rest => exact newArray (List.forall_mem_cons.mp hitems).2
  | push =>
      cases args with
      -- The arity leaves an argument to push.
      | nil => cases harity
      | cons v more =>
          have hv := List.forall_mem_singleton.mpr (hargs v List.mem_cons_self)
          exact newArray (List.forall_mem_append.mpr ⟨hitems, hv⟩)

/-- A native function with as many arguments as it takes. -/
theorem applyNative (native : Native) {args : List Value} (hargs : ∀ v ∈ args, I.holds w v)
    (harity : native.arity = args.length) : I.Hands w (native.apply args) I.holds := by
  cases args with
  | nil =>
      -- Every native function takes an argument.
      have hpos : 0 < native.arity := by cases native <;> decide
      rw [harity] at hpos
      cases hpos
  | cons v more =>
      obtain ⟨hv, hmore⟩ := List.forall_mem_cons.mp hargs
      unfold Native.apply
      split
      · contradiction
      · next heq =>
          cases heq
          exact applyToArray native (I.item hv) hmore harity
      · split
        · exact .pure (I.plain (.str _))
        · exact .pure (I.plain (.int _))
        · exact .pure (I.plain (.fault _))
        · exact .pure (I.plain (.fault _))

end Values

/-! ### Names -/

section Names

variable (scope : ScopeId)

/-- Binding a value with the property. -/
theorem bindName (name : String) {v : Value} (hv : I.holds w v) :
    I.Hands w (EvalM.bindName scope name v) fun _ _ => True :=
  fun _ hheap => ⟨w, le_rfl, I.bind hheap scope name hv, trivial⟩

/-- Binding arguments with the property. -/
theorem bindAll (names : List String) {values : List Value} (h : ∀ v ∈ values, I.holds w v) :
    I.Hands w (EvalM.bindAll scope names values) fun _ _ => True := by
  induction names generalizing values w with
  | nil => exact .pure trivial
  | cons name names ih =>
      cases values with
      | nil => exact .pure trivial
      | cons v values =>
          obtain ⟨hv, hvalues⟩ := List.forall_mem_cons.mp h
          exact (bindName scope name hv).bind fun _ _ hle _ => ih (mono_all hle hvalues)

/-- A bound value has the property, since all of the heap has. -/
theorem lookupName (name : String) :
    I.Hands w (EvalM.lookup scope name) fun w' o => ∀ v ∈ o, I.holds w' v :=
  fun _ hheap => ⟨w, le_rfl, hheap, fun _ hv => I.lookup hheap hv⟩

/-- A name: a bound value, a native function or a fault. -/
theorem evalName (name : String) : I.Hands w (evalName scope name) I.holds := by
  refine (lookupName scope name).bind fun _ o _ ho => ?_
  cases o with
  | some v => exact .pure (ho v rfl)
  | none =>
      dsimp only
      split
      · exact .pure (I.plain (.native _))
      · exact .pure (I.plain (.fault _))

end Names

/-! ### Statements and calls -/

/-- The part that unwinds is the answer, and has the property like any
other. -/
theorem unlessUnwinding {x : EvalM Value} {next : Value → EvalM Value}
    (hx : I.Hands w x I.holds)
    (hnext : ∀ w' v, w ≤ w' → I.holds w' v → I.Hands w' (next v) I.holds) :
    I.Hands w (unlessUnwinding x next) I.holds := by
  refine hx.bind fun w' v hle hv => ?_
  split
  · exact .pure hv
  · exact hnext w' v hle hv

section Evaluation

variable {eval : QuoteScript.Evaluator} (heval : I.Evaluator eval) (scope : ScopeId)

include heval

/-- A statement. -/
theorem evalStmt (s : Stmt) :
    I.Hands w (evalStmt eval scope s) fun w' o => ∀ v ∈ o, I.holds w' v := by
  cases s with
  | letIn t name value =>
      refine (heval w scope value).bind fun w' v _ hv => ?_
      split
      · exact .pure fun u hu => Option.some.inj hu ▸ hv
      · exact (bindName scope name hv).bind fun _ _ _ _ => .pure nofun
  | ret t value =>
      refine (heval w scope value).bind fun w' v _ hv => ?_
      split
      · exact .pure fun u hu => Option.some.inj hu ▸ hv
      -- A pending return has the property of its value.
      · exact .pure fun u hu => Option.some.inj hu ▸ I.returned hv
  | expr t value =>
      exact (heval w scope value).bind fun w' v _ hv =>
        .pure fun u hu => Option.some.inj hu ▸ hv

/-- Statements one after the other. -/
theorem evalBody (body : List Stmt) {last : Option Value} (hlast : ∀ v ∈ last, I.holds w v) :
    I.Hands w (evalBody eval scope last body) fun w' o => ∀ v ∈ o, I.holds w' v := by
  induction body generalizing last w with
  | nil => exact .pure hlast
  | cons s rest ih =>
      refine (evalStmt heval scope s).bind fun w' v _ hv => ?_
      split
      · exact .pure hv
      · exact ih hv

/-- A block. -/
theorem evalBlock (b : Block) :
    I.Hands w (evalBlock eval scope b) fun w' o => ∀ v ∈ o, I.holds w' v :=
  evalBody heval scope b.body nofun

/-- A closure's body, in a new scope that holds the arguments. -/
theorem evalClosureBody (params : List String) (body : Block) (outer : ScopeId)
    {args : List Value} (hargs : ∀ v ∈ args, I.holds w v) :
    I.Hands w (evalClosureBody eval params body outer args) I.holds := by
  have hscope : I.Hands w (EvalM.newScope (some outer)) fun _ _ => True :=
    fun _ hheap => ⟨w, le_rfl, I.newScope hheap (some outer), trivial⟩
  refine hscope.bind fun _ inner hle _ => ?_
  refine (bindAll inner params (mono_all hle hargs)).bind fun _ _ _ _ => ?_
  refine (evalBlock heval inner body).bind fun _ o _ ho => .pure (getD fun v hv => ?_)
  obtain ⟨u, hu, rfl⟩ := Option.map_eq_some_iff.mp hv
  exact unwrapReturn (ho u hu)

/-- A call, whatever is called. -/
theorem applyValue (callee : Value) {args : List Value} (hargs : ∀ v ∈ args, I.holds w v) :
    I.Hands w (applyValue eval callee args) I.holds := by
  unfold QuoteScript.applyValue
  split
  · split
    · exact evalClosureBody heval _ _ _ hargs
    · exact .pure (I.plain (.fault _))
  · split
    · next harity => exact applyNative _ hargs harity
    · exact .pure (I.plain (.fault _))
  · exact .pure (I.plain (.fault _))

/-! ### Parts of expressions -/

/-- A quote is made of a tree, not of values. -/
theorem quoteNode (e : Expr) : I.Hands w (quoteNode (eval scope) (.expr e)) I.holds := by
  have hsplice : Preserves (I.guarantee w) .full (spliceCall (eval scope)) := by
    intro node _ w' _
    unfold spliceCall
    split
    · exact .pure node.over_full
    · next span arg _ =>
        refine (heval w' scope arg).bind fun w'' v _ _ => ?_
        have hspliced : I.Hands w'' (spliceValue v.unwrapReturn span) fun _ _ => True := by
          unfold spliceValue
          split
          · exact .pure trivial
          -- An integer is spliced without a defect, in one of its spellings.
          · rw [spliceInt_eq]
            exact .pure trivial
          · exact .pure trivial
          · exact .pure trivial
        exact hspliced.bind fun _ spliced _ _ => .pure (Node.over_full _)
  -- Nothing is asked of the tree, so the pass has only to keep the heap in order.
  have hpass := Node.transformM_expr_gives hsplice e.over_full (P := fun _ => True)
    fun e' _ w' hle => (hsplice (.expr e') e'.over_full w' hle).mono fun _ _ _ => trivial
  exact (hpass w le_rfl).bind fun _ node _ _ => newQuote node

/-- The values of all parts, or the one that unwinds. -/
theorem evalAll (es : List Expr) : I.Hands w (evalAll (eval scope) es) fun w' r =>
    (∀ values, r = .ok values → ∀ v ∈ values, I.holds w' v) ∧
      ∀ v, r = .error v → I.holds w' v := by
  induction es generalizing w with
  | nil => exact .pure ⟨fun values hvalues => by cases hvalues; exact nofun, nofun⟩
  | cons e rest ih =>
      refine (heval w scope e).bind fun w' v _ hv => ?_
      split
      · exact .pure ⟨nofun, fun u hu => Except.error.inj hu ▸ hv⟩
      · refine ih.bind fun w'' r hle hr => ?_
        cases r with
        | ok values =>
            refine .pure ⟨fun all hall => ?_, nofun⟩
            cases hall
            -- The first value is taken along into the world the others end in.
            exact List.forall_mem_cons.mpr ⟨I.holds_mono hle hv, hr.1 values rfl⟩
        | error u => exact .pure ⟨nofun, fun u' hu' => Except.error.inj hu' ▸ hr.2 u rfl⟩

/-- The pairs that are left are put behind those that are done. -/
theorem evalPairs (pairs : List (Expr × Expr)) {done : List (Key × Value)}
    (hdone : ∀ pair ∈ done, I.holds w pair.2) :
    I.Hands w (evalPairs (eval scope) (dictOf done) pairs) I.holds := by
  -- What is done so far is itself made of pairs, and one pair is added to them.
  induction pairs generalizing done w with
  | nil => exact newDict hdone
  | cons pair rest ih =>
      refine unlessUnwinding (heval w scope pair.1) fun w' k hle _ => ?_
      split
      · exact .pure (I.plain (.fault _))
      · next key _ =>
          refine unlessUnwinding (heval w' scope pair.2) fun w'' v hle' hv => ?_
          rw [← dictOf_append]
          have hkept : ∀ pair ∈ done, I.holds w'' pair.2 :=
            fun pair hpair => I.holds_mono (hle.trans hle') (hdone pair hpair)
          exact ih (List.forall_mem_append.mpr ⟨hkept, List.forall_mem_singleton.mpr hv⟩)

/-! ### Expressions -/

/-- One level of evaluation hands the property on if the levels below
do. -/
theorem evalWith (e : Expr) : I.Hands w (evalWith eval scope e) I.holds := by
  cases e with
  | ident t name => exact evalName scope name
  | int t n => exact .pure (I.plain (.int n))
  | str t s => exact .pure (I.plain (.str s))
  | bool t b => exact .pure (I.plain (.bool b))
  | unary t op operand =>
      refine unlessUnwinding (heval w scope operand) fun w' v _ _ => ?_
      exact .pure (I.plain (applyUnary_plain op v))
  -- Operators make plain values, whatever their operands are.
  | binary t op left right =>
      refine unlessUnwinding (heval w scope left) fun w' v _ _ => ?_
      exact unlessUnwinding (heval w' scope right) fun w'' u _ _ => applyBinary op v u
  | cond t condition consequence alternative =>
      refine unlessUnwinding (heval w scope condition) fun w' v _ _ => ?_
      split
      · exact (evalBlock heval scope consequence).bind fun _ o _ ho => .pure (getD ho)
      · cases alternative with
        | none => exact .pure (I.plain .null)
        | some b => exact (evalBlock heval scope b).bind fun _ o _ ho => .pure (getD ho)
  | lambda t kind params body => exact newClosure kind params body scope
  | call t callee args =>
      rw [QuoteScript.evalWith]
      split
      · next arg _ => exact quoteNode heval scope arg
      · refine unlessUnwinding (heval w scope callee) fun w' f _ _ => ?_
        refine (evalAll heval scope args).bind fun w'' r _ hr => ?_
        cases r with
        | ok values => exact applyValue heval f (hr.1 values rfl)
        | error v => exact .pure (hr.2 v rfl)
  | array t items =>
      refine (evalAll heval scope items).bind fun w' r _ hr => ?_
      cases r with
      | ok values => exact newArray (hr.1 values rfl)
      | error v => exact .pure (hr.2 v rfl)
  -- An item has the property because the array has it.
  | index t left index =>
      refine unlessUnwinding (heval w scope left) fun w' v _ hv => ?_
      exact unlessUnwinding (heval w' scope index) fun w'' i hle _ =>
        .pure (applyIndex (I.holds_mono hle hv) i)
  | dict t pairs =>
      have hnone : ∀ pair ∈ ([] : List (Key × Value)), I.holds w pair.2 := List.forall_mem_nil _
      exact evalPairs heval scope pairs hnone

end Evaluation

/-! ### Programs and nodes -/

variable (I)

/-- Evaluation hands the property on, with any fuel. -/
theorem evalExpr (fuel : Nat) : I.Evaluator (evalExpr fuel) := by
  induction fuel with
  | zero => exact fun _ _ _ => EvalM.Ensures.outOfFuel
  | succ fuel ih => exact fun _ scope e => evalWith ih scope e

/-- A program, and a pending return at its end is unwrapped. -/
theorem evalProgram (fuel : Nat) (scope : ScopeId) (program : Program) :
    I.Hands w (evalProgram fuel scope program) fun w' o => ∀ v ∈ o, I.holds w' v := by
  have hnone : ∀ v ∈ (none : Option Value), I.holds w v := nofun
  refine (evalBody (I.evalExpr fuel) scope program hnone).bind
    fun _ o _ ho => .pure fun v hv => ?_
  obtain ⟨u, hu, rfl⟩ := Option.map_eq_some_iff.mp hv
  exact unwrapReturn (ho u hu)

/-- Any node, as the expansion of a macro evaluates it. -/
theorem evalNode (fuel : Nat) (scope : ScopeId) (node : Node) :
    I.Hands w (evalNode fuel scope node) I.holds := by
  have heval := I.evalExpr fuel
  -- Whatever the node is, what it answers is unwrapped in the same way.
  have hparts {x : EvalM (Option Value)}
      (hx : I.Hands w x fun w' o => ∀ v ∈ o, I.holds w' v) :
      I.Hands w (x >>= fun o => Pure.pure (o.getD .null).unwrapReturn) I.holds :=
    hx.bind fun _ o _ ho => .pure (unwrapReturn (getD ho))
  cases node with
  | program p => exact hparts (I.evalProgram fuel scope p)
  | stmt s => exact hparts (evalStmt heval scope s)
  | block b => exact hparts (evalBlock heval scope b)
  | expr e =>
      exact hparts ((heval w scope e).bind fun _ v _ hv =>
        .pure fun u hu => Option.some.inj hu ▸ hv)

end Inheritance

/-! ### Properties that do not grow -/

/-- A property that arrays, dicts and pending returns have if the values
in them do, and that is handed on to these values. -/
structure Inherited (P : Value → Prop) : Prop where
  plain {v : Value} (h : v.Plain) : P v
  closure (kind : LambdaKind) (handle : Handle) (params : List String) (body : Block)
    (scope : ScopeId) : P (.closure kind handle params body scope)
  quote (handle : Handle) (node : Node) : P (.quote handle node)
  array {handle : Handle} {items : List Value} (h : ∀ v ∈ items, P v) : P (.array handle items)
  dict {handle : Handle} {pairs : List (Key × Value)} (h : ∀ pair ∈ pairs, P pair.2) :
    P (.dict handle (dictOf pairs))
  returned {v : Value} (h : P v) : P (.returned v)
  item {handle : Handle} {items : List Value} (h : P (.array handle items)) : ∀ v ∈ items, P v
  entry {handle : Handle} {entries : List (Key × Value)} (h : P (.dict handle entries)) :
    ∀ entry ∈ entries, P entry.2
  pending {v : Value} (h : P (.returned v)) : P v

/-- Distinct keys are handed on: a dict is made by putting one entry
after the other. -/
theorem inherited_distinctKeys : Inherited Value.DistinctKeys where
  plain h := by cases h <;> exact trivial
  closure _ _ _ _ _ := trivial
  quote _ _ := trivial
  array h := itemsDistinctKeys_iff.mpr h
  dict h := ⟨nodup_dictOf _, entriesDistinctKeys_iff.mpr fun entry hentry =>
    h entry (mem_of_mem_dictOf hentry)⟩
  returned h := h
  item h := itemsDistinctKeys_iff.mp h
  entry h := entriesDistinctKeys_iff.mp h.2
  pending h := h

variable {α : Type} {P : Value → Prop}

/-- As long as everything that is bound has the property `P`, this stays
so, and the answer has the property `Q`. -/
abbrev Hands (P : Value → Prop) (x : EvalM α) (Q : α → Prop) : Prop :=
  EvalM.Keeps (Heap.All P) x Q

/-- An evaluator whose answers have the property. -/
def Hands.Evaluator (P : Value → Prop) (eval : QuoteScript.Evaluator) : Prop :=
  ∀ scope e, Hands P (eval scope e) P

namespace Inherited

variable (hP : Inherited P)

include hP

/-- A value that is made of values with the property has it under any
handle. -/
theorem makes {f : Handle → Value} (hf : Makes P f) (handle : Handle) : P (f handle) := by
  cases hf with
  | array h => exact hP.array h
  | dict h => exact hP.dict h
  | closure => exact hP.closure ..
  | quote => exact hP.quote ..

/-- The property, in a single world. -/
def inheritance : Inheritance where
  World := Unit
  order := PUnit.instLinearOrder.toPreorder
  heaps _ := Heap.All P
  holds _ := P
  holds_mono _ h := h
  plain := hP.plain
  returned := hP.returned
  item := hP.item
  entry := hP.entry
  pending := hP.pending
  empty := ⟨(), Heap.all_empty⟩
  lookup hheap := hheap.lookup
  bind hheap := hheap.bind
  newScope hheap := hheap.newScope
  newHandle hheap _ hf := ⟨(), le_rfl, hheap, hP.makes hf _⟩

/-- A property of values alone needs no world. -/
theorem hands {x : EvalM α} {Q : α → Prop} (h : hP.inheritance.Hands () x fun _ => Q) :
    Hands P x Q :=
  EvalM.Ensures.mono h fun _ _ ⟨_, _, hheap, ha⟩ => ⟨hheap, ha⟩

/-- Evaluation hands a property of values on. -/
theorem evalExpr (fuel : Nat) : Hands.Evaluator P (evalExpr fuel) :=
  fun scope e => hP.hands (hP.inheritance.evalExpr fuel () scope e)

/-- So does the evaluation of a node. -/
theorem evalNode (fuel : Nat) (scope : ScopeId) (node : Node) :
    Hands P (evalNode fuel scope node) P :=
  hP.hands (hP.inheritance.evalNode fuel scope node)

end Inherited

end QuoteScript
