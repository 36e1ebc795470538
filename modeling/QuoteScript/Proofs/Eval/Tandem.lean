import Mathlib.Order.Defs.PartialOrder
import QuoteScript.Eval.Expression
import QuoteScript.Proofs.Tree.Postorder
import QuoteScript.Proofs.Value.Renaming

/-!
# `QuoteScript.Proofs.Eval.Tandem`: an evaluation beside a renamed one

An evaluation gets to the heap through four operations: it looks a name
up, binds one, makes a scope inside another one, and makes a handle.
Everything else it does to values, and operations on values do not tell
a value from a renamed one. So whatever can be said about an evaluation
and about the evaluation of the same tree in a renamed scope, perhaps in
another heap, only has to be shown of the four operations.

A `Tandem` is such a statement about two computations: a relation that
is closed under sequencing and holds of the four operations. What is
known of the heap grows in the course of an evaluation, and is kept in a
*world*. The scopes that values capture are `known` in a world; the
scopes that something is evaluated in are `inside`, which may say more
about them.

No rule admits a defect. That an evaluation can be followed by a tandem
at all says that it never comes to one.

* `Tandem`: the relation and its rules.
* `Tandem.evalWith`: one level of evaluation, given the levels below.
* `Tandem.evalExpr`: evaluation, by induction on the fuel.
* `Tandem.evalProgram`, `Tandem.evalNode`: programs and nodes.
-/

set_option autoImplicit false

namespace QuoteScript

/-- A statement about a computation and a renamed one: `relates w x y P`
says that in the world `w` the answers of `x` and `y`, if there are any,
have the property `P` in some later world. -/
structure Tandem (σ : Renaming) where
  World : Type
  [order : Preorder World]
  known : World → ScopeId → Prop
  inside : World → ScopeId → Prop
  relates {α β : Type} (w : World) (x : EvalM α) (y : EvalM β) (P : World → α → β → Prop) : Prop
  known_mono {w w' : World} {s : ScopeId} : w ≤ w' → known w s → known w' s
  inside_mono {w w' : World} {s : ScopeId} : w ≤ w' → inside w s → inside w' s
  known_of_inside {w : World} {s : ScopeId} : inside w s → known w s
  pure {α β : Type} {w : World} {a : α} {b : β} {P : World → α → β → Prop} (h : P w a b) :
    relates w (pure a) (pure b) P
  bind {α β γ δ : Type} {w : World} {x : EvalM α} {y : EvalM β} {next : α → EvalM γ}
    {next' : β → EvalM δ} {P : World → α → β → Prop} {Q : World → γ → δ → Prop}
    (hx : relates w x y P)
    (hnext : ∀ w' a b, w ≤ w' → P w' a b → relates w' (next a) (next' b) Q) :
    relates w (x >>= next) (y >>= next') Q
  outOfFuel {α β : Type} {w : World} {P : World → α → β → Prop} :
    relates w (EvalM.outOfFuel : EvalM α) (EvalM.outOfFuel : EvalM β) P
  lookup {w : World} {s : ScopeId} (hs : inside w s) (name : String) :
    relates w (EvalM.lookup s name) (EvalM.lookup (σ.scope s) name) fun w o o' =>
      o' = o.map (Value.rename σ) ∧ ∀ v ∈ o, ∀ r, v.Captures r → known w r
  bindName {w : World} {s : ScopeId} (hs : inside w s) (name : String) {v : Value}
    (hv : ∀ r, v.Captures r → known w r) :
    relates w (EvalM.bindName s name v) (EvalM.bindName (σ.scope s) name (v.rename σ))
      fun _ _ _ => True
  newScope {w : World} {s : ScopeId} (hs : known w s) :
    relates w (EvalM.newScope (some s)) (EvalM.newScope (some (σ.scope s))) fun w r r' =>
      r' = σ.scope r ∧ inside w r
  newHandle {w : World} :
    relates w EvalM.newHandle EvalM.newHandle fun _ a a' => a' = σ.handle a

attribute [instance] Tandem.order

namespace Tandem

variable {σ : Renaming} (T : Tandem σ)

/-- The scopes that a value captures are known. -/
def Known (w : T.World) (v : Value) : Prop :=
  ∀ s, v.Captures s → T.known w s

/-- The other value is the renamed one, and nothing in it is unknown. -/
inductive Renames (w : T.World) : Value → Value → Prop where
  | of {v : Value} (h : T.Known w v) : Renames w v (v.rename σ)

/-- The same for a value that may be there. -/
inductive RenamesOption (w : T.World) : Option Value → Option Value → Prop where
  | of {o : Option Value} (h : ∀ v ∈ o, T.Known w v) :
      RenamesOption w o (o.map (Value.rename σ))

/-- The same for values in a list. -/
inductive RenamesItems (w : T.World) : List Value → List Value → Prop where
  | of {items : List Value} (h : ∀ v ∈ items, T.Known w v) :
      RenamesItems w items (items.map (Value.rename σ))

/-- The same for the values of all parts, or the first one that
unwinds. -/
inductive RenamesAll (w : T.World) : Except Value (List Value) → Except Value (List Value) → Prop
  where
  | ok {items items' : List Value} (h : T.RenamesItems w items items') :
      RenamesAll w (.ok items) (.ok items')
  | error {u u' : Value} (h : T.Renames w u u') : RenamesAll w (.error u) (.error u')

/-- What is said about two passes over trees, from a world on. -/
def coupling (w : T.World) : Coupling EvalM EvalM where
  relates x y P := ∀ w', w ≤ w' → T.relates w' x y fun _ => P
  pure h _ _ := T.pure h
  bind hx hnext w' hle :=
    T.bind (hx w' hle) fun _ a b hle' hab => hnext a b hab _ (hle.trans hle')

variable {T} {w w' : T.World} {v v' : Value} {s : ScopeId}

/-- What is known stays known in a later world. -/
theorem Known.mono (h : T.Known w v) (hle : w ≤ w') : T.Known w' v :=
  fun s hs => T.known_mono hle (h s hs)

/-- A value without scopes has nothing to be known. -/
theorem known_of_plain (h : v.Plain) : T.Known w v :=
  fun s hs => absurd hs (h.not_captures s)

namespace Renames

/-- A value renamed in one world is renamed in every later one. -/
theorem mono (h : T.Renames w v v') (hle : w ≤ w') : T.Renames w' v v' := by
  cases h with
  | of h => exact .of (h.mono hle)

/-- A value without scopes and handles is its own renaming. -/
theorem of_plain (h : v.Plain) : T.Renames w v v := by
  have hrenames : T.Renames w v (v.rename σ) := .of (known_of_plain h)
  rwa [h.rename] at hrenames

/-- Unwrapping a pending return keeps to the renaming. -/
theorem unwrapReturn (h : T.Renames w v v') : T.Renames w v.unwrapReturn v'.unwrapReturn := by
  cases h with
  | of h =>
      rw [Value.unwrapReturn_rename]
      exact .of fun s hs => h s hs.of_unwrapReturn

/-- A value unwinds if and only if the renamed one does. -/
theorem isUnwinding (h : T.Renames w v v') : v'.isUnwinding = v.isUnwinding := by
  cases h with
  | of => exact v.isUnwinding_rename

/-- A value is truthy if and only if the renamed one is. -/
theorem isTruthy (h : T.Renames w v v') : v'.isTruthy = v.isTruthy := by
  cases h with
  | of => exact v.isTruthy_rename

/-- A pending return is renamed with its value. -/
theorem returned (h : T.Renames w v v') : T.Renames w (.returned v) (.returned v') := by
  cases h with
  | of h =>
      refine .of (v := .returned v) fun s hs => ?_
      cases hs with
      | returned hs => exact h s hs

/-- A value that is there. -/
theorem some (h : T.Renames w v v') : T.RenamesOption w (some v) (some v') := by
  cases h with
  | of h =>
      refine .of (o := Option.some v) fun u hu => ?_
      cases hu
      exact h

end Renames

/-- No value is the renaming of none. -/
theorem RenamesOption.none : T.RenamesOption w none none :=
  .of nofun

/-- A missing value counts as null on both sides. -/
theorem RenamesOption.getD {o o' : Option Value} (h : T.RenamesOption w o o') :
    T.Renames w (o.getD .null) (o'.getD .null) := by
  cases h with
  | of h =>
      cases o with
      | none => exact .of_plain .null
      | some v => exact .of (h v rfl)

/-- Unwrapping keeps to the renaming, whether there is a value or not. -/
theorem RenamesOption.unwrapReturn {o o' : Option Value} (h : T.RenamesOption w o o') :
    T.RenamesOption w (o.map Value.unwrapReturn) (o'.map Value.unwrapReturn) := by
  cases h with
  | of h =>
      cases o with
      | none => exact .none
      | some v => exact (Renames.of (h v rfl)).unwrapReturn.some

/-- Both sides unwind, or neither does. -/
theorem RenamesOption.unwinds {o o' : Option Value} (h : T.RenamesOption w o o') :
    unwinds o' = unwinds o := by
  cases h with
  | of =>
      cases o with
      | none => rfl
      | some v => exact v.isUnwinding_rename

/-- Renamed values are as many as they were. -/
theorem RenamesItems.length {items items' : List Value} (h : T.RenamesItems w items items') :
    items'.length = items.length := by
  cases h with
  | of => exact List.length_map _

/-- No values are the renaming of none. -/
theorem RenamesItems.nil : T.RenamesItems w [] [] :=
  .of nofun

/-- Values renamed in one world are renamed in every later one. -/
theorem RenamesItems.mono {items items' : List Value} (h : T.RenamesItems w items items')
    (hle : w ≤ w') : T.RenamesItems w' items items' := by
  cases h with
  | of h => exact .of fun v hv => (h v hv).mono hle

/-- One more renamed value in front. -/
theorem RenamesItems.cons {items items' : List Value} (hv : T.Renames w v v')
    (h : T.RenamesItems w items items') : T.RenamesItems w (v :: items) (v' :: items') := by
  cases hv with
  | of hv =>
      cases h with
      | of h =>
          have hall : ∀ u ∈ v :: items, T.Known w u := List.forall_mem_cons.mpr ⟨hv, h⟩
          exact .of hall

/-! ### The heap -/

/-- Arrays of renamed values, under handles that are renamed as well. -/
theorem newArray {items items' : List Value} (h : T.RenamesItems w items items') :
    T.relates w (EvalM.newArray items) (EvalM.newArray items') T.Renames := by
  cases h with
  | of h =>
      refine T.bind T.newHandle fun w' a a' hle ha => T.pure ?_
      rw [ha, ← renameItems_eq_map]
      refine .of (v := .array a items) fun s hs => ?_
      cases hs with
      | item hv hs => exact T.known_mono hle (h _ hv s hs)

/-- Dicts of renamed entries. -/
theorem newDict {entries : List (Key × Value)} (h : ∀ entry ∈ entries, T.Known w entry.2) :
    T.relates w (EvalM.newDict entries) (EvalM.newDict (entries.map (renameUnder σ)))
      T.Renames := by
  refine T.bind T.newHandle fun w' a a' hle ha => T.pure ?_
  rw [ha, ← renameEntries_eq_map]
  refine .of (v := .dict a entries) fun s hs => ?_
  cases hs with
  | entry hv hs => exact T.known_mono hle (h _ hv s hs)

/-- Closures of the same tree over a scope and over the renamed one. -/
theorem newClosure (hs : T.known w s) (kind : LambdaKind) (params : List String) (body : Block) :
    T.relates w (EvalM.newClosure kind params body s)
      (EvalM.newClosure kind params body (σ.scope s)) T.Renames := by
  refine T.bind T.newHandle fun w' a a' hle ha => T.pure ?_
  rw [ha]
  refine .of (v := .closure kind a params body s) fun r hr => ?_
  cases hr
  exact T.known_mono hle hs

/-- Quotes of the same tree. -/
theorem newQuote (node : Node) :
    T.relates w (EvalM.newQuote node) (EvalM.newQuote node) T.Renames := by
  refine T.bind T.newHandle fun w' a a' _ ha => T.pure ?_
  rw [ha]
  exact .of (v := .quote a node) nofun

/-- A name is looked up to a value and to the renamed one. -/
theorem lookupName (hs : T.inside w s) (name : String) :
    T.relates w (EvalM.lookup s name) (EvalM.lookup (σ.scope s) name) T.RenamesOption := by
  have hrule : T.relates w (EvalM.lookup s name >>= Pure.pure)
      (EvalM.lookup (σ.scope s) name >>= Pure.pure) T.RenamesOption :=
    T.bind (T.lookup hs name) fun _ _ _ _ ⟨ho, hknown⟩ => T.pure (by rw [ho]; exact .of hknown)
  rwa [bind_pure, bind_pure] at hrule

/-- Renamed arguments are bound to the same parameters, one after the
other. -/
theorem bindAll (hs : T.inside w s) (names : List String) {values values' : List Value}
    (h : T.RenamesItems w values values') :
    T.relates w (EvalM.bindAll s names values) (EvalM.bindAll (σ.scope s) names values')
      fun _ _ _ => True := by
  cases h with
  | of h =>
      induction names generalizing w values with
      | nil => exact T.pure trivial
      | cons name names ih =>
          cases values with
          | nil => exact T.pure trivial
          | cons v rest =>
              -- Binding one name may move the world on, so the other values are carried along.
              obtain ⟨hv, hrest⟩ := List.forall_mem_cons.mp h
              exact T.bind (T.bindName hs name hv) fun w' _ _ hle _ =>
                ih (T.inside_mono hle hs) fun u hu => (hrest u hu).mono hle

/-! ### Operators, indexing and native functions -/

/-- A prefix operator cannot tell a value from the renamed one. -/
theorem applyUnary (op : UnaryOp) (hv : T.Renames w v v') :
    T.Renames w (applyUnary op v) (applyUnary op v') := by
  cases hv with
  | of hv =>
      rw [applyUnary_rename]
      exact .of_plain (applyUnary_plain op v)

/-- Nor can an infix operator. -/
theorem applyBinary (op : BinaryOp) {u u' : Value} (hv : T.Renames w v v')
    (hu : T.Renames w u u') :
    T.relates w (applyBinary op v u) (applyBinary op v' u') T.Renames := by
  cases hv with
  | of hv =>
      cases hu with
      | of hu =>
          obtain ⟨r, hplain, hr⟩ := applyBinary_plain op v u
          rw [applyBinary_rename, hr]
          exact T.pure (.of_plain hplain)

/-- Nor can indexing, which answers with a part of its operand or with
null. -/
theorem applyIndex {u u' : Value} (hv : T.Renames w v v') (hu : T.Renames w u u') :
    T.Renames w (applyIndex v u) (applyIndex v' u') := by
  cases hv with
  | of hv =>
      cases hu with
      | of hu =>
          rw [applyIndex_rename]
          exact .of fun s hs => hv s (captures_of_applyIndex hs)

/-- A native function on an array. If it takes another argument, it is
there. -/
theorem applyToArray (native : Native) {items items' args args' : List Value}
    (hitems : T.RenamesItems w items items') (hargs : T.RenamesItems w args args')
    (harity : native.arity = args.length + 1) :
    T.relates w (native.applyToArray items args) (native.applyToArray items' args')
      T.Renames := by
  cases hitems with
  | of hitems =>
      cases native with
      -- What an array answers is plain, one of its items, or a new array of them.
      | len =>
          rw [Native.applyToArray, Native.applyToArray, List.length_map]
          exact T.pure (.of_plain (.int _))
      | first =>
          rw [Native.applyToArray, Native.applyToArray, List.head?_map]
          exact T.pure (RenamesOption.of fun v hv => hitems v (List.mem_of_head? hv)).getD
      | last =>
          rw [Native.applyToArray, Native.applyToArray, List.getLast?_map]
          exact T.pure (RenamesOption.of fun v hv => hitems v (List.mem_of_getLast? hv)).getD
      | rest =>
          cases items with
          | nil => exact T.pure (.of_plain .null)
          | cons v rest => exact newArray (.of (List.forall_mem_cons.mp hitems).2)
      | push =>
          cases hargs with
          | of hargs =>
              cases args with
              -- The arity leaves an argument to push.
              | nil => cases harity
              | cons v more =>
                  have hv : ∀ u ∈ [v], T.Known w u :=
                    List.forall_mem_singleton.mpr (hargs v List.mem_cons_self)
                  have hall : T.RenamesItems w (items ++ [v])
                      ((items ++ [v]).map (Value.rename σ)) :=
                    .of (List.forall_mem_append.mpr ⟨hitems, hv⟩)
                  rw [List.map_append] at hall
                  exact newArray hall
      | typeof => exact T.pure (.of_plain (.str _))

/-- A native function on as many arguments as it takes. -/
theorem applyNative (native : Native) {args args' : List Value}
    (hargs : T.RenamesItems w args args') (harity : native.arity = args.length) :
    T.relates w (native.apply args) (native.apply args') T.Renames := by
  cases hargs with
  | of hargs =>
      cases args with
      -- No native function is called without arguments.
      | nil => cases native <;> cases harity
      | cons v more =>
          obtain ⟨hv, hmore⟩ := List.forall_mem_cons.mp hargs
          rw [List.map_cons]
          cases v with
          | array a items =>
              have hitems : T.RenamesItems w items (renameItems σ items) := by
                rw [renameItems_eq_map]
                exact .of fun v hmem s hs => hv s (.item hmem hs)
              exact applyToArray native hitems (.of hmore) harity
          -- Everything else has a name for its kind, and no length and no items.
          | closure kind =>
              cases native with
              | typeof => cases kind <;> exact T.pure (.of_plain (.str _))
              | _ => cases kind <;> exact T.pure (.of_plain (.fault _))
          | str =>
              cases native with
              | typeof => exact T.pure (.of_plain (.str _))
              | len => exact T.pure (.of_plain (.int _))
              | _ => exact T.pure (.of_plain (.fault _))
          | _ =>
              cases native with
              | typeof => exact T.pure (.of_plain (.str _))
              | _ => exact T.pure (.of_plain (.fault _))

/-! ### Statements -/

section Evaluation

/-- Two evaluators go in tandem: the second one is given the renamed
scope. -/
def Evaluators (T : Tandem σ) (eval eval' : Evaluator) : Prop :=
  ∀ w s e, T.inside w s → T.relates w (eval s e) (eval' (σ.scope s) e) T.Renames

variable {eval eval' : Evaluator}

/-- A part that unwinds ends both computations, and else both go on. -/
theorem unlessUnwinding {x y : EvalM Value} {next next' : Value → EvalM Value}
    (hx : T.relates w x y T.Renames)
    (hnext : ∀ w' v v', w ≤ w' → T.Renames w' v v' →
      T.relates w' (next v) (next' v') T.Renames) :
    T.relates w (unlessUnwinding x next) (unlessUnwinding y next') T.Renames := by
  refine T.bind hx fun w' v v' hle hv => ?_
  rw [hv.isUnwinding]
  split
  · exact T.pure hv
  · exact hnext w' v v' hle hv

variable (heval : T.Evaluators eval eval') (hs : T.inside w s)

include heval hs

/-- A statement in a scope and in the renamed one. -/
theorem evalStmt (st : Stmt) :
    T.relates w (evalStmt eval s st) (evalStmt eval' (σ.scope s) st) T.RenamesOption := by
  cases st with
  | letIn t name value =>
      refine T.bind (heval w s value hs) fun w' v v' hle hv => ?_
      rw [hv.isUnwinding]
      split
      · exact T.pure hv.some
      -- The value gets into the heap here, so all it captures has to be known.
      · cases hv with
        | of hknown =>
            exact T.bind (T.bindName (T.inside_mono hle hs) name hknown) fun _ _ _ _ _ =>
              T.pure .none
  | ret t value =>
      refine T.bind (heval w s value hs) fun w' v v' _ hv => ?_
      rw [hv.isUnwinding]
      split
      · exact T.pure hv.some
      · exact T.pure hv.returned.some
  | expr t value => exact T.bind (heval w s value hs) fun _ _ _ _ hv => T.pure hv.some

/-- Statements one after the other, up to the first that unwinds. -/
theorem evalBody {last last' : Option Value} (hlast : T.RenamesOption w last last')
    (body : List Stmt) :
    T.relates w (evalBody eval s last body) (evalBody eval' (σ.scope s) last' body)
      T.RenamesOption := by
  induction body generalizing w last last' with
  | nil => exact T.pure hlast
  | cons st rest ih =>
      refine T.bind (evalStmt heval hs st) fun w' o o' hle ho => ?_
      rw [ho.unwinds]
      split
      · exact T.pure ho
      · exact ih (T.inside_mono hle hs) ho

/-- A block. -/
theorem evalBlock (b : Block) :
    T.relates w (evalBlock eval s b) (evalBlock eval' (σ.scope s) b) T.RenamesOption :=
  evalBody heval hs .none b.body

/-! ### Calls -/

omit hs in
/-- A closure's body, in a new scope inside the captured one. -/
theorem evalClosureBody (hs : T.known w s) (params : List String) (body : Block)
    {args args' : List Value} (hargs : T.RenamesItems w args args') :
    T.relates w (evalClosureBody eval params body s args)
      (evalClosureBody eval' params body (σ.scope s) args') T.Renames := by
  refine T.bind (T.newScope hs) fun w₁ r r' hle hr => ?_
  -- The new scope is renamed, too, and the body is evaluated inside of it.
  obtain ⟨rfl, hinside⟩ := hr
  refine T.bind (bindAll hinside params (hargs.mono hle)) fun w₂ _ _ hle' _ => ?_
  refine T.bind (evalBlock heval (T.inside_mono hle' hinside) body) fun w₃ o o' _ ho => ?_
  exact T.pure ho.unwrapReturn.getD

omit hs in
/-- A call, whatever is called. -/
theorem applyValue {callee callee' : Value} (hcallee : T.Renames w callee callee')
    {args args' : List Value} (hargs : T.RenamesItems w args args') :
    T.relates w (applyValue eval callee args) (applyValue eval' callee' args') T.Renames := by
  have hlength : args'.length = args.length := hargs.length
  cases hcallee with
  | of hknown =>
      cases callee with
      | closure kind a params body outer =>
          cases kind with
          | macroRule => exact T.pure (.of_plain (.fault _))
          | function =>
              rw [Value.rename, QuoteScript.applyValue, QuoteScript.applyValue, hlength]
              split
              -- The closure captures the scope that its body is evaluated inside of.
              · exact evalClosureBody heval (hknown outer .closure) params body hargs
              · exact T.pure (.of_plain (.fault _))
      | native native =>
          rw [Value.rename, QuoteScript.applyValue, QuoteScript.applyValue, hlength]
          split
          · next harity => exact applyNative native hargs harity
          · exact T.pure (.of_plain (.fault _))
      | _ => exact T.pure (.of_plain (.fault _))

/-! ### Quotation -/

omit heval hs in
/-- The tree of an integer, without a defect. -/
theorem spliceInt (n : Int64) (span : Span) :
    T.relates w (spliceInt n span) (spliceInt n span) fun _ => Eq := by
  unfold QuoteScript.spliceInt
  by_cases hn : 0 ≤ n
  · rw [if_pos hn]
    exact T.pure rfl
  · rw [if_neg hn]
    by_cases hmin : n = Int64.minValue
    · rw [if_pos hmin]
      exact T.pure rfl
    · rw [if_neg hmin, opposite, if_neg hmin]
      exact T.pure rfl

omit heval hs in
/-- A value gives the same tree as the renamed one, since no tree holds
a number. -/
theorem spliceValue (hv : T.Renames w v v') (span : Span) :
    T.relates w (spliceValue v span) (spliceValue v' span) fun _ => Eq := by
  cases hv with
  | of =>
      cases v with
      | int n => exact T.bind (spliceInt n span) fun _ _ _ _ he => T.pure (by rw [he])
      | _ => exact T.pure rfl

omit heval hs in
/-- One call of a quote, spliced or kept on both sides. -/
theorem spliceCall {eval eval' : Expr → EvalM Value} {node : Node}
    (heval : ∀ e, T.relates w (eval e) (eval' e) T.Renames) :
    T.relates w (spliceCall eval node) (spliceCall eval' node) fun _ => Eq := by
  unfold QuoteScript.spliceCall
  cases unquotedArgument? node with
  | none => exact T.pure rfl
  | some argument =>
      refine T.bind (heval argument.2) fun w' v v' _ hv => ?_
      refine T.bind (spliceValue hv.unwrapReturn argument.1) fun _ o o' _ ho => T.pure ?_
      rw [ho]

/-- A quote's pass over its tree. -/
theorem quoteNode (node : Node) :
    T.relates w (quoteNode (eval s) node) (quoteNode (eval' (σ.scope s)) node) T.Renames := by
  have hpass : ∀ node, (T.coupling w).relates (QuoteScript.spliceCall (eval s) node)
      (QuoteScript.spliceCall (eval' (σ.scope s)) node) Eq := fun node w' hle =>
    spliceCall fun e => heval w' s e (T.inside_mono hle hs)
  -- No number gets into a tree, so what is quoted is the same tree on both sides.
  refine T.bind (Node.transformM_relates hpass node w le_rfl) fun _ a b _ hab => ?_
  rw [hab]
  exact newQuote b

/-! ### Expressions -/

/-- Arguments and items, up to the first that unwinds. -/
theorem evalAll (es : List Expr) :
    T.relates w (evalAll (eval s) es) (evalAll (eval' (σ.scope s)) es) T.RenamesAll := by
  induction es generalizing w with
  | nil => exact T.pure (.ok .nil)
  | cons e rest ih =>
      refine T.bind (heval w s e hs) fun w₁ v v' hle hv => ?_
      rw [hv.isUnwinding]
      split
      · exact T.pure (.error hv)
      · refine T.bind (ih (T.inside_mono hle hs)) fun w₂ r r' hle' hr => ?_
        cases hr with
        | ok hitems => exact T.pure (.ok (.cons (hv.mono hle') hitems))
        | error hu => exact T.pure (.error hu)

/-- The pairs of a dict, behind entries that are there already. -/
theorem evalPairs {entries : List (Key × Value)} (hentries : ∀ entry ∈ entries, T.Known w entry.2)
    (pairs : List (Expr × Expr)) :
    T.relates w (evalPairs (eval s) entries pairs)
      (evalPairs (eval' (σ.scope s)) (entries.map (renameUnder σ)) pairs) T.Renames := by
  induction pairs generalizing w entries with
  | nil => exact newDict hentries
  | cons pair rest ih =>
      refine unlessUnwinding (heval w s pair.1 hs) fun w₁ k k' hle hk => ?_
      cases hk with
      | of =>
          rw [Value.key?_rename, Value.kind_rename]
          cases k.key? with
          | none => exact T.pure (.of_plain (.fault _))
          | some key =>
              have hs₁ := T.inside_mono hle hs
              refine unlessUnwinding (heval w₁ s pair.2 hs₁) fun w₂ v v' hle' hv => ?_
              cases hv with
              | of hv =>
                  rw [putEntry_rename]
                  refine ih (T.inside_mono hle' hs₁) fun entry hentry => ?_
                  -- The new entry is known now, the others have been known before.
                  rcases mem_putEntry hentry with heq | hold
                  · rw [heq]
                    exact hv
                  · exact (hentries entry hold).mono (hle.trans hle')

omit heval in
/-- A name is bound in both scopes, or it names the same native
function, or it is unknown. -/
theorem evalName (name : String) :
    T.relates w (evalName s name) (evalName (σ.scope s) name) T.Renames := by
  refine T.bind (lookupName hs name) fun w' o o' _ ho => ?_
  cases ho with
  | of ho =>
      cases o with
      | some v => exact T.pure (.of (ho v rfl))
      | none =>
          dsimp only [Option.map_none]
          cases Native.ofName? name with
          | some native => exact T.pure (.of_plain (.native native))
          | none => exact T.pure (.of_plain (.fault _))

/-- One level of evaluation, if the levels below go in tandem. -/
theorem evalWith (e : Expr) :
    T.relates w (evalWith eval s e) (evalWith eval' (σ.scope s) e) T.Renames := by
  cases e with
  | ident t name => exact evalName hs name
  | int t n => exact T.pure (.of_plain (.int n))
  | str t a => exact T.pure (.of_plain (.str a))
  | bool t b => exact T.pure (.of_plain (.bool b))
  | unary t op operand =>
      exact unlessUnwinding (heval w s operand hs) fun _ _ _ _ hv => T.pure (applyUnary op hv)
  -- The left value is older than the right one: the world has moved on in between.
  | binary t op left right =>
      refine unlessUnwinding (heval w s left hs) fun w₁ v v' hle hv => ?_
      refine unlessUnwinding (heval w₁ s right (T.inside_mono hle hs)) fun w₂ u u' hle' hu => ?_
      exact applyBinary op (hv.mono hle') hu
  | cond t condition consequence alternative =>
      refine unlessUnwinding (heval w s condition hs) fun w₁ v v' hle hv => ?_
      have hs₁ := T.inside_mono hle hs
      rw [hv.isTruthy]
      split
      · exact T.bind (evalBlock heval hs₁ consequence) fun _ _ _ _ ho => T.pure ho.getD
      · cases alternative with
        | none => exact T.pure (.of_plain .null)
        | some b => exact T.bind (evalBlock heval hs₁ b) fun _ _ _ _ ho => T.pure ho.getD
  | lambda t kind params body => exact newClosure (T.known_of_inside hs) kind params body
  | call t callee args =>
      rw [QuoteScript.evalWith, QuoteScript.evalWith]
      -- Whether a call quotes is read off the tree, which is the same on both sides.
      cases quotedArgument? callee args with
      | some arg => exact quoteNode heval hs (.expr arg)
      | none =>
          refine unlessUnwinding (heval w s callee hs) fun w₁ f f' hle hf => ?_
          refine T.bind (evalAll heval (T.inside_mono hle hs) args) fun w₂ r r' hle' hr => ?_
          cases hr with
          | ok hitems => exact applyValue heval (hf.mono hle') hitems
          | error hu => exact T.pure hu
  | array t items =>
      refine T.bind (evalAll heval hs items) fun w₁ r r' _ hr => ?_
      cases hr with
      | ok hitems => exact newArray hitems
      | error hu => exact T.pure hu
  | index t left i =>
      refine unlessUnwinding (heval w s left hs) fun w₁ v v' hle hv => ?_
      refine unlessUnwinding (heval w₁ s i (T.inside_mono hle hs)) fun w₂ u u' hle' hu => ?_
      exact T.pure (applyIndex (hv.mono hle') hu)
  | dict t pairs => exact evalPairs heval hs (List.forall_mem_nil _) pairs

end Evaluation

/-- Evaluation goes in tandem, with any fuel. -/
theorem evalExpr (T : Tandem σ) (fuel : Nat) : T.Evaluators (evalExpr fuel) (evalExpr fuel) := by
  induction fuel with
  | zero => exact fun _ _ _ _ => T.outOfFuel
  | succ fuel ih =>
      -- The levels below have one unit of fuel less, on both sides.
      exact fun _ _ e hs => evalWith ih hs e

/-! ### Programs and nodes -/

/-- A program, and a pending return at its end is unwrapped. -/
theorem evalProgram (fuel : Nat) (hs : T.inside w s) (program : Program) :
    T.relates w (evalProgram fuel s program) (evalProgram fuel (σ.scope s) program)
      T.RenamesOption :=
  T.bind (evalBody (T.evalExpr fuel) hs .none program) fun _ _ _ _ ho => T.pure ho.unwrapReturn

/-- Any node, as the expansion of a macro evaluates it. -/
theorem evalNode (fuel : Nat) (hs : T.inside w s) (node : Node) :
    T.relates w (evalNode fuel s node) (evalNode fuel (σ.scope s) node) T.Renames := by
  have heval := T.evalExpr fuel
  unfold QuoteScript.evalNode
  cases node with
  | program p =>
      exact T.bind (evalProgram fuel hs p) fun _ _ _ _ ho => T.pure ho.getD.unwrapReturn
  | stmt st =>
      exact T.bind (evalStmt heval hs st) fun _ _ _ _ ho => T.pure ho.getD.unwrapReturn
  | block b =>
      exact T.bind (evalBlock heval hs b) fun _ _ _ _ ho => T.pure ho.getD.unwrapReturn
  | expr e =>
      -- An expression always has a value.
      have hvalue : T.relates w (some <$> QuoteScript.evalExpr fuel s e)
          (some <$> QuoteScript.evalExpr fuel (σ.scope s) e) T.RenamesOption := by
        rw [map_eq_pure_bind, map_eq_pure_bind]
        exact T.bind (heval w s e hs) fun _ _ _ _ hv => T.pure hv.some
      exact T.bind hvalue fun _ _ _ _ ho => T.pure ho.getD.unwrapReturn

end Tandem

end QuoteScript
