import QuoteScript.Eval.Expression
import QuoteScript.Proofs.Eval.Logic
import QuoteScript.Proofs.Scope.Correspondence

/-!
# `QuoteScript.Proofs.Eval.Simulation`: two evaluations side by side

Alike trees that are evaluated in corresponding heaps answer with
corresponding values, and leave corresponding heaps behind. Neither the
numbers of scopes and handles nor the tokens of a tree make a
difference, as long as the tokens tell what they stand for. Nor does
anything in the heaps that is not paired.

The two evaluations go in step: with the same fuel, one of them ends if
and only if the other one does.

* `EvalM.Simulates ρ x y P`: from heaps that correspond under `ρ`, both
  end in the same way, and the answers have the property `P`. There is
  one rule for each way in which computations are put together.
* `evalWith_simulates`: one level of evaluation, given the levels below.
* `evalExpr_simulates`: evaluation, by induction on the fuel.
* `evalProgram_simulates`: programs.
-/

set_option autoImplicit false

namespace QuoteScript

namespace EvalM

variable {α β γ δ : Type}

/-- From heaps that correspond under `ρ`, the two computations stop for
the same reason, or both of them end with an answer. Then the heaps
correspond under a pairing that has grown with them, and the answers
have the property `P` for it. -/
def Simulates (ρ : Pairing) (x : EvalM α) (y : EvalM β) (P : Pairing → α → β → Prop) : Prop :=
  ∀ heap heap', Heap.Corresponds ρ heap heap' →
    match x heap with
    | .ok (a, heap₁) => ∃ b heap₁' ρ', y heap' = .ok (b, heap₁') ∧
        ρ.Grows ρ' heap heap' heap₁ heap₁' ∧ Heap.Corresponds ρ' heap₁ heap₁' ∧ P ρ' a b
    | .error stop => y heap' = .error stop

namespace Simulates

variable {ρ : Pairing} {x : EvalM α} {y : EvalM β} {P : Pairing → α → β → Prop}

/-- If the first computation ends, so does the second one. -/
theorem of_run (h : Simulates ρ x y P) {heap heap' heap₁ : Heap}
    (hheaps : Heap.Corresponds ρ heap heap') {a : α} (hx : x heap = .ok (a, heap₁)) :
    ∃ b heap₁' ρ', y heap' = .ok (b, heap₁') ∧ ρ.Grows ρ' heap heap' heap₁ heap₁' ∧
      Heap.Corresponds ρ' heap₁ heap₁' ∧ P ρ' a b := by
  have hrun := h heap heap' hheaps
  rw [hx] at hrun
  exact hrun

/-- If the second computation ends, so does the first one. -/
theorem of_run' (h : Simulates ρ x y P) {heap heap' heap₁' : Heap}
    (hheaps : Heap.Corresponds ρ heap heap') {b : β} (hy : y heap' = .ok (b, heap₁')) :
    ∃ a heap₁ ρ', x heap = .ok (a, heap₁) ∧ ρ.Grows ρ' heap heap' heap₁ heap₁' ∧
      Heap.Corresponds ρ' heap₁ heap₁' ∧ P ρ' a b := by
  cases hx : x heap with
  | ok r =>
      obtain ⟨b', heap₂', ρ', hy', hrest⟩ := h.of_run hheaps hx
      cases hy.symm.trans hy'
      exact ⟨r.1, r.2, ρ', rfl, hrest⟩
  | error stop =>
      have hrun := h heap heap' hheaps
      rw [hx] at hrun
      cases hrun.symm.trans hy

/-- An answer that is there leaves the heaps as they are. -/
theorem pure {a : α} {b : β} (h : P ρ a b) : Simulates ρ (Pure.pure a) (Pure.pure b) P :=
  fun heap heap' hheaps => ⟨b, heap', ρ, rfl, .refl ρ heap heap', hheaps, h⟩

/-- Two computations in sequence, each pair from the heaps of the pair
before. -/
theorem bind {next : α → EvalM γ} {next' : β → EvalM δ} {Q : Pairing → γ → δ → Prop}
    (hx : Simulates ρ x y P)
    (hnext : ∀ ρ' a b, ρ ≤ ρ' → P ρ' a b → Simulates ρ' (next a) (next' b) Q) :
    Simulates ρ (x >>= next) (y >>= next') Q := by
  intro heap heap' hheaps
  have hrun := hx heap heap' hheaps
  cases hx : x heap with
  | error stop =>
      rw [hx] at hrun
      rw [bind_run_of_error hx]
      exact bind_run_of_error hrun
  | ok r =>
      rw [hx] at hrun
      obtain ⟨b, heap₁', ρ', hy, hgrows, hheaps', hab⟩ := hrun
      -- The second parts start where the first ones have ended.
      have hrest := hnext ρ' r.1 b hgrows.le hab r.2 heap₁' hheaps'
      rw [bind_run hx, bind_run hy]
      cases hnext : next r.1 r.2 with
      | error stop =>
          rw [hnext] at hrest
          exact hrest
      | ok r' =>
          rw [hnext] at hrest
          obtain ⟨d, heap₂', ρ'', hrun', hgrows', hheaps'', hcd⟩ := hrest
          exact ⟨d, heap₂', ρ'', hrun', hgrows.trans hgrows', hheaps'', hcd⟩

/-- Two computations that stop for the same reason. -/
theorem stop (stop : Stop) : Simulates ρ (throw stop : EvalM α) (throw stop : EvalM β) P :=
  fun _ _ _ => rfl

/-- In corresponding heaps nothing is paired twice. -/
theorem of_injective (h : ρ.Injective → Simulates ρ x y P) : Simulates ρ x y P :=
  fun heap heap' hheaps => h hheaps.injective heap heap' hheaps

end Simulates

/-- What is said about two passes over trees, from some pairing on. -/
def simulation (ρ : Pairing) : Coupling EvalM EvalM where
  relates x y P := ∀ ρ', ρ ≤ ρ' → Simulates ρ' x y fun _ => P
  pure h _ _ := .pure h
  bind hx hnext ρ' hle :=
    (hx ρ' hle).bind fun _ a b hle' hab => hnext a b hab _ (hle.trans hle')

end EvalM

open EvalM

variable {ρ ρ' : Pairing} {s s' : ScopeId} {v v' w w' : Value}

/-! ### The heap -/

/-- Two values, if they are there, correspond. -/
abbrev OptionCorresponds (ρ : Pairing) : Option Value → Option Value → Prop :=
  Option.Rel (Value.Corresponds ρ)

/-- The values of two lists correspond, one by one. -/
abbrev ItemsCorrespond (ρ : Pairing) : List Value → List Value → Prop :=
  List.Forall₂ (Value.Corresponds ρ)

/-- Two dicts have the same keys, and corresponding values under
them. -/
abbrev EntriesCorrespond (ρ : Pairing) : List (Key × Value) → List (Key × Value) → Prop :=
  List.Forall₂ (Keyed (Value.Corresponds ρ))

/-- Items that correspond do so under a larger pairing. -/
theorem ItemsCorrespond.mono {items items' : List Value} (h : ItemsCorrespond ρ items items')
    (hle : ρ ≤ ρ') : ItemsCorrespond ρ' items items' :=
  h.imp fun _ _ hv => hv.mono hle

/-- So do entries. -/
theorem EntriesCorrespond.mono {entries entries' : List (Key × Value)}
    (h : EntriesCorrespond ρ entries entries') (hle : ρ ≤ ρ') :
    EntriesCorrespond ρ' entries entries' :=
  h.imp fun _ _ ⟨hv⟩ => ⟨hv.mono hle⟩

/-- A name is bound in both scopes to values that correspond, or in
neither. -/
theorem lookup_simulates (hs : ρ.scope s s') (name : String) :
    Simulates ρ (EvalM.lookup s name) (EvalM.lookup s' name) OptionCorresponds :=
  fun heap heap' hheaps =>
    ⟨_, heap', ρ, rfl, .refl ρ heap heap', hheaps, hheaps.lookup hs name⟩

/-- Binding values that correspond keeps the heaps in correspondence. -/
theorem bindName_simulates (hs : ρ.scope s s') (name : String) (hv : Value.Corresponds ρ v v') :
    Simulates ρ (bindName s name v) (bindName s' name v') fun _ _ _ => True :=
  fun heap heap' hheaps =>
    ⟨(), _, ρ, rfl, .bind ρ heap heap' s s' name v v', hheaps.bind hs name hv, trivial⟩

/-- The new scopes are paired with each other. -/
theorem newScope_simulates (hs : ρ.scope s s') :
    Simulates ρ (EvalM.newScope (some s)) (EvalM.newScope (some s')) Pairing.scope :=
  fun heap heap' hheaps =>
    ⟨_, _, _, rfl, .newScope ρ heap heap' _ _, hheaps.newScope (.some hs), .inr ⟨rfl, rfl⟩⟩

/-- So are the new handles. -/
theorem newHandle_simulates : Simulates ρ EvalM.newHandle EvalM.newHandle Pairing.handle :=
  fun heap heap' hheaps =>
    ⟨_, _, _, rfl, .newHandle ρ heap heap', hheaps.newHandle, .inr ⟨rfl, rfl⟩⟩

/-- New arrays of items that correspond. -/
theorem newArray_simulates {items items' : List Value} (h : ItemsCorrespond ρ items items') :
    Simulates ρ (newArray items) (newArray items') Value.Corresponds :=
  newHandle_simulates.bind fun _ _ _ hle ha => .pure (.array ha (h.mono hle))

/-- New dicts of entries that correspond. -/
theorem newDict_simulates {entries entries' : List (Key × Value)}
    (h : EntriesCorrespond ρ entries entries') :
    Simulates ρ (newDict entries) (newDict entries') Value.Corresponds :=
  newHandle_simulates.bind fun _ _ _ hle ha => .pure (.dict ha (h.mono hle))

/-- New closures over paired scopes, of alike bodies. -/
theorem newClosure_simulates (hs : ρ.scope s s') (kind : LambdaKind) (params : List String)
    {body body' : Block} (hbody : Alike .telling (.block body) (.block body')) :
    Simulates ρ (newClosure kind params body s) (newClosure kind params body' s')
      Value.Corresponds :=
  newHandle_simulates.bind fun _ _ _ hle ha => .pure (.closure ha (hle.1 _ _ hs) hbody)

/-- New quotes of alike trees. -/
theorem newQuote_simulates {node node' : Node} (h : Alike .telling node.part node'.part) :
    Simulates ρ (newQuote node) (newQuote node') Value.Corresponds :=
  newHandle_simulates.bind fun _ _ _ _ ha => .pure (.quote ha h)

/-- Arguments that correspond, bound to the same parameters. -/
theorem bindAll_simulates (hs : ρ.scope s s') (names : List String) {values values' : List Value}
    (h : ItemsCorrespond ρ values values') :
    Simulates ρ (bindAll s names values) (bindAll s' names values') fun _ _ _ => True := by
  induction names generalizing ρ values values' with
  | nil => exact .pure trivial
  | cons name names ih =>
      cases h with
      | nil => exact .pure trivial
      | cons hv hrest =>
          exact (bindName_simulates hs name hv).bind fun _ _ _ hle _ =>
            ih (hle.1 _ _ hs) (ItemsCorrespond.mono hrest hle)

/-! ### Operators, indexing and native functions -/

/-- The same fault on both sides. -/
theorem corresponds_fault {f f' : Fault} (h : f = f') :
    Value.Corresponds ρ (.fault f) (.fault f') :=
  h ▸ .fault

/-- The same string on both sides. -/
theorem corresponds_str {a a' : String} (h : a = a') : Value.Corresponds ρ (.str a) (.str a') :=
  h ▸ .str

/-- A prefix operator answers alike. -/
theorem corresponds_applyUnary (op : UnaryOp) (hv : Value.Corresponds ρ v v') :
    Value.Corresponds ρ (applyUnary op v) (applyUnary op v') := by
  have hkind := hv.kind
  cases op with
  | not =>
      rw [applyUnary, applyUnary, hv.isTruthy]
      exact .bool
  | negate =>
      cases hv with
      | int => exact .int
      | _ => exact corresponds_fault (congrArg (Fault.unknownUnary .negate) hkind)

/-- Arithmetic has nothing to do with the heap. -/
theorem applyInts_simulates (op : BinaryOp) (a b : Int64) :
    Simulates ρ (applyInts op a b) (applyInts op a b) Value.Corresponds := by
  cases op with
  | add | subtract | multiply => exact .pure .int
  | less | greater | equal | notEqual => exact .pure .bool
  | divide =>
      by_cases hb : b = 0
      · rw [applyInts, if_pos hb]
        exact .pure .fault
      · rw [applyInts, if_neg hb, quotient, if_neg hb]
        exact .pure .int

/-- Nor have operators on strings. -/
theorem corresponds_applyStrings (op : BinaryOp) (a b : String) :
    Value.Corresponds ρ (applyStrings op a b) (applyStrings op a b) := by
  cases op with
  | add => exact .str
  | _ => exact .fault

/-- Handles that are paired one to one are equal on one side if and only
if they are on the other. -/
theorem corresponds_applyIdentity (hρ : ρ.Injective) (op : BinaryOp)
    (hv : Value.Corresponds ρ v v') (hw : Value.Corresponds ρ w w') :
    Value.Corresponds ρ (applyIdentity op v w) (applyIdentity op v' w') := by
  cases op with
  | equal | notEqual =>
      rw [applyIdentity, applyIdentity, hv.identical hρ hw]
      exact .bool
  | _ => exact corresponds_fault (congrArg (Fault.unknownBinary _) hv.kind)

/-- An infix operator answers alike, on operands of any kinds. -/
theorem applyBinary_simulates (op : BinaryOp) (hv : Value.Corresponds ρ v v')
    (hw : Value.Corresponds ρ w w') :
    Simulates ρ (applyBinary op v w) (applyBinary op v' w') Value.Corresponds := by
  refine .of_injective fun hρ => ?_
  rw [applyBinary.eq_def op v w]
  split
  · cases hv
    cases hw
    exact applyInts_simulates op _ _
  · cases hv
    cases hw
    exact .pure (corresponds_applyStrings op _ _)
  · next hints hstrings =>
      -- Neither are the operands on the other side two integers or two strings.
      have hints' : ∀ n m, v' = .int n → w' = .int m → False := by
        rintro n m rfl rfl
        cases hv
        cases hw
        exact hints _ _ rfl rfl
      have hstrings' : ∀ a b, v' = .str a → w' = .str b → False := by
        rintro a b rfl rfl
        cases hv
        cases hw
        exact hstrings _ _ rfl rfl
      rw [applyBinary.eq_3 op v' w' hints' hstrings', hv.kind, hw.kind]
      split
      · exact .pure (corresponds_applyIdentity hρ op hv hw)
      · exact .pure .fault

/-- The same place holds items that correspond, or lies outside of both
arrays. -/
theorem corresponds_itemAt {items items' : List Value} (h : ItemsCorrespond ρ items items')
    (i : Int64) : Value.Corresponds ρ (itemAt items i) (itemAt items' i) := by
  unfold itemAt
  split
  · exact .null
  · exact corresponds_getD (rel_getElem? h _)

/-- Keys are compared by what they are, so the same entry is found. -/
theorem corresponds_valueAt {entries entries' : List (Key × Value)}
    (h : EntriesCorrespond ρ entries entries') (hv : Value.Corresponds ρ v v') :
    Value.Corresponds ρ (valueAt entries v) (valueAt entries' v') := by
  unfold valueAt
  rw [hv.key?, hv.kind]
  split
  · exact corresponds_getD (rel_lookup h _)
  · exact .fault

/-- Indexing answers alike. -/
theorem corresponds_applyIndex (hv : Value.Corresponds ρ v v') (hw : Value.Corresponds ρ w w') :
    Value.Corresponds ρ (applyIndex v w) (applyIndex v' w') := by
  have hkind := hv.kind
  cases hv with
  | array ha hitems =>
      cases hw with
      | int => exact corresponds_itemAt hitems _
      | _ => exact .fault
  | dict ha hentries => exact corresponds_valueAt hentries hw
  | _ => exact corresponds_fault (congrArg Fault.notIndexable hkind)

/-- A native function on an array. -/
theorem Native.applyToArray_simulates (native : Native) {items items' args args' : List Value}
    (hitems : ItemsCorrespond ρ items items') (hargs : ItemsCorrespond ρ args args') :
    Simulates ρ (native.applyToArray items args) (native.applyToArray items' args')
      Value.Corresponds := by
  cases native with
  | len =>
      rw [applyToArray, applyToArray, hitems.length_eq]
      exact .pure .int
  -- First and last are places, and the same places hold items that correspond.
  | first =>
      rw [applyToArray, applyToArray, List.head?_eq_getElem?, List.head?_eq_getElem?]
      exact .pure (corresponds_getD (rel_getElem? hitems 0))
  | last =>
      rw [applyToArray, applyToArray, List.getLast?_eq_getElem?, List.getLast?_eq_getElem?,
        hitems.length_eq]
      exact .pure (corresponds_getD (rel_getElem? hitems _))
  | rest =>
      cases hitems with
      | nil => exact .pure .null
      | cons _ hrest => exact newArray_simulates hrest
  | push =>
      cases hargs with
      -- The arity is checked in front of this; both sides would stop.
      | nil => exact .stop _
      | cons hv _ => exact newArray_simulates (List.rel_append hitems (.cons hv .nil))
  | typeof => exact .pure .str

/-- A native function on any arguments. -/
theorem Native.apply_simulates (native : Native) {args args' : List Value}
    (h : ItemsCorrespond ρ args args') :
    Simulates ρ (native.apply args) (native.apply args') Value.Corresponds := by
  cases h with
  | nil => exact .stop _
  | cons hv hrest =>
      -- A fault names the kind of the argument, which is the same on both sides.
      have hkind := hv.kind
      cases hv with
      | array _ hitems => exact native.applyToArray_simulates hitems hrest
      | str =>
          cases native with
          | typeof => exact .pure .str
          | len => exact .pure .int
          | _ => exact .pure .fault
      | _ =>
          cases native with
          | typeof => exact .pure (corresponds_str (congrArg ValueKind.tag hkind))
          | len => exact .pure (corresponds_fault (congrArg Fault.noLength hkind))
          | _ => exact .pure (corresponds_fault (congrArg (Fault.notAnArray _) hkind))

/-! ### Quotation -/

/-- Two nodes, if they are there, are alike. -/
abbrev OptionAlike : Option Node → Option Node → Prop :=
  Option.Rel fun node node' => Alike .telling node.part node'.part

/-- An integer gives alike trees, wherever the spans lie. -/
theorem spliceInt_simulates (n : Int64) (span span' : Span) :
    Simulates ρ (spliceInt n span) (spliceInt n span') fun _ e e' =>
      Alike .telling (.expr e) (.expr e') := by
  unfold spliceInt
  by_cases hn : 0 ≤ n
  · rw [if_pos hn, if_pos hn]
    exact .pure (telling_mkInt n span span')
  · rw [if_neg hn, if_neg hn]
    by_cases hmin : n = Int64.minValue
    · rw [if_pos hmin, if_pos hmin]
      -- The least integer is spelled as a difference, since it has no literal.
      have hlargest := telling_mkInt Int64.maxValue span span'
      refine .pure (.binary (telling_fixed _ _ span span') ?_ (telling_mkInt 1 span span'))
      exact .unary (telling_fixed _ _ span span') hlargest
    · rw [if_neg hmin, if_neg hmin, opposite, if_neg hmin]
      exact .pure (.unary (telling_fixed _ _ span span') (telling_mkInt (-n) span span'))

/-- Values that correspond give alike trees, or none. -/
theorem spliceValue_simulates (hv : Value.Corresponds ρ v v') (span span' : Span) :
    Simulates ρ (spliceValue v span) (spliceValue v' span') fun _ => OptionAlike := by
  cases hv with
  | bool => exact .pure (.some (telling_mkBool _ span span'))
  | int => exact (spliceInt_simulates _ span span').bind fun _ _ _ _ he => .pure (.some he)
  | quote _ hnode => exact .pure (.some hnode)
  -- No other value has a tree.
  | _ => exact .pure .none

/-- Alike nodes are both calls that quote, with alike arguments, or
neither is. -/
theorem rel_quotedArgument? {f f' : Expr} {args args' : List Expr}
    (hf : Alike .telling (.expr f) (.expr f'))
    (hargs : Alike .telling (.exprs args) (.exprs args')) :
    Option.Rel (fun e e' => Alike .telling (.expr e) (.expr e')) (quotedArgument? f args)
      (quotedArgument? f' args') := by
  -- Only a name with one argument behind it is a quote.
  cases hf with
  | @ident _ _ name _ =>
      cases hargs with
      | noExprs => exact .none
      | exprs harg hrest =>
          cases hrest with
          | noExprs =>
              rw [quotedArgument?, quotedArgument?]
              split
              · exact .some harg
              · exact .none
          | exprs _ _ => exact .none
  | _ => exact .none

/-- The same for calls that splice. -/
theorem rel_unquotedArgument? {node node' : Node} (h : Alike .telling node.part node'.part) :
    Option.Rel (fun a a' => Alike .telling (.expr a.2) (.expr a'.2)) (unquotedArgument? node)
      (unquotedArgument? node') := by
  cases h.nodes with
  | expr he =>
      cases he with
      | @call _ _ f f' _ _ _ hf hargs =>
          cases hargs with
          | noExprs => exact .none
          | exprs harg hrest =>
              cases hrest with
              | noExprs =>
                  -- The literal of the token decides, and a telling token has that of its name.
                  have hiff := hf.unquotes_iff
                  rw [unquotedArgument?, unquotedArgument?]
                  by_cases hunquote : f.token.literal = "unquote"
                  · rw [if_pos hunquote, if_pos (hiff.mp hunquote)]
                    exact .some harg
                  · rw [if_neg hunquote, if_neg fun h => hunquote (hiff.mpr h)]
                    exact .none
              | exprs _ _ => exact .none
      | _ => exact .none
  | _ => exact .none

/-! ### Statements -/

/-- Alike expressions are evaluated to corresponding values, in paired
scopes of corresponding heaps. -/
def EvaluatorSimulates (eval eval' : Evaluator) : Prop :=
  ∀ ρ s s' e e', ρ.scope s s' → Alike .telling (.expr e) (.expr e') →
    Simulates ρ (eval s e) (eval' s' e') Value.Corresponds

/-- A part that unwinds ends both computations, and else both go on. -/
theorem unlessUnwinding_simulates {x y : EvalM Value} {next next' : Value → EvalM Value}
    (hx : Simulates ρ x y Value.Corresponds)
    (hnext : ∀ ρ' v v', ρ ≤ ρ' → Value.Corresponds ρ' v v' →
      Simulates ρ' (next v) (next' v') Value.Corresponds) :
    Simulates ρ (unlessUnwinding x next) (unlessUnwinding y next') Value.Corresponds := by
  refine hx.bind fun ρ' v v' hle hv => ?_
  rw [hv.isUnwinding]
  split
  · exact .pure hv
  · exact hnext ρ' v v' hle hv

/-- Both answers unwind, or neither does. -/
theorem unwinds_eq {o o' : Option Value} (h : OptionCorresponds ρ o o') :
    unwinds o = unwinds o' := by
  cases h with
  | some hv => exact hv.isUnwinding
  | none => rfl

/-- Unwrapping keeps to the correspondence. -/
theorem OptionCorresponds.unwrapReturn {o o' : Option Value} (h : OptionCorresponds ρ o o') :
    OptionCorresponds ρ (o.map Value.unwrapReturn) (o'.map Value.unwrapReturn) := by
  cases h with
  | some hv => exact .some hv.unwrapReturn
  | none => exact .none

section Evaluation

variable {eval eval' : Evaluator} (h : EvaluatorSimulates eval eval') (hs : ρ.scope s s')

include h hs

/-- Alike statements. -/
theorem evalStmt_simulates {st st' : Stmt} (hst : Alike .telling (.stmt st) (.stmt st')) :
    Simulates ρ (evalStmt eval s st) (evalStmt eval' s' st') OptionCorresponds := by
  cases hst with
  | letIn _ he =>
      refine (h ρ s s' _ _ hs he).bind fun ρ' v v' hle hv => ?_
      rw [hv.isUnwinding]
      split
      · exact .pure (.some hv)
      -- The scopes are still paired: a pairing only grows.
      · exact (bindName_simulates (hle.1 _ _ hs) _ hv).bind fun _ _ _ _ _ => .pure .none
  | ret _ he =>
      refine (h ρ s s' _ _ hs he).bind fun ρ' v v' hle hv => ?_
      rw [hv.isUnwinding]
      split
      · exact .pure (.some hv)
      · exact .pure (.some (.returned hv))
  | value _ he => exact (h ρ s s' _ _ hs he).bind fun _ _ _ _ hv => .pure (.some hv)

/-- Alike statements one after the other, up to the first that unwinds. -/
theorem evalBody_simulates {last last' : Option Value} (hlast : OptionCorresponds ρ last last')
    {body body' : List Stmt} (hbody : Alike .telling (.body body) (.body body')) :
    Simulates ρ (evalBody eval s last body) (evalBody eval' s' last' body') OptionCorresponds := by
  induction body generalizing ρ last last' body' with
  | nil =>
      cases hbody
      exact .pure hlast
  | cons st rest ih =>
      cases hbody with
      | stmts hst hrest =>
          refine (evalStmt_simulates h hs hst).bind fun ρ' v v' hle hv => ?_
          -- Both loops stop behind this statement, or both go on.
          rw [unwinds_eq hv]
          split
          · exact .pure hv
          · exact ih (hle.1 _ _ hs) hv hrest

/-- Alike blocks. -/
theorem evalBlock_simulates {b b' : Block} (hb : Alike .telling (.block b) (.block b')) :
    Simulates ρ (evalBlock eval s b) (evalBlock eval' s' b') OptionCorresponds := by
  cases hb with
  | block _ hbody => exact evalBody_simulates h hs .none hbody

/-! ### Calls -/

/-- Both bodies are evaluated in a scope of their own, and the two
scopes are paired from then on. -/
theorem evalClosureBody_simulates (params : List String) {body body' : Block}
    (hbody : Alike .telling (.block body) (.block body')) {args args' : List Value}
    (hargs : ItemsCorrespond ρ args args') :
    Simulates ρ (evalClosureBody eval params body s args)
      (evalClosureBody eval' params body' s' args') Value.Corresponds := by
  -- From here on the two new scopes are paired.
  refine (newScope_simulates hs).bind fun ρ₁ r r' hle hr => ?_
  refine (bindAll_simulates hr params (hargs.mono hle)).bind fun ρ₂ _ _ hle' _ => ?_
  refine (evalBlock_simulates h (hle'.1 _ _ hr) hbody).bind fun ρ₃ v v' _ hv => .pure ?_
  exact corresponds_getD hv.unwrapReturn

omit hs in
/-- A call, whatever is called. -/
theorem applyValue_simulates {callee callee' : Value} (hcallee : Value.Corresponds ρ callee callee')
    {args args' : List Value} (hargs : ItemsCorrespond ρ args args') :
    Simulates ρ (applyValue eval callee args) (applyValue eval' callee' args')
      Value.Corresponds := by
  have hkind := hcallee.kind
  have hlength := hargs.length_eq
  cases hcallee with
  | @closure kind _ _ params _ _ _ _ _ hs hbody =>
      cases kind with
      | macroRule => exact .pure .fault
      -- The arguments are as many on both sides, so the arity is right on both or wrong on both.
      | function =>
          rw [applyValue, applyValue, hlength]
          split
          · exact evalClosureBody_simulates h hs params hbody hargs
          · exact .pure .fault
  | @native native =>
      rw [applyValue, applyValue, hlength]
      split
      · exact native.apply_simulates hargs
      · exact .pure .fault
  | _ => exact .pure (corresponds_fault (congrArg Fault.notCallable hkind))

/-! ### Expressions -/

omit hs in
/-- Two passes that splice, from a pairing of the two scopes on. -/
theorem spliceCall_couples (hs : ρ.scope s s') :
    Couples (simulation ρ) .telling (spliceCall (eval s)) (spliceCall (eval' s')) := by
  intro node node' hnode ρ' hle
  have hargument := rel_unquotedArgument? hnode
  unfold spliceCall
  generalize unquotedArgument? node = argument, unquotedArgument? node' = argument' at hargument ⊢
  cases hargument with
  | none => exact .pure hnode
  | @some a a' harg =>
      obtain ⟨span, arg⟩ := a
      obtain ⟨span', arg'⟩ := a'
      refine (h ρ' s s' arg arg' (hle.1 _ _ hs) harg).bind fun ρ₁ v v' _ hv => ?_
      refine (spliceValue_simulates hv.unwrapReturn span span').bind fun _ o o' _ ho => .pure ?_
      -- A value without a tree leaves the call where it was.
      cases ho with
      | some ho => exact ho
      | none => exact hnode

/-- Quotes of alike trees, with the calls in them spliced or kept in the
same places. -/
theorem quoteNode_simulates {e e' : Expr} (he : Alike .telling (.expr e) (.expr e')) :
    Simulates ρ (quoteNode (eval s) (.expr e)) (quoteNode (eval' s') (.expr e'))
      Value.Corresponds := by
  have hpass :=
    Node.transformM_coupled (spliceCall_couples h hs) telling_names (.expr e) (.expr e') he
  exact (hpass ρ (le_refl ρ)).bind fun _ _ _ _ hnode => newQuote_simulates hnode

/-- The values of all parts, or the first one that unwinds. -/
inductive AllCorrespond (ρ : Pairing) : Except Value (List Value) → Except Value (List Value) → Prop
  where
  | ok {values values' : List Value} (h : ItemsCorrespond ρ values values') :
      AllCorrespond ρ (.ok values) (.ok values')
  | error {u u' : Value} (h : Value.Corresponds ρ u u') : AllCorrespond ρ (.error u) (.error u')

/-- Alike expressions one after the other, up to the first that unwinds. -/
theorem evalAll_simulates {es es' : List Expr} (hes : Alike .telling (.exprs es) (.exprs es')) :
    Simulates ρ (evalAll (eval s) es) (evalAll (eval' s') es') AllCorrespond := by
  induction es generalizing ρ es' with
  | nil =>
      cases hes
      exact .pure (.ok .nil)
  | cons e rest ih =>
      cases hes with
      | exprs he hrest =>
          refine (h ρ s s' _ _ hs he).bind fun ρ₁ v v' hle hv => ?_
          rw [hv.isUnwinding]
          split
          · exact .pure (.error hv)
          · refine (ih (hle.1 _ _ hs) hrest).bind fun ρ₂ r r' hle' hr => ?_
            cases hr with
            -- The first value was there before the heaps grew.
            | ok hvalues => exact .pure (.ok (.cons (hv.mono hle') hvalues))
            | error hu => exact .pure (.error hu)

/-- Alike pairs, behind entries that correspond. -/
theorem evalPairs_simulates {entries entries' : List (Key × Value)}
    (hentries : EntriesCorrespond ρ entries entries') {ps ps' : List (Expr × Expr)}
    (hps : Alike .telling (.pairs ps) (.pairs ps')) :
    Simulates ρ (evalPairs (eval s) entries ps) (evalPairs (eval' s') entries' ps')
      Value.Corresponds := by
  induction ps generalizing ρ entries entries' ps' with
  | nil =>
      cases hps
      exact newDict_simulates hentries
  | cons pair rest ih =>
      cases hps with
      | pairs hkey hvalue hrest =>
          refine unlessUnwinding_simulates (h ρ s s' _ _ hs hkey) fun ρ₁ k k' hle hk => ?_
          -- Keys hold neither scopes nor handles, so they are the same on both sides.
          rw [hk.key?, hk.kind]
          cases k'.key? with
          | none => exact .pure .fault
          | some key =>
              have hs₁ := hle.1 _ _ hs
              refine unlessUnwinding_simulates (h ρ₁ s s' _ _ hs₁ hvalue) fun ρ₂ v v' hle' hv => ?_
              have hmore := EntriesCorrespond.mono hentries (hle.trans hle')
              exact ih (hle'.1 _ _ hs₁) (forall₂_putEntry hmore key hv) hrest

omit h in
/-- A name in paired scopes, bound or not. -/
theorem evalName_simulates (name : String) :
    Simulates ρ (evalName s name) (evalName s' name) Value.Corresponds := by
  refine (lookup_simulates hs name).bind fun ρ' o o' _ ho => ?_
  cases ho with
  | some hv => exact .pure hv
  | none =>
      cases Native.ofName? name with
      | some native => exact .pure .native
      | none => exact .pure .fault

/-- One level of evaluation, if the levels below are simulated. -/
theorem evalWith_simulates {e e' : Expr} (he : Alike .telling (.expr e) (.expr e')) :
    Simulates ρ (evalWith eval s e) (evalWith eval' s' e') Value.Corresponds := by
  cases he with
  | ident _ => exact evalName_simulates hs _
  | int _ => exact .pure .int
  | str _ => exact .pure .str
  | bool _ => exact .pure .bool
  | unary _ ho =>
      exact unlessUnwinding_simulates (h ρ s s' _ _ hs ho) fun _ _ _ _ hv =>
        .pure (corresponds_applyUnary _ hv)
  | binary _ hl hr =>
      refine unlessUnwinding_simulates (h ρ s s' _ _ hs hl) fun ρ₁ v v' hle hv => ?_
      refine unlessUnwinding_simulates (h ρ₁ s s' _ _ (hle.1 _ _ hs) hr) fun _ w w' hle' hw => ?_
      exact applyBinary_simulates _ (hv.mono hle') hw
  | cond _ hc hb ha =>
      refine unlessUnwinding_simulates (h ρ s s' _ _ hs hc) fun ρ₁ v v' hle hv => ?_
      have hs₁ := hle.1 _ _ hs
      rw [hv.isTruthy]
      split
      · exact (evalBlock_simulates h hs₁ hb).bind fun _ _ _ _ ho => .pure (corresponds_getD ho)
      · cases ha with
        | noBranch => exact .pure .null
        | branch ha =>
            exact (evalBlock_simulates h hs₁ ha).bind fun _ _ _ _ ho => .pure (corresponds_getD ho)
  | lambda _ hb => exact newClosure_simulates hs _ _ hb
  | @call _ _ f f' args args' _ hf hargs =>
      -- Either both calls quote or neither does.
      have hquoted := rel_quotedArgument? hf hargs
      rw [evalWith, evalWith]
      generalize quotedArgument? f args = quoted, quotedArgument? f' args' = quoted' at hquoted ⊢
      cases hquoted with
      | some harg => exact quoteNode_simulates h hs harg
      | none =>
          refine unlessUnwinding_simulates (h ρ s s' _ _ hs hf) fun ρ₁ callee callee' hle hcallee =>
            ?_
          refine (evalAll_simulates h (hle.1 _ _ hs) hargs).bind fun ρ₂ r r' hle' hr => ?_
          cases hr with
          | ok hvalues => exact applyValue_simulates h (hcallee.mono hle') hvalues
          | error hu => exact .pure hu
  | array _ hitems =>
      refine (evalAll_simulates h hs hitems).bind fun ρ₁ r r' _ hr => ?_
      cases hr with
      | ok hvalues => exact newArray_simulates hvalues
      | error hu => exact .pure hu
  | index _ hl hi =>
      refine unlessUnwinding_simulates (h ρ s s' _ _ hs hl) fun ρ₁ v v' hle hv => ?_
      refine unlessUnwinding_simulates (h ρ₁ s s' _ _ (hle.1 _ _ hs) hi) fun _ w w' hle' hw => ?_
      exact .pure (corresponds_applyIndex (hv.mono hle') hw)
  | dict _ hps => exact evalPairs_simulates h hs .nil hps

end Evaluation

/-- Evaluation is simulated, with any fuel. -/
theorem evalExpr_simulates (fuel : Nat) : EvaluatorSimulates (evalExpr fuel) (evalExpr fuel) := by
  induction fuel with
  | zero => exact fun _ _ _ _ _ _ _ => .stop _
  | succ fuel ih => exact fun _ _ _ _ _ hs he => evalWith_simulates ih hs he

/-- Alike programs answer with corresponding values. -/
theorem evalProgram_simulates (fuel : Nat) (hs : ρ.scope s s') {program program' : Program}
    (h : Alike .telling (.body program) (.body program')) :
    Simulates ρ (evalProgram fuel s program) (evalProgram fuel s' program') OptionCorresponds :=
  (evalBody_simulates (evalExpr_simulates fuel) hs .none h).bind fun _ _ _ _ hv =>
    .pure hv.unwrapReturn

end QuoteScript
