import QuoteScript.Eval.Expression
import QuoteScript.Proofs.Eval.Logic
import QuoteScript.Proofs.Value.Stored

/-!
# `QuoteScript.Proofs.Eval.Stored`: evaluation keeps what is stored in order

The invariant of evaluation is that everything that is bound may be
stored: no pending `return` and no fault is bound or part of an array
or a dict, and closures and quotes hold trees over the lexicon.

Evaluation of a tree over the lexicon keeps the invariant, and answers
with a value that may be stored, a pending `return` of one, or a fault.
Names come from trees, but integers do not: a value may be spliced into
a tree. So the lexicon has to hold all integers that are not negative.

* `Safe L x P`: `x` keeps the invariant and answers with `P`.
* `evalWith_safe`: one level of evaluation, given the levels below.
* `evalExpr_safe`: evaluation, by induction on the fuel.
-/

set_option autoImplicit false

namespace QuoteScript

/-- A lexicon that holds the integer literals that are spliced into
trees. -/
def Lexicon.Splices (L : Lexicon) : Prop :=
  ∀ n : Int64, 0 ≤ n → L.int n

variable {α β : Type} {L : Lexicon}

/-- `x` keeps everything that is bound in order, and its answer has the
property `P`. -/
abbrev Safe (L : Lexicon) (x : EvalM α) (P : α → Prop) : Prop :=
  EvalM.Keeps (Heap.Over L) x P

namespace Safe

/-! ### Primitives -/

/-- What is bound in the heap is over the lexicon. -/
theorem lookup (scope : ScopeId) (name : String) :
    Safe L (EvalM.lookup scope name) fun v => ∀ w, v = some w → w.Over L :=
  fun _ hheap => ⟨hheap, fun _ hw => hheap.lookup hw⟩

/-- A value over the lexicon may be bound. -/
theorem bindName (scope : ScopeId) (name : String) {v : Value} (hv : v.Over L) :
    Safe L (EvalM.bindName scope name v) fun _ => True :=
  fun _ hheap => ⟨hheap.bind scope name hv, trivial⟩

/-- A new scope binds nothing. -/
theorem newScope (parent : Option ScopeId) : Safe L (EvalM.newScope parent) fun _ => True :=
  fun _ hheap => ⟨hheap.newScope parent, trivial⟩

/-- A new handle is not a value yet. -/
theorem newHandle : Safe L EvalM.newHandle fun _ => True :=
  fun _ hheap => ⟨hheap.newHandle, trivial⟩

/-- An array of items over the lexicon. -/
theorem newArray {items : List Value} (h : itemsOver L items) :
    Safe L (EvalM.newArray items) (Value.Over L) :=
  newHandle.bind fun _ _ => .pure h

/-- A dict of entries over the lexicon. -/
theorem newDict {entries : List (Key × Value)} (h : entriesOver L entries) :
    Safe L (EvalM.newDict entries) (Value.Over L) :=
  newHandle.bind fun _ _ => .pure h

/-- A closure with its parameters and its body over the lexicon. -/
theorem newClosure (kind : LambdaKind) {params : List String} {body : Block} (scope : ScopeId)
    (hparams : ∀ name ∈ params, L.name name) (hbody : body.Over L) :
    Safe L (EvalM.newClosure kind params body scope) (Value.Over L) :=
  newHandle.bind fun _ _ => .pure ⟨hparams, hbody⟩

/-- A quote of a tree that may be quoted. -/
theorem newQuote {node : Node} (h : node.Quotable L) :
    Safe L (EvalM.newQuote node) (Value.Over L) :=
  newHandle.bind fun _ _ => .pure h

/-- Arguments over the lexicon may be bound. -/
theorem bindAll (scope : ScopeId) (names : List String) {values : List Value}
    (h : itemsOver L values) : Safe L (EvalM.bindAll scope names values) fun _ => True := by
  induction names generalizing values with
  | nil => exact .pure trivial
  | cons name names ih =>
      cases values with
      | nil => exact .pure trivial
      | cons v values => exact (bindName scope name h.1).bind fun _ _ => ih h.2

end Safe

/-! ### Operators and indexing -/

/-- Prefix operators make booleans, integers and faults. -/
theorem answer_applyUnary (op : UnaryOp) (v : Value) : (applyUnary op v).Answer L := by
  unfold applyUnary
  split
  · exact .stored trivial
  · exact .stored trivial
  · exact .fault _

/-- No quotient by zero is taken: the divisor is looked at before. -/
theorem applyInts_safe (op : BinaryOp) (a b : Int64) :
    Safe L (applyInts op a b) (Value.Answer L) := by
  cases op with
  | divide =>
      by_cases hb : b = 0
      · rw [applyInts, if_pos hb]
        exact .pure (.fault _)
      · rw [applyInts, if_neg hb, quotient, if_neg hb]
        exact .pure (.stored trivial)
  | _ => exact .pure (.stored trivial)

/-- Operators on strings make strings and faults. -/
theorem answer_applyStrings (op : BinaryOp) (a b : String) :
    (applyStrings op a b).Answer L := by
  unfold applyStrings
  split
  · exact .stored trivial
  · exact .fault _

/-- Comparisons make booleans and faults. -/
theorem answer_applyIdentity (op : BinaryOp) (a b : Value) :
    (applyIdentity op a b).Answer L := by
  unfold applyIdentity
  split
  · exact .stored trivial
  · exact .stored trivial
  · exact .fault _

/-- Infix operators answer with something over the lexicon. -/
theorem applyBinary_safe (op : BinaryOp) (a b : Value) :
    Safe L (applyBinary op a b) (Value.Answer L) := by
  unfold applyBinary
  split
  · exact applyInts_safe op _ _
  · exact .pure (answer_applyStrings op _ _)
  · split
    · exact .pure (answer_applyIdentity op _ _)
    · exact .pure (.fault _)

/-- The value under a key is one of those of the dict. -/
theorem answer_valueAt {entries : List (Key × Value)} (h : entriesOver L entries) (i : Value) :
    (valueAt entries i).Answer L := by
  unfold valueAt
  split
  · next key _ =>
      cases hlookup : valueUnder? key entries with
      | none => exact .stored trivial
      | some v =>
          obtain ⟨before, behind, rfl, -⟩ := List.lookup_eq_some_iff.mp hlookup
          exact .stored (entriesOver_iff.mp h (key, v)
            (List.mem_append_right before List.mem_cons_self))
  · exact .fault _

/-- An item of an array over the lexicon, or null. -/
theorem answer_itemAt {items : List Value} (h : itemsOver L items) (i : Int64) :
    (itemAt items i).Answer L := by
  unfold itemAt
  split
  · exact .stored trivial
  · cases hitem : items[i.toInt.toNat]? with
    | none => exact .stored trivial
    | some v => exact .stored (itemsOver_iff.mp h v (List.mem_of_getElem? hitem))

/-- A part of a value over the lexicon, null or a fault. -/
theorem answer_applyIndex {v : Value} (hv : v.Over L) (i : Value) :
    (applyIndex v i).Answer L := by
  unfold applyIndex
  split
  · exact answer_itemAt hv _
  · exact answer_valueAt hv _
  · exact .fault _

/-! ### Native functions -/

/-- A native function on an array. Only `push` looks behind the array,
and takes one argument more. -/
theorem Native.applyToArray_safe (native : Native) {items args : List Value}
    (hitems : itemsOver L items) (hargs : itemsOver L args)
    (harity : native.arity = args.length + 1) :
    Safe L (native.applyToArray items args) (Value.Answer L) := by
  cases native with
  | len => exact .pure (.stored trivial)
  | typeof => exact .pure (.stored trivial)
  | first =>
      cases items with
      | nil => exact .pure (.stored trivial)
      | cons v rest => exact .pure (.stored hitems.1)
  | last =>
      refine .pure ?_
      cases hlast : items.getLast? with
      | none => exact .stored trivial
      | some v => exact .stored (itemsOver_iff.mp hitems v (List.mem_of_getLast? hlast))
  | rest =>
      cases items with
      | nil => exact .pure (.stored trivial)
      | cons v rest => exact (Safe.newArray hitems.2).mono fun _ => .stored
  | push =>
      cases args with
      -- The arity leaves an argument to push.
      | nil => cases harity
      | cons v more =>
          have happend : itemsOver L (items ++ [v]) := by
            rw [itemsOver_iff] at hitems ⊢
            intro w hw
            rcases List.mem_append.mp hw with hw | hw
            · exact hitems w hw
            · cases List.mem_singleton.mp hw
              exact hargs.1
          exact (Safe.newArray happend).mono fun _ => .stored

/-- A native function with as many arguments as it takes. -/
theorem Native.apply_safe (native : Native) {args : List Value} (hargs : itemsOver L args)
    (harity : native.arity = args.length) : Safe L (native.apply args) (Value.Answer L) := by
  cases args with
  | nil =>
      -- Every native function takes an argument.
      have hpos : 0 < native.arity := by cases native <;> decide
      rw [harity] at hpos
      cases hpos
  | cons v more =>
      unfold apply
      split
      · contradiction
      · next heq =>
          cases heq
          exact native.applyToArray_safe hargs.1 hargs.2 harity
      · next heq =>
          cases heq
          split
          · exact .pure (.stored trivial)
          · exact .pure (.stored trivial)
          · exact .pure (.fault _)
          · exact .pure (.fault _)

/-! ### Quotation -/

/-- The opposite of a negative integer is positive, if the smallest
integer is left out. -/
theorem opposite_nonneg {n : Int64} (hn : ¬ 0 ≤ n) (hmin : n ≠ Int64.minValue) : 0 ≤ -n := by
  have hpos : ¬ -n ≤ 0 := by
    rw [Int64.neg_nonpos_iff]
    exact not_or.mpr ⟨hmin, hn⟩
  exact Int64.le_of_lt (Int64.not_le.mp hpos)

/-- The tree of an integer has no negative literal in it. -/
theorem spliceInt_safe (hL : L.Splices) (n : Int64) (span : Span) :
    Safe L (spliceInt n span) (Expr.Over L) := by
  unfold spliceInt
  by_cases hn : 0 ≤ n
  · rw [if_pos hn]
    exact .pure (hL n hn)
  · rw [if_neg hn]
    by_cases hmin : n = Int64.minValue
    · rw [if_pos hmin]
      exact .pure ⟨hL _ (by decide), hL _ (by decide)⟩
    · rw [if_neg hmin, opposite, if_neg hmin]
      exact .pure (hL (-n) (opposite_nonneg hn hmin))

/-- The tree of a value may be quoted. -/
theorem spliceValue_safe (hL : L.Splices) {v : Value} (hv : v.Answer L) (span : Span) :
    Safe L (spliceValue v span) fun node => ∀ n, node = some n → n.Quotable L := by
  unfold spliceValue
  split
  · next b =>
      refine .pure fun n hn => ?_
      cases hn
      exact ⟨by cases b <;> exact trivial, .inl ⟨_, rfl⟩⟩
  · next i =>
      refine (spliceInt_safe hL i span).bind fun e he => .pure fun n hn => ?_
      cases hn
      exact ⟨he, .inl ⟨e, rfl⟩⟩
  · next node =>
      refine .pure fun n hn => ?_
      cases hn
      -- What is quoted may be quoted again, and that is what the lexicon keeps of it.
      cases hv with
      | stored hv => exact hv
  · exact .pure nofun

/-- An evaluator that keeps everything that is bound in order, on trees
over the lexicon. -/
def SafeEvaluator (L : Lexicon) (eval : Evaluator) : Prop :=
  ∀ scope (e : Expr), e.Over L → Safe L (eval scope e) (Value.Outcome L)

/-- The argument of a call that splices is a part of the call. -/
theorem over_of_unquotedArgument? {node : Node} {span : Span} {arg : Expr}
    (h : unquotedArgument? node = some (span, arg)) (hnode : node.Over L) : arg.Over L := by
  unfold unquotedArgument? at h
  split at h
  · next token callee arg' =>
      split at h
      · cases h
        exact hnode.2.1
      · cases h
  · cases h

/-- What is quoted is an argument of the call. -/
theorem over_of_quotedArgument? {callee : Expr} {args : List Expr} {arg : Expr}
    (h : quotedArgument? callee args = some arg) (hargs : exprsOver L args) : arg.Over L := by
  unfold quotedArgument? at h
  split at h
  · split at h
    · cases h
      exact hargs.1
    · cases h
  · cases h

section Quotation

variable {eval : Evaluator} (hL : L.Splices) (heval : SafeEvaluator L eval) (scope : ScopeId)

include hL heval

/-- A node that may be quoted may still be quoted when its root has
been spliced. -/
theorem spliceCall_quotable {node : Node} (h : node.Quotable L) :
    Safe L (spliceCall (eval scope) node) (Node.Quotable L) := by
  unfold spliceCall
  cases hcall : unquotedArgument? node with
  | none => exact .pure h
  | some call =>
      obtain ⟨span, arg⟩ := call
      have harg := over_of_unquotedArgument? hcall h.1
      refine (heval scope arg harg).bind fun v hv => ?_
      refine (spliceValue_safe hL hv.unwrapReturn span).bind fun spliced hspliced => .pure ?_
      -- A value without a tree leaves the call where it was.
      cases spliced with
      | none => exact h
      | some n => exact hspliced n rfl

/-- Splicing keeps nodes over the lexicon. -/
theorem spliceCall_preserves :
    Preserves (EvalM.keeps (Heap.Over L)) L (spliceCall (eval scope)) := by
  intro node hnode
  unfold spliceCall
  cases hcall : unquotedArgument? node with
  | none => exact .pure hnode
  | some call =>
      obtain ⟨span, arg⟩ := call
      -- The argument is a part of the quoted tree, and so over the lexicon.
      have harg := over_of_unquotedArgument? hcall hnode
      refine (heval scope arg harg).bind fun v hv => ?_
      refine (spliceValue_safe hL hv.unwrapReturn span).bind fun spliced hspliced => .pure ?_
      cases spliced with
      | none => exact hnode
      | some n => exact (hspliced n rfl).1

/-- Quoting an expression gives a quote that may be stored. -/
theorem quoteNode_safe {e : Expr} (he : e.Over L) :
    Safe L (quoteNode (eval scope) (.expr e)) (Value.Over L) := by
  have hpass := Node.transformM_expr_gives (spliceCall_preserves hL heval scope) he
    (P := Node.Quotable L) fun e' he' => spliceCall_quotable hL heval scope ⟨he', .inl ⟨e', rfl⟩⟩
  exact EvalM.Keeps.bind hpass fun node hnode => Safe.newQuote hnode

end Quotation

/-! ### Statements -/

/-- A value that unwinds is the answer; any other one may be stored. -/
theorem unlessUnwinding_safe {x : EvalM Value} {next : Value → EvalM Value}
    (hx : Safe L x (Value.Outcome L)) (hnext : ∀ v, v.Over L → Safe L (next v) (Value.Outcome L)) :
    Safe L (unlessUnwinding x next) (Value.Outcome L) := by
  refine hx.bind fun v hv => ?_
  by_cases hunwinding : v.isUnwinding = true
  · rw [if_pos hunwinding]
    exact .pure hv
  · rw [if_neg hunwinding]
    exact hnext v (hv.over (eq_false_of_ne_true hunwinding))

/-- What a statement answers, if it has a value. -/
def OptionalOutcome (L : Lexicon) (v : Option Value) : Prop :=
  ∀ w, v = some w → w.Outcome L

/-- A missing value counts as null. -/
theorem OptionalOutcome.getD {v : Option Value} (h : OptionalOutcome L v) :
    (v.getD .null).Outcome L := by
  cases v with
  | none => exact .stored trivial
  | some w => exact h w rfl

section Evaluation

variable {eval : Evaluator} (heval : SafeEvaluator L eval) (scope : ScopeId)

include heval

/-- A statement over the lexicon binds and answers with what is over it. -/
theorem evalStmt_safe {s : Stmt} (hs : s.Over L) :
    Safe L (evalStmt eval scope s) (OptionalOutcome L) := by
  cases s with
  | letIn t name value =>
      refine (heval scope value hs.2).bind fun v hv => ?_
      by_cases hunwinding : v.isUnwinding = true
      · rw [if_pos hunwinding]
        exact .pure fun w hw => by cases hw; exact hv
      · rw [if_neg hunwinding]
        have hover := hv.over (eq_false_of_ne_true hunwinding)
        -- What does not unwind is neither a fault nor a return, and may be stored.
        exact (Safe.bindName scope name hover).bind fun _ _ => .pure nofun
  | ret t value =>
      refine (heval scope value hs).bind fun v hv => ?_
      by_cases hunwinding : v.isUnwinding = true
      · rw [if_pos hunwinding]
        exact .pure fun w hw => by cases hw; exact hv
      · rw [if_neg hunwinding]
        have hover := hv.over (eq_false_of_ne_true hunwinding)
        exact .pure fun w hw => by cases hw; exact .returned hover
  | expr t value =>
      refine (heval scope value hs).bind fun v hv => ?_
      exact .pure fun w hw => by cases hw; exact hv

/-- Statements one after the other, up to the first that unwinds. -/
theorem evalBody_safe {body : List Stmt} (hbody : bodyOver L body) {last : Option Value}
    (hlast : OptionalOutcome L last) :
    Safe L (evalBody eval scope last body) (OptionalOutcome L) := by
  induction body generalizing last with
  | nil => exact .pure hlast
  | cons s rest ih =>
      refine (evalStmt_safe heval scope hbody.1).bind fun v hv => ?_
      by_cases hunwinds : unwinds v = true
      · rw [if_pos hunwinds]
        exact .pure hv
      · rw [if_neg hunwinds]
        exact ih hbody.2 hv

/-- A block. -/
theorem evalBlock_safe {b : Block} (hb : b.Over L) :
    Safe L (evalBlock eval scope b) (OptionalOutcome L) := by
  cases b with
  | mk t body => exact evalBody_safe heval scope hb nofun

/-! ### Parts of expressions -/

/-- All values of a list may be stored, or the first one that unwinds is
the answer. -/
theorem evalAll_safe {es : List Expr} (hes : exprsOver L es) :
    Safe L (evalAll (eval scope) es) fun r =>
      (∀ values, r = .ok values → itemsOver L values) ∧ ∀ v, r = .error v → v.Outcome L := by
  induction es with
  | nil => exact .pure ⟨fun values hvalues => by cases hvalues; exact trivial, nofun⟩
  | cons e rest ih =>
      refine (heval scope e hes.1).bind fun v hv => ?_
      by_cases hunwinding : v.isUnwinding = true
      · rw [if_pos hunwinding]
        exact .pure ⟨nofun, fun w hw => by cases hw; exact hv⟩
      · rw [if_neg hunwinding]
        have hover := hv.over (eq_false_of_ne_true hunwinding)
        refine (ih hes.2).bind fun r hr => ?_
        cases r with
        | ok values =>
            -- Only when no part unwinds is there a list of values.
            refine .pure ⟨fun all hall => ?_, nofun⟩
            cases hall
            exact ⟨hover, hr.1 values rfl⟩
        | error u =>
            refine .pure ⟨nofun, fun w hw => ?_⟩
            cases hw
            exact hr.2 u rfl

/-- The pairs of a dict, behind entries over the lexicon. -/
theorem evalPairs_safe {pairs : List (Expr × Expr)} (hpairs : pairsOver L pairs)
    {entries : List (Key × Value)} (hentries : entriesOver L entries) :
    Safe L (evalPairs (eval scope) entries pairs) (Value.Outcome L) := by
  induction pairs generalizing entries with
  | nil => exact (Safe.newDict hentries).mono fun _ => .stored
  | cons pair rest ih =>
      obtain ⟨key, value⟩ := pair
      obtain ⟨hkey, hvalue, hrest⟩ := hpairs
      refine unlessUnwinding_safe (heval scope key hkey) fun k _ => ?_
      split
      · exact .pure (.fault _)
      · refine unlessUnwinding_safe (heval scope value hvalue) fun v hv => ?_
        exact ih hrest (entriesOver_putEntry hv hentries)

omit heval in
/-- A name: a bound value, a native function or a fault. -/
theorem evalName_safe (name : String) : Safe L (evalName scope name) (Value.Outcome L) := by
  refine (Safe.lookup scope name).bind fun v hv => ?_
  cases v with
  | some w => exact .pure (.stored (hv w rfl))
  | none =>
      dsimp only
      split
      · exact .pure (.stored trivial)
      · exact .pure (.fault _)

/-- The body of a closure: a pending `return` ends there. -/
theorem evalClosureBody_safe {params : List String} {body : Block} (hbody : body.Over L)
    (outer : ScopeId) {args : List Value} (hargs : itemsOver L args) :
    Safe L (evalClosureBody eval params body outer args) (Value.Answer L) := by
  -- The arguments are bound in a scope of their own, before the body runs.
  refine (Safe.newScope (some outer)).bind fun inner _ => ?_
  refine (Safe.bindAll inner params hargs).bind fun _ _ => ?_
  refine (evalBlock_safe heval inner hbody).bind fun v hv => .pure ?_
  cases v with
  | none => exact .stored trivial
  | some w => exact (hv w rfl).unwrapReturn

/-- A call: no `return` is pending behind it. -/
theorem applyValue_safe {callee : Value} (hcallee : callee.Over L) {args : List Value}
    (hargs : itemsOver L args) : Safe L (applyValue eval callee args) (Value.Answer L) := by
  unfold applyValue
  split
  · next handle params body outer =>
      split
      · exact evalClosureBody_safe heval hcallee.2 outer hargs
      · exact .pure (.fault _)
  · next native =>
      split
      · next harity => exact native.apply_safe hargs harity
      · exact .pure (.fault _)
  · exact .pure (.fault _)

/-! ### Expressions -/

/-- One level of evaluation keeps everything in order if the levels
below do. -/
theorem evalWith_safe (hL : L.Splices) {e : Expr} (he : e.Over L) :
    Safe L (evalWith eval scope e) (Value.Outcome L) := by
  cases e with
  | ident t name => exact evalName_safe scope name
  | int t n => exact .pure (.stored trivial)
  | str t s => exact .pure (.stored trivial)
  | bool t b => exact .pure (.stored trivial)
  | unary t op operand =>
      refine unlessUnwinding_safe (heval scope operand he) fun v _ => ?_
      exact .pure (answer_applyUnary op v).outcome
  | binary t op left right =>
      refine unlessUnwinding_safe (heval scope left he.1) fun a _ => ?_
      refine unlessUnwinding_safe (heval scope right he.2) fun b _ => ?_
      exact (applyBinary_safe op a b).mono fun _ => Value.Answer.outcome
  | cond t condition consequence alternative =>
      obtain ⟨hcondition, hconsequence, halternative⟩ := he
      refine unlessUnwinding_safe (heval scope condition hcondition) fun v _ => ?_
      by_cases htruthy : v.isTruthy = true
      · rw [if_pos htruthy]
        exact (evalBlock_safe heval scope hconsequence).bind fun w hw => .pure hw.getD
      · rw [if_neg htruthy]
        cases alternative with
        | none => exact .pure (.stored trivial)
        | some b => exact (evalBlock_safe heval scope halternative).bind fun w hw => .pure hw.getD
  | lambda t kind params body =>
      exact (Safe.newClosure kind scope he.1 he.2).mono fun _ => .stored
  | call t callee args =>
      obtain ⟨hcallee, hargs⟩ := he
      rw [evalWith]
      cases hquoted : quotedArgument? callee args with
      | some arg =>
          have harg := over_of_quotedArgument? hquoted hargs
          exact (quoteNode_safe hL heval scope harg).mono fun _ => .stored
      | none =>
          -- A call goes ahead when neither the callee nor any argument unwinds.
          refine unlessUnwinding_safe (heval scope callee hcallee) fun f hf => ?_
          refine (evalAll_safe heval scope hargs).bind fun r hr => ?_
          cases r with
          | ok values =>
              exact (applyValue_safe heval hf (hr.1 values rfl)).mono fun _ => Value.Answer.outcome
          | error v => exact .pure (hr.2 v rfl)
  | array t items =>
      refine (evalAll_safe heval scope he).bind fun r hr => ?_
      cases r with
      | ok values => exact (Safe.newArray (hr.1 values rfl)).mono fun _ => .stored
      | error v => exact .pure (hr.2 v rfl)
  | index t left index =>
      refine unlessUnwinding_safe (heval scope left he.1) fun v hv => ?_
      refine unlessUnwinding_safe (heval scope index he.2) fun i _ => ?_
      exact .pure (answer_applyIndex hv i).outcome
  | dict t pairs => exact evalPairs_safe heval scope he trivial

end Evaluation

/-- Evaluation keeps everything that is bound in order, with any
fuel. -/
theorem evalExpr_safe (hL : L.Splices) (fuel : Nat) : SafeEvaluator L (evalExpr fuel) := by
  induction fuel with
  | zero => exact fun _ _ _ => EvalM.Ensures.outOfFuel
  | succ fuel ih => exact fun scope e he => evalWith_safe ih scope hL he

/-! ### Programs and nodes -/

/-- What a whole run answers, if it has a value: no `return` is pending
behind it. -/
def OptionalAnswer (L : Lexicon) (v : Option Value) : Prop :=
  ∀ w, v = some w → w.Answer L

/-- A program answers with no pending return: it is unwrapped at the
end. -/
theorem evalProgram_safe (hL : L.Splices) (fuel : Nat) (scope : ScopeId) {program : Program}
    (h : bodyOver L program) : Safe L (evalProgram fuel scope program) (OptionalAnswer L) := by
  have hnone : OptionalOutcome L none := nofun
  refine (evalBody_safe (evalExpr_safe hL fuel) scope h hnone).bind fun v hv => .pure ?_
  intro w hw
  obtain ⟨u, rfl, rfl⟩ := Option.map_eq_some_iff.mp hw
  exact (hv u rfl).unwrapReturn

/-- Nor does any node. -/
theorem evalNode_safe (hL : L.Splices) (fuel : Nat) (scope : ScopeId) {node : Node}
    (h : node.Over L) : Safe L (evalNode fuel scope node) (Value.Answer L) := by
  have heval := evalExpr_safe hL fuel
  unfold evalNode
  -- Whatever the node is, what it answers is unwrapped in the same way.
  have hparts : ∀ {x : EvalM (Option Value)}, Safe L x (OptionalOutcome L) →
      Safe L (x >>= fun v => pure (v.getD .null).unwrapReturn) (Value.Answer L) :=
    fun hx => hx.bind fun v hv => .pure hv.getD.unwrapReturn
  cases node with
  | program p =>
      refine hparts ((evalProgram_safe hL fuel scope h).mono fun v hv w hw => ?_)
      exact (hv w hw).outcome
  | stmt s => exact hparts (evalStmt_safe heval scope h)
  | block b => exact hparts (evalBlock_safe heval scope h)
  | expr e =>
      refine hparts ((heval scope e h).bind fun v hv => .pure ?_)
      intro w hw
      cases hw
      exact hv

end QuoteScript
