import QuoteScript.Proofs.Eval.Fuel

/-!
# `QuoteScript.Proofs.Eval.Context`: unwinding stops what is behind

An evaluation works its way from a node to a part of the node, and on to
a part of that part, and so on. On the way it evaluates what stands in
front of the part. When the part unwinds, nothing behind it is
evaluated: the whole node answers with what unwinds, and the heap is the
one that the part has left.

* `Enters`: the positions in a node that are evaluated, one level deep.
  The bodies of closures are no such positions, and neither is the
  argument of a call that quotes.
* `Reaches`: the same at any depth.
* `Enters.unwinds`: one level, one case for each position.
  `dict_stops_at_unusable_key` says why a key has to be usable for the
  evaluation to get behind it.
* `unwinding_stops_what_is_behind`: any depth, by induction.
-/

set_option autoImplicit false

namespace QuoteScript

open EvalM

/-- With some amount of fuel, a node is evaluated to `v`, and the heap
becomes `heap'`. -/
def Answers (scope : ScopeId) (node : Node) (heap : Heap) (v : Option Value) (heap' : Heap) :
    Prop :=
  Ends (fun fuel => evalPart fuel scope node) heap v heap'

/-- A node is evaluated, and its value, if it has one, does not
unwind. -/
def Passes (scope : ScopeId) (node : Node) (heap heap' : Heap) : Prop :=
  ∃ v, Answers scope node heap v heap' ∧ unwinds v = false

/-- Nodes are evaluated one after the other, and none unwinds. -/
inductive PassesAll (scope : ScopeId) : List Node → Heap → Heap → Prop where
  | nil {heap : Heap} : PassesAll scope [] heap heap
  | cons {node : Node} {rest : List Node} {heap heap₁ heap₂ : Heap} :
      Passes scope node heap heap₁ → PassesAll scope rest heap₁ heap₂ →
        PassesAll scope (node :: rest) heap heap₂

/-- The key of a pair is evaluated, and can be a key. A value that can
be none ends the dict before the value of the pair is evaluated. -/
def KeyPasses (scope : ScopeId) (key : Expr) (heap heap' : Heap) : Prop :=
  ∃ k : Key, Answers scope (.expr key) heap (some k.toValue) heap'

/-- The pairs of a dict are evaluated one after the other, and none
unwinds. -/
inductive PairsPass (scope : ScopeId) : List (Expr × Expr) → Heap → Heap → Prop where
  | nil {heap : Heap} : PairsPass scope [] heap heap
  | cons {key value : Expr} {rest : List (Expr × Expr)} {heap heap₁ heap₂ heap₃ : Heap} :
      KeyPasses scope key heap heap₁ → Passes scope (.expr value) heap₁ heap₂ →
        PairsPass scope rest heap₂ heap₃ → PairsPass scope ((key, value) :: rest) heap heap₃

/-- `Enters scope node heap part heap'`: the evaluation of the node gets
to the part of the node in `heap'`, and nothing in front of it has
unwound. -/
inductive Enters (scope : ScopeId) : Node → Heap → Node → Heap → Prop where
  | operand {t : Token} {op : UnaryOp} {e : Expr} {heap : Heap} :
      Enters scope (.expr (.unary t op e)) heap (.expr e) heap
  | left {t : Token} {op : BinaryOp} {l r : Expr} {heap : Heap} :
      Enters scope (.expr (.binary t op l r)) heap (.expr l) heap
  | right {t : Token} {op : BinaryOp} {l r : Expr} {heap heap₁ : Heap} :
      Passes scope (.expr l) heap heap₁ →
        Enters scope (.expr (.binary t op l r)) heap (.expr r) heap₁
  | indexed {t : Token} {l i : Expr} {heap : Heap} :
      Enters scope (.expr (.index t l i)) heap (.expr l) heap
  | index {t : Token} {l i : Expr} {heap heap₁ : Heap} :
      Passes scope (.expr l) heap heap₁ →
        Enters scope (.expr (.index t l i)) heap (.expr i) heap₁
  | condition {t : Token} {c : Expr} {b : Block} {a : Option Block} {heap : Heap} :
      Enters scope (.expr (.cond t c b a)) heap (.expr c) heap
  | consequence {t : Token} {c : Expr} {b : Block} {a : Option Block} {v : Value}
      {heap heap₁ : Heap} (hv : v.isUnwinding = false) (htruthy : v.isTruthy = true) :
      Answers scope (.expr c) heap (some v) heap₁ →
        Enters scope (.expr (.cond t c b a)) heap (.block b) heap₁
  | alternative {t : Token} {c : Expr} {b a : Block} {v : Value} {heap heap₁ : Heap}
      (hv : v.isUnwinding = false) (htruthy : v.isTruthy = false) :
      Answers scope (.expr c) heap (some v) heap₁ →
        Enters scope (.expr (.cond t c b (some a))) heap (.block a) heap₁
  | callee {t : Token} {f : Expr} {args : List Expr} {heap : Heap}
      (hquote : quotedArgument? f args = none) :
      Enters scope (.expr (.call t f args)) heap (.expr f) heap
  | argument {t : Token} {f arg : Expr} {before behind : List Expr} {heap heap₁ heap₂ : Heap}
      (hquote : quotedArgument? f (before ++ arg :: behind) = none) :
      Passes scope (.expr f) heap heap₁ → PassesAll scope (before.map .expr) heap₁ heap₂ →
        Enters scope (.expr (.call t f (before ++ arg :: behind))) heap (.expr arg) heap₂
  | item {t : Token} {e : Expr} {before behind : List Expr} {heap heap₁ : Heap} :
      PassesAll scope (before.map .expr) heap heap₁ →
        Enters scope (.expr (.array t (before ++ e :: behind))) heap (.expr e) heap₁
  | key {t : Token} {k v : Expr} {before behind : List (Expr × Expr)} {heap heap₁ : Heap} :
      PairsPass scope before heap heap₁ →
        Enters scope (.expr (.dict t (before ++ (k, v) :: behind))) heap (.expr k) heap₁
  | value {t : Token} {k v : Expr} {before behind : List (Expr × Expr)}
      {heap heap₁ heap₂ : Heap} :
      PairsPass scope before heap heap₁ → KeyPasses scope k heap₁ heap₂ →
        Enters scope (.expr (.dict t (before ++ (k, v) :: behind))) heap (.expr v) heap₂
  | letIn {t : Token} {name : String} {e : Expr} {heap : Heap} :
      Enters scope (.stmt (.letIn t name e)) heap (.expr e) heap
  | ret {t : Token} {e : Expr} {heap : Heap} :
      Enters scope (.stmt (.ret t e)) heap (.expr e) heap
  | expr {t : Token} {e : Expr} {heap : Heap} :
      Enters scope (.stmt (.expr t e)) heap (.expr e) heap
  | block {t : Token} {s : Stmt} {before behind : List Stmt} {heap heap₁ : Heap} :
      PassesAll scope (before.map .stmt) heap heap₁ →
        Enters scope (.block (.mk t (before ++ s :: behind))) heap (.stmt s) heap₁
  | program {s : Stmt} {before behind : List Stmt} {heap heap₁ : Heap} :
      PassesAll scope (before.map .stmt) heap heap₁ →
        Enters scope (.program (before ++ s :: behind)) heap (.stmt s) heap₁

/-- `Reaches scope node heap part heap'`: the same for a part of the
node at any depth. -/
inductive Reaches (scope : ScopeId) : Node → Heap → Node → Heap → Prop where
  | here {node : Node} {heap : Heap} : Reaches scope node heap node heap
  | inside {node part inner : Node} {heap heap₁ heap₂ : Heap} :
      Enters scope node heap part heap₁ → Reaches scope part heap₁ inner heap₂ →
        Reaches scope node heap inner heap₂

/-! ### Evaluation with enough fuel -/

variable {scope : ScopeId} {heap heap₁ heap₂ : Heap} {u v : Value}

/-- A part that unwinds is the answer. -/
theorem unlessUnwinding_stops {x : EvalM Value} {next : Value → EvalM Value}
    (hu : u.isUnwinding = true) (h : x heap = .ok (u, heap₁)) :
    unlessUnwinding x next heap = .ok (u, heap₁) := by
  rw [unlessUnwinding, bind_run h, if_pos hu]
  rfl

/-- Any other part is handed on. -/
theorem unlessUnwinding_goes {x : EvalM Value} {next : Value → EvalM Value}
    (hv : v.isUnwinding = false) (h : x heap = .ok (v, heap₁)) :
    unlessUnwinding x next heap = next v heap₁ := by
  rw [unlessUnwinding, bind_run h, if_neg (by rw [hv]; exact Bool.false_ne_true)]

/-- An expression always has a value. -/
theorem evalPart_expr_iff {fuel : Nat} {e : Expr} {v : Option Value} :
    evalPart fuel scope (.expr e) heap = .ok (v, heap₁) ↔
      ∃ w, v = some w ∧ evalExpr fuel scope e heap = .ok (w, heap₁) := by
  -- As a part, an expression always has a value.
  have hsome : evalPart fuel scope (.expr e) heap
      = (evalExpr fuel scope e heap >>= fun r => .ok (some r.1, r.2)) := rfl
  rw [hsome]
  cases evalExpr fuel scope e heap with
  | error stop => exact ⟨nofun, nofun⟩
  | ok r =>
      constructor
      · intro h
        cases h
        exact ⟨r.1, rfl, rfl⟩
      · rintro ⟨w, rfl, h⟩
        cases h
        rfl

/-- What an expression answers, with every large amount of fuel. -/
theorem Answers.eventually {e : Expr} (h : Answers scope (.expr e) heap (some v) heap₁) :
    ∀ᶠ fuel in Filter.atTop, evalExpr fuel scope e heap = .ok (v, heap₁) := by
  filter_upwards [(evalPart_steady scope (.expr e)).ends_iff.mp h] with fuel hrun
  obtain ⟨w, hw, hrun⟩ := evalPart_expr_iff.mp hrun
  cases hw
  exact hrun

/-- An expression that passes has a value that does not unwind. -/
theorem Passes.eventually {e : Expr} (h : Passes scope (.expr e) heap heap₁) :
    ∃ v : Value, v.isUnwinding = false ∧
      ∀ᶠ fuel in Filter.atTop, evalExpr fuel scope e heap = .ok (v, heap₁) := by
  obtain ⟨v, ⟨fuel, hrun⟩, hv⟩ := h
  obtain ⟨w, rfl, -⟩ := evalPart_expr_iff.mp hrun
  exact ⟨w, hv, Answers.eventually ⟨fuel, hrun⟩⟩

/-- An expression answers what one level of evaluation gives, when the
levels below have enough fuel. -/
theorem Answers.of_evalWith {e : Expr}
    (h : ∀ᶠ fuel in Filter.atTop, evalWith (evalExpr fuel) scope e heap = .ok (v, heap₁)) :
    Answers scope (.expr e) heap (some v) heap₁ := by
  obtain ⟨fuel, hrun⟩ := h.exists
  exact ⟨fuel + 1, evalPart_expr_iff.mpr ⟨v, rfl, hrun⟩⟩

/-! ### Lists -/

/-- Expressions are evaluated up to the first that unwinds. -/
theorem evalAll_stops (hu : u.isUnwinding = true) {before behind : List Expr} {e : Expr}
    (hbefore : PassesAll scope (before.map .expr) heap heap₁)
    (he : Answers scope (.expr e) heap₁ (some u) heap₂) :
    ∀ᶠ fuel in Filter.atTop,
      evalAll (evalExpr fuel scope) (before ++ e :: behind) heap = .ok (.error u, heap₂) := by
  induction before generalizing heap with
  | nil =>
      cases hbefore
      filter_upwards [he.eventually] with fuel hrun
      rw [List.nil_append, evalAll, bind_run hrun, if_pos hu]
      rfl
  | cons first rest ih =>
      cases hbefore with
      | cons hfirst hrest =>
          -- The first expression is passed and the others stop, with the same fuel.
          obtain ⟨v, hv, hfirst⟩ := hfirst.eventually
          filter_upwards [hfirst, ih hrest] with fuel hrun hstop
          rw [List.cons_append, evalAll, bind_run hrun, if_neg (by simp [hv]), bind_run hstop]
          rfl

/-- Behind pairs that pass, the other pairs are evaluated. -/
theorem evalPairs_goes {before behind : List (Expr × Expr)}
    (hbefore : PairsPass scope before heap heap₁) (entries : List (Key × Value)) :
    ∃ entries', ∀ᶠ fuel in Filter.atTop,
      evalPairs (evalExpr fuel scope) entries (before ++ behind) heap
        = evalPairs (evalExpr fuel scope) entries' behind heap₁ := by
  induction hbefore generalizing entries with
  | nil => exact ⟨entries, .of_forall fun _ => rfl⟩
  | cons hkey hvalue _ ih =>
      obtain ⟨key, hkey⟩ := hkey
      obtain ⟨v, hv, hvalue⟩ := hvalue.eventually
      obtain ⟨entries', hrest⟩ := ih (putEntry key v entries)
      refine ⟨entries', ?_⟩
      filter_upwards [hkey.eventually, hvalue, hrest] with fuel hkey hvalue hrest
      -- What makes a key does not unwind.
      have hclean : key.toValue.isUnwinding = false := by cases key <;> rfl
      rw [List.cons_append, evalPairs, unlessUnwinding_goes hclean hkey,
        Value.key?_eq_some_iff.mpr rfl]
      exact (unlessUnwinding_goes hv hvalue).trans hrest

/-- Statements are evaluated up to the first that unwinds, or else up to
the last one. -/
theorem evalBody_ends {before behind : List Stmt} {s : Stmt} {v : Option Value}
    (hlast : unwinds v = true ∨ behind = [])
    (hbefore : PassesAll scope (before.map .stmt) heap heap₁)
    (hs : Answers scope (.stmt s) heap₁ v heap₂) (last : Option Value) :
    ∀ᶠ fuel in Filter.atTop,
      evalBody (evalExpr fuel) scope last (before ++ s :: behind) heap = .ok (v, heap₂) := by
  induction before generalizing heap last with
  | nil =>
      cases hbefore
      filter_upwards [(evalPart_steady scope (.stmt s)).ends_iff.mp hs] with fuel hrun
      refine (bind_run hrun).trans ?_
      -- The loop stops at this statement, or there is none behind it.
      rcases hlast with hstop | rfl
      · rw [if_pos hstop]
        rfl
      · split <;> rfl
  | cons first rest ih =>
      cases hbefore with
      | cons hfirst hrest =>
          obtain ⟨w, hfirst, hw⟩ := hfirst
          filter_upwards [(evalPart_steady scope (.stmt first)).ends_iff.mp hfirst, ih hrest w]
            with fuel hrun hstop
          refine (bind_run hrun).trans ?_
          rw [if_neg (by simp [hw])]
          exact hstop

/-- What unwinds is the answer of all statements. -/
theorem evalBody_stops (hu : u.isUnwinding = true) {before behind : List Stmt} {s : Stmt}
    (hbefore : PassesAll scope (before.map .stmt) heap heap₁)
    (hs : Answers scope (.stmt s) heap₁ (some u) heap₂) (last : Option Value) :
    ∀ᶠ fuel in Filter.atTop,
      evalBody (evalExpr fuel) scope last (before ++ s :: behind) heap
        = .ok (some u, heap₂) := by
  have hstop : unwinds (some u) = true := hu
  exact evalBody_ends (.inl hstop) hbefore hs last

/-! ### Positions -/

/-- What a node answers when a part of it unwinds: a program takes the
value of a pending `return`. -/
def Node.settle : Node → Value → Value
  | .program _, u => u.unwrapReturn
  | _, u => u

/-- When a part unwinds, the node around it answers with what unwinds,
and nothing else is evaluated. -/
theorem Enters.unwinds {node part : Node} (hu : u.isUnwinding = true)
    (h : Enters scope node heap part heap₁) (hpart : Answers scope part heap₁ (some u) heap₂) :
    Answers scope node heap (some (node.settle u)) heap₂ := by
  cases h with
  -- Nothing is evaluated in front of the part.
  | operand | left | indexed | condition =>
      refine .of_evalWith ?_
      filter_upwards [hpart.eventually] with fuel hrun
      exact unlessUnwinding_stops hu hrun
  | right hleft | index hleft =>
      obtain ⟨v, hv, hleft⟩ := hleft.eventually
      refine .of_evalWith ?_
      filter_upwards [hleft, hpart.eventually] with fuel hleft hrun
      exact (unlessUnwinding_goes hv hleft).trans (unlessUnwinding_stops hu hrun)
  -- A branch is evaluated in the same scope, and what unwinds in it unwinds behind it.
  | consequence hv htruthy hcondition =>
      refine .of_evalWith ?_
      filter_upwards [hcondition.eventually, (evalPart_steady scope _).ends_iff.mp hpart]
        with fuel hcondition hrun
      refine (unlessUnwinding_goes hv hcondition).trans ?_
      rw [if_pos htruthy]
      exact bind_run hrun
  | alternative hv htruthy hcondition =>
      refine .of_evalWith ?_
      filter_upwards [hcondition.eventually, (evalPart_steady scope _).ends_iff.mp hpart]
        with fuel hcondition hrun
      refine (unlessUnwinding_goes hv hcondition).trans ?_
      rw [if_neg (by simp [htruthy])]
      exact bind_run hrun
  | callee hquote =>
      refine .of_evalWith ?_
      filter_upwards [hpart.eventually] with fuel hrun
      rw [evalWith, hquote]
      exact unlessUnwinding_stops hu hrun
  -- In a list, the siblings in front are evaluated first.
  | argument hquote hcallee hbefore =>
      obtain ⟨f, hf, hcallee⟩ := hcallee.eventually
      refine .of_evalWith ?_
      filter_upwards [hcallee, evalAll_stops hu hbefore hpart] with fuel hcallee hstop
      rw [evalWith, hquote]
      exact (unlessUnwinding_goes hf hcallee).trans (bind_run hstop)
  | item hbefore =>
      refine .of_evalWith ?_
      filter_upwards [evalAll_stops hu hbefore hpart] with fuel hstop
      exact bind_run hstop
  | key hbefore =>
      obtain ⟨entries, hbefore⟩ := evalPairs_goes hbefore []
      refine .of_evalWith ?_
      filter_upwards [hbefore, hpart.eventually] with fuel hbefore hrun
      exact hbefore.trans (unlessUnwinding_stops hu hrun)
  | value hbefore hkey =>
      obtain ⟨entries, hbefore⟩ := evalPairs_goes hbefore []
      obtain ⟨key, hkey⟩ := hkey
      refine .of_evalWith ?_
      filter_upwards [hbefore, hkey.eventually, hpart.eventually] with fuel hbefore hkey hrun
      have hclean : key.toValue.isUnwinding = false := by cases key <;> rfl
      refine hbefore.trans ((unlessUnwinding_goes hclean hkey).trans ?_)
      rw [Value.key?_eq_some_iff.mpr rfl]
      exact unlessUnwinding_stops hu hrun
  -- A statement does nothing with what unwinds: no name is bound, no value is wrapped.
  | letIn | ret =>
      obtain ⟨fuel, hrun⟩ := hpart.eventually.exists
      refine ⟨fuel, ?_⟩
      exact (bind_run hrun).trans (by rw [if_pos hu]; rfl)
  | expr =>
      obtain ⟨fuel, hrun⟩ := hpart.eventually.exists
      exact ⟨fuel, bind_run hrun⟩
  | block hbefore =>
      obtain ⟨fuel, hstop⟩ := (evalBody_stops hu hbefore hpart none).exists
      exact ⟨fuel, hstop⟩
  | program hbefore =>
      obtain ⟨fuel, hstop⟩ := (evalBody_stops hu hbefore hpart none).exists
      exact ⟨fuel, bind_run hstop⟩

/-- A key that can be none ends the dict with a fault. The value of the
pair and what is behind it are not evaluated, so the evaluation gets to
no position there. -/
theorem dict_stops_at_unusable_key {t : Token} {key value : Expr}
    {before behind : List (Expr × Expr)} (hbefore : PairsPass scope before heap heap₁)
    (hkey : Answers scope (.expr key) heap₁ (some v) heap₂) (hv : v.isUnwinding = false)
    (hnone : v.key? = none) :
    Answers scope (.expr (.dict t (before ++ (key, value) :: behind))) heap
      (some (.fault (.unusableKey v.kind))) heap₂ := by
  obtain ⟨entries, hbefore⟩ := evalPairs_goes hbefore []
  refine .of_evalWith ?_
  filter_upwards [hbefore, hkey.eventually] with fuel hbefore hkey
  refine hbefore.trans ((unlessUnwinding_goes hv hkey).trans ?_)
  rw [hnone]
  rfl

/-- Only a whole program takes the value of a pending `return`. -/
theorem Enters.settle_eq {node part : Node} (h : Enters scope node heap part heap₁) (u : Value) :
    part.settle u = u := by
  cases h <;> rfl

/-- Unwinding stops what is behind. If the evaluation of a node gets to
a part that unwinds, at any depth, the node answers with exactly what
unwinds, where a program takes the value of a pending `return`. The heap
is the one that the part has left. So nothing behind the part has been
evaluated, no `let` around it has bound its name, and no call around it
has been made. With whatever fuel it ends, it ends so. -/
theorem unwinding_stops_what_is_behind {node part : Node}
    (hreach : Reaches scope node heap part heap₁) (hpart : ∀ p, part ≠ .program p)
    (hu : u.isUnwinding = true) (hanswer : Answers scope part heap₁ (some u) heap₂) :
    Answers scope node heap (some (node.settle u)) heap₂ ∧
      ∀ v heap', Answers scope node heap v heap' → v = some (node.settle u) ∧ heap' = heap₂ := by
  have hstop : Answers scope node heap (some (node.settle u)) heap₂ := by
    induction hreach with
    | @here node =>
        have hsettle : node.settle u = u := by
          cases node with
          | program p => exact absurd rfl (hpart p)
          | _ => rfl
        rw [hsettle]
        exact hanswer
    -- From the part outwards: each node around it hands the value on.
    | inside henters _ ih =>
        have hinner := ih hpart hanswer
        rw [henters.settle_eq u] at hinner
        exact henters.unwinds hu hinner
  exact ⟨hstop, fun v heap' h => (evalPart_steady scope node).ends_unique hstop h⟩

/-- A `return` in a branch, in an array, on the right side of a
`let`. -/
theorem unwinding_stops_what_is_behind_return :
    let t : Token := .eof 0
    let stop : Stmt := .ret t (.int t 3)
    let branch : Block := .mk t [stop, .expr t (.ident t "b")]
    let items : List Expr := [.int t 7, .cond t (.bool t true) branch none, .ident t "c"]
    let program : Node := .program [.letIn t "a" (.array t items), .expr t (.ident t "d")]
    let heap : Heap := (({} : Heap).newScope none).2
    Reaches ⟨0⟩ program heap (.stmt stop) heap ∧
      Answers ⟨0⟩ (.stmt stop) heap (some (.returned (.int 3))) heap ∧
      Answers ⟨0⟩ program heap (some (.int 3)) heap := by
  intro t stop branch items program heap
  have hcondition : Answers ⟨0⟩ (.expr (.bool t true)) heap (some (.bool true)) heap := ⟨1, rfl⟩
  have hitem : Passes ⟨0⟩ (.expr (.int t 7)) heap heap := ⟨some (.int 7), ⟨1, rfl⟩, rfl⟩
  -- From the program down to the `return`: statement, item, branch, block.
  have hreach : Reaches ⟨0⟩ program heap (.stmt stop) heap :=
    .inside (@Enters.program _ _ [] _ _ _ .nil) <| .inside .letIn <|
      .inside (@Enters.item _ _ _ [.int t 7] _ _ _ (.cons hitem .nil)) <|
      .inside (.consequence rfl rfl hcondition) <| .inside (@Enters.block _ _ _ [] _ _ _ .nil) .here
  have hanswer : Answers ⟨0⟩ (.stmt stop) heap (some (.returned (.int 3))) heap := ⟨1, rfl⟩
  exact ⟨hreach, hanswer, (unwinding_stops_what_is_behind hreach nofun rfl hanswer).1⟩

end QuoteScript
