import QuoteScript.Proofs.Tree.Coupling
import QuoteScript.Proofs.Tree.Visit

/-!
# `QuoteScript.Proofs.Tree.Replace`: calls that are replaced

Some calls of a tree give way to other expressions. Said from the top
down, this is simple: a call that is replaced is not looked into, and
neither is what takes its place.

A pass over the tree works from the bottom up, and hands out a call when
its parts have been replaced already. It comes to the same if the
transform leaves alone everything that is no call, and answers on each
call of the tree with what takes the place of the call.

* `Expr.calls`: the calls inside a tree.
* `Expr.replace`: the tree with calls replaced.
* `Expr.placed_replaces`: a pass that replaces calls.
* `Expr.replace_none`: nothing is replaced.
-/

set_option autoImplicit false

namespace QuoteScript

universe u

mutual

/-- The calls inside an expression, each with its callee and its
arguments. -/
def Expr.calls : Expr → List (Expr × List Expr)
  | .ident _ _ | .int _ _ | .str _ _ | .bool _ _ => []
  | .unary _ _ operand => operand.calls
  | .binary _ _ left right => left.calls ++ right.calls
  | .cond _ condition consequence alternative =>
    condition.calls ++ (consequence.calls ++ elseCalls alternative)
  | .lambda _ _ _ body => body.calls
  | .call _ callee args => (callee, args) :: (callee.calls ++ exprsCalls args)
  | .array _ items => exprsCalls items
  | .index _ left index => left.calls ++ index.calls
  | .dict _ pairs => pairsCalls pairs

/-- The same for a list of expressions. -/
def exprsCalls : List Expr → List (Expr × List Expr)
  | [] => []
  | e :: rest => e.calls ++ exprsCalls rest

/-- The same for the pairs of a dict. -/
def pairsCalls : List (Expr × Expr) → List (Expr × List Expr)
  | [] => []
  | (key, value) :: rest => key.calls ++ (value.calls ++ pairsCalls rest)

/-- The same for the branch that may follow the first one. -/
def elseCalls : Option Block → List (Expr × List Expr)
  | none => []
  | some b => b.calls

/-- The same for a block. -/
def Block.calls : Block → List (Expr × List Expr)
  | .mk _ body => bodyCalls body

/-- The same for a list of statements. -/
def bodyCalls : List Stmt → List (Expr × List Expr)
  | [] => []
  | s :: rest => s.calls ++ bodyCalls rest

/-- The same for a statement. -/
def Stmt.calls : Stmt → List (Expr × List Expr)
  | .letIn _ _ value | .ret _ value | .expr _ value => value.calls

end

/-- What takes the place of a call with a given callee and given
arguments, if anything does. -/
abbrev Replacement : Type :=
  Expr → List Expr → Option Expr

mutual

/-- An expression with calls replaced, from the top down. What takes
the place of a call is left as it is. -/
def Expr.replace (r : Replacement) : Expr → Expr
  | .ident t name => .ident t name
  | .int t value => .int t value
  | .str t value => .str t value
  | .bool t value => .bool t value
  | .unary t op operand => .unary t op (operand.replace r)
  | .binary t op left right => .binary t op (left.replace r) (right.replace r)
  | .cond t condition consequence alternative =>
    .cond t (condition.replace r) (consequence.replace r) (replaceElse r alternative)
  | .lambda t kind params body => .lambda t kind params (body.replace r)
  | .call t callee args =>
    match r callee args with
    | some e => e
    | none => .call t (callee.replace r) (replaceExprs r args)
  | .array t items => .array t (replaceExprs r items)
  | .index t left index => .index t (left.replace r) (index.replace r)
  | .dict t pairs => .dict t (replacePairs r pairs)

/-- The same for a list of expressions. -/
def replaceExprs (r : Replacement) : List Expr → List Expr
  | [] => []
  | e :: rest => e.replace r :: replaceExprs r rest

/-- The same for the pairs of a dict. -/
def replacePairs (r : Replacement) : List (Expr × Expr) → List (Expr × Expr)
  | [] => []
  | (key, value) :: rest => (key.replace r, value.replace r) :: replacePairs r rest

/-- The same for the branch that may follow the first one. -/
def replaceElse (r : Replacement) : Option Block → Option Block
  | none => none
  | some b => some (b.replace r)

/-- The same for a block. -/
def Block.replace (r : Replacement) : Block → Block
  | .mk t body => .mk t (replaceBody r body)

/-- The same for a list of statements. -/
def replaceBody (r : Replacement) : List Stmt → List Stmt
  | [] => []
  | s :: rest => s.replace r :: replaceBody r rest

/-- The same for a statement. -/
def Stmt.replace (r : Replacement) : Stmt → Stmt
  | .letIn t name value => .letIn t name (value.replace r)
  | .ret t value => .ret t (value.replace r)
  | .expr t value => .expr t (value.replace r)

end

variable {r : Replacement}

/-- A call for which there is a replacement is replaced. -/
theorem Expr.replace_call_of_some {callee e : Expr} {args : List Expr} (h : r callee args = some e)
    (t : Token) : (Expr.call t callee args).replace r = e := by
  rw [replace, h]

/-- In any other call the replacement goes on with the parts. -/
theorem Expr.replace_call_of_none {callee : Expr} {args : List Expr} (h : r callee args = none)
    (t : Token) :
    (Expr.call t callee args).replace r = .call t (callee.replace r) (replaceExprs r args) := by
  rw [replace, h]

/-- Only a call that is replaced itself can get another token. -/
theorem Expr.token_replace {e : Expr} (h : ∀ t callee args, e = .call t callee args →
    r callee args = none) : (e.replace r).token = e.token := by
  cases e with
  | call t callee args =>
      rw [replace_call_of_none (h t callee args rfl)]
      rfl
  | _ => simp only [replace, token]

/-! ### The pass -/

/-- A node that is a call. -/
def Node.IsCall : Node → Prop
  | .expr (.call _ _ _) => True
  | _ => False

variable {m : Type → Type u} [Monad m]

/-- The transform leaves alone what is no call. -/
def LeavesOthers (G : Guarantee m) (f : Node → m Node) : Prop :=
  ∀ node : Node, ¬ node.IsCall → G.gives (f node) (· = node)

/-- The transform answers on a call with what takes its place, when the
parts of the call have been replaced. -/
def ReplacesCall (G : Guarantee m) (r : Replacement) (f : Node → m Node)
    (call : Expr × List Expr) : Prop :=
  ∀ t, G.gives (f (.expr (.call t (call.1.replace r) (replaceExprs r call.2))))
    (· = .expr ((Expr.call t call.1 call.2).replace r))

variable {G : Guarantee m} {f : Node → m Node}

/-- The place of an expression that is no call keeps it. -/
theorem exprPlace_leaves (hf : LeavesOthers G f) {e : Expr} (he : ¬ (Node.expr e).IsCall) :
    G.gives (exprPlace f e) (· = e) :=
  G.bind (hf (.expr e) he) fun _ hnode => G.pure (by rw [hnode]; rfl)

/-- The place of a block keeps it. -/
theorem blockPlace_leaves (hf : LeavesOthers G f) (b : Block) :
    G.gives (blockPlace f b) (· = b) :=
  G.bind (hf (.block b) id) fun _ hnode => G.pure (by rw [hnode]; rfl)

/-- The place of a statement keeps it. -/
theorem stmtPlace_leaves (hf : LeavesOthers G f) (s : Stmt) : G.gives (stmtPlace f s) (· = s) :=
  G.bind (hf (.stmt s) id) fun _ hnode => G.pure (by rw [hnode]; rfl)

/-- Parameters are left as they are. -/
theorem visitParams_leaves (hf : LeavesOthers G f) (params : List String) :
    G.gives (visitParams f params) (· = params) := by
  induction params with
  | nil => exact G.pure rfl
  | cons name rest ih =>
      have hplace : G.gives (paramPlace f name) (· = name) :=
        G.bind (hf (.expr (.mkIdent name)) id) fun _ hnode => G.pure (by rw [hnode]; rfl)
      refine G.bind hplace fun _ hname => G.bind ih fun _ hrest => G.pure ?_
      rw [hname, hrest]

/-- An expression with its parts replaced, but not itself. -/
def Expr.replaceParts (r : Replacement) : Expr → Expr
  | .call t callee args => .call t (callee.replace r) (replaceExprs r args)
  | e => e.replace r

/-- An expression is replaced in its place once its parts are. -/
theorem exprPlace_replaces (hf : LeavesOthers G f) {e : Expr}
    (he : ∀ call ∈ e.calls, ReplacesCall G r f call) :
    G.gives (exprPlace f (e.replaceParts r)) (· = e.replace r) := by
  cases e with
  | call t callee args =>
      have hcall := he (callee, args) List.mem_cons_self t
      exact G.bind hcall fun _ hnode => G.pure (by rw [hnode]; rfl)
  | _ => exact exprPlace_leaves hf id

mutual

/-- A pass replaces the calls in the parts of an expression. -/
theorem Expr.visitParts_replaces (hf : LeavesOthers G f) :
    ∀ e : Expr, (∀ call ∈ e.calls, ReplacesCall G r f call) →
      G.gives (e.visitParts f) (· = e.replaceParts r)
  | .ident _ _, _ | .int _ _, _ | .str _ _, _ | .bool _ _, _ => G.pure rfl
  | .unary _ _ operand, h =>
    G.bind (operand.placed_replaces hf h) fun _ ho => G.pure (by rw [ho]; rfl)
  | .binary _ _ left right, h => by
      obtain ⟨hleft, hright⟩ := List.forall_mem_append.mp h
      refine G.bind (left.placed_replaces hf hleft) fun _ hl => ?_
      exact G.bind (right.placed_replaces hf hright) fun _ hr => G.pure (by rw [hl, hr]; rfl)
  | .cond _ condition consequence alternative, h => by
      obtain ⟨hcondition, hbranches⟩ := List.forall_mem_append.mp h
      obtain ⟨hconsequence, halternative⟩ := List.forall_mem_append.mp hbranches
      refine G.bind (condition.placed_replaces hf hcondition) fun _ hc => ?_
      refine G.bind (consequence.placed_replaces hf hconsequence) fun _ hb => ?_
      refine G.bind (visitElse_replaces hf alternative halternative) fun _ ha => G.pure ?_
      rw [hc, hb, ha]
      rfl
  | .lambda _ _ params body, h => by
      refine G.bind (visitParams_leaves hf params) fun _ hparams => ?_
      refine G.bind (body.placed_replaces hf h) fun _ hb => G.pure ?_
      rw [hparams, hb]
      rfl
  | .call _ callee args, h => by
      -- The call itself is not visited here: the visit of the node around it fills its place.
      obtain ⟨-, hparts⟩ := List.forall_mem_cons.mp h
      obtain ⟨hcallee, hargs⟩ := List.forall_mem_append.mp hparts
      refine G.bind (callee.placed_replaces hf hcallee) fun _ hc => ?_
      exact G.bind (visitExprs_replaces hf args hargs) fun _ ha => G.pure (by rw [hc, ha]; rfl)
  | .array _ items, h =>
    G.bind (visitExprs_replaces hf items h) fun _ hi => G.pure (by rw [hi]; rfl)
  | .index _ left index, h => by
      obtain ⟨hleft, hindex⟩ := List.forall_mem_append.mp h
      refine G.bind (left.placed_replaces hf hleft) fun _ hl => ?_
      exact G.bind (index.placed_replaces hf hindex) fun _ hi => G.pure (by rw [hl, hi]; rfl)
  | .dict _ pairs, h =>
    G.bind (visitPairs_replaces hf pairs h) fun _ hp => G.pure (by rw [hp]; rfl)

/-- A pass replaces the calls in an expression, and the expression
itself if it is a call that is replaced. -/
theorem Expr.placed_replaces (hf : LeavesOthers G f) (e : Expr)
    (h : ∀ call ∈ e.calls, ReplacesCall G r f call) :
    G.gives (e.visitParts f >>= exprPlace f) (· = e.replace r) :=
  G.bind (e.visitParts_replaces hf h) fun _ he => he ▸ exprPlace_replaces hf h

/-- The same for a list of expressions. -/
theorem visitExprs_replaces (hf : LeavesOthers G f) :
    ∀ es : List Expr, (∀ call ∈ exprsCalls es, ReplacesCall G r f call) →
      G.gives (visitExprs f es) (· = replaceExprs r es)
  | [], _ => G.pure rfl
  | e :: rest, h => by
      obtain ⟨he, hrest⟩ := List.forall_mem_append.mp h
      refine G.bind (e.placed_replaces hf he) fun _ hfirst => ?_
      exact G.bind (visitExprs_replaces hf rest hrest) fun _ hr =>
        G.pure (by rw [hfirst, hr]; rfl)

/-- The same for the pairs of a dict. -/
theorem visitPairs_replaces (hf : LeavesOthers G f) :
    ∀ pairs : List (Expr × Expr), (∀ call ∈ pairsCalls pairs, ReplacesCall G r f call) →
      G.gives (visitPairs f pairs) (· = replacePairs r pairs)
  | [], _ => G.pure rfl
  | (key, value) :: rest, h => by
      obtain ⟨hkey, hbehind⟩ := List.forall_mem_append.mp h
      obtain ⟨hvalue, hrest⟩ := List.forall_mem_append.mp hbehind
      refine G.bind (key.placed_replaces hf hkey) fun _ hk => ?_
      refine G.bind (value.placed_replaces hf hvalue) fun _ hv => ?_
      exact G.bind (visitPairs_replaces hf rest hrest) fun _ hr =>
        G.pure (by rw [hk, hv, hr]; rfl)

/-- The same for the branch that may follow the first one. -/
theorem visitElse_replaces (hf : LeavesOthers G f) :
    ∀ b : Option Block, (∀ call ∈ elseCalls b, ReplacesCall G r f call) →
      G.gives (visitElse f b) (· = replaceElse r b)
  | none, _ => G.pure rfl
  | some b, h => G.bind (b.placed_replaces hf h) fun _ hb => G.pure (by rw [hb]; rfl)

/-- The same for a block. -/
theorem Block.visitParts_replaces (hf : LeavesOthers G f) :
    ∀ b : Block, (∀ call ∈ b.calls, ReplacesCall G r f call) →
      G.gives (b.visitParts f) (· = b.replace r)
  | .mk _ body, h => G.bind (visitBody_replaces hf body h) fun _ hb => G.pure (by rw [hb]; rfl)

/-- A block that is visited in its place. -/
theorem Block.placed_replaces (hf : LeavesOthers G f) (b : Block)
    (h : ∀ call ∈ b.calls, ReplacesCall G r f call) :
    G.gives (b.visitParts f >>= blockPlace f) (· = b.replace r) :=
  G.bind (b.visitParts_replaces hf h) fun _ hb => hb ▸ blockPlace_leaves hf _

/-- The same for a list of statements. -/
theorem visitBody_replaces (hf : LeavesOthers G f) :
    ∀ body : List Stmt, (∀ call ∈ bodyCalls body, ReplacesCall G r f call) →
      G.gives (visitBody f body) (· = replaceBody r body)
  | [], _ => G.pure rfl
  | s :: rest, h => by
      obtain ⟨hs, hrest⟩ := List.forall_mem_append.mp h
      have hfirst : G.gives (s.visitParts f >>= stmtPlace f) (· = s.replace r) :=
        G.bind (s.visitParts_replaces hf hs) fun _ h => h ▸ stmtPlace_leaves hf _
      refine G.bind hfirst fun _ hfirst => ?_
      exact G.bind (visitBody_replaces hf rest hrest) fun _ hr => G.pure (by rw [hfirst, hr]; rfl)

/-- The same for a statement. -/
theorem Stmt.visitParts_replaces (hf : LeavesOthers G f) :
    ∀ s : Stmt, (∀ call ∈ s.calls, ReplacesCall G r f call) →
      G.gives (s.visitParts f) (· = s.replace r)
  | .letIn _ _ value, h | .ret _ value, h | .expr _ value, h =>
    G.bind (value.placed_replaces hf h) fun _ hv => G.pure (by rw [hv]; rfl)

end

/-- A whole pass over an expression. -/
theorem Node.transformM_replaces (hf : LeavesOthers G f) {e : Expr}
    (h : ∀ call ∈ e.calls, ReplacesCall G r f call) :
    G.gives (Node.transformM f (.expr e)) (· = .expr (e.replace r)) := by
  have hparts : G.gives (Node.visitParts f (.expr e)) (· = .expr (e.replaceParts r)) :=
    G.bind (e.visitParts_replaces hf h) fun _ he => G.pure (by rw [he])
  refine G.bind hparts fun node hnode => ?_
  subst hnode
  cases e with
  | call t callee args => exact h (callee, args) List.mem_cons_self t
  | _ => exact hf _ id

/-! ### Nothing is replaced -/

/-- An answer that needs no computation. -/
def Guarantee.here : Guarantee Id where
  gives x P := P x
  pure h := h
  bind hx hnext := hnext _ hx

/-- If nothing takes the place of any call, the expression stays as it
is. -/
theorem Expr.replace_none (e : Expr) (h : ∀ call ∈ e.calls, r call.1 call.2 = none) :
    e.replace r = e := by
  -- A pass that changes nothing is one that replaces nothing.
  have hcalls : ∀ call ∈ e.calls, ReplacesCall .here r (pure : Node → Id Node) call := by
    intro call hcall t
    show Node.expr _ = Node.expr _
    rw [replace_call_of_none (h call hcall)]
  have hleaves : LeavesOthers .here (pure : Node → Id Node) := fun _ _ => rfl
  have hpass : Node.transformM (pure : Node → Id Node) (.expr e) = .expr (e.replace r) :=
    Node.transformM_replaces hleaves hcalls
  have hpure : Node.transformM (pure : Node → Id Node) (.expr e) = .expr e := by
    simp [Node.transformM, Node.visitParts, e.visitParts_pure]
    rfl
  exact Node.expr.inj (hpass.symm.trans hpure)

/-- The calls in a list of expressions are those in its expressions. -/
theorem mem_exprsCalls {call : Expr × List Expr} {es : List Expr} :
    call ∈ exprsCalls es ↔ ∃ e ∈ es, call ∈ e.calls := by
  induction es with
  | nil => simp [exprsCalls]
  | cons e rest ih => simp [exprsCalls, ih]

/-- Expressions without a call that is replaced stay as they are. -/
theorem replaceExprs_none (es : List Expr)
    (h : ∀ call ∈ exprsCalls es, r call.1 call.2 = none) : replaceExprs r es = es := by
  induction es with
  | nil => rfl
  | cons e rest ih =>
      obtain ⟨he, hrest⟩ := List.forall_mem_append.mp h
      rw [replaceExprs, e.replace_none he, ih hrest]

end QuoteScript
