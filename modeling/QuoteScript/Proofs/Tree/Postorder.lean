import QuoteScript.Proofs.Tree.Coupling

/-!
# `QuoteScript.Proofs.Tree.Postorder`: the order in which a pass hands out nodes

A pass over a tree can be read off a list. `Node.postorder` lists the
nodes of a tree, every node behind the nodes below it. The pass goes
through this list once, from left to right, and keeps a stack of the
visits whose answers have not found their place yet: a node takes the
visits of its children from the stack, is handed to the transform with
these in its places, and leaves its own visit there. Nothing else is
ever handed to the transform.

* `Node.induction`: a property that every node has if its children have
  it holds of every node.
* `Node.visit_eq`: a visit in terms of the visits of the children.
* `Node.foldlM_postorder`: a visit as a loop over the list.
* `Node.transformM_relates`: two passes over the same tree.
* `Node.transformM_postorder`: all of it for a whole pass, with the
  number of calls and with what a pass does that changes nothing.
-/

set_option autoImplicit false

namespace QuoteScript

universe u v

/-! ### The nodes right below a node -/

/-- The nodes right below an expression, in the order in which they are
visited. Parameters are identifiers. -/
def Expr.children : Expr → List Node
  | .ident _ _ | .int _ _ | .str _ _ | .bool _ _ => []
  | .unary _ _ operand => [.expr operand]
  | .binary _ _ left right => [.expr left, .expr right]
  | .cond _ condition consequence alternative =>
    .expr condition :: .block consequence :: alternative.toList.map .block
  | .lambda _ _ params body => params.map (fun name => .expr (.mkIdent name)) ++ [.block body]
  | .call _ callee args => .expr callee :: args.map .expr
  | .array _ items => items.map .expr
  | .index _ left i => [.expr left, .expr i]
  | .dict _ pairs => pairs.flatMap fun (key, value) => [.expr key, .expr value]

/-- The nodes right below a statement. A name that is bound is none. -/
def Stmt.children : Stmt → List Node
  | .letIn _ _ value | .ret _ value | .expr _ value => [.expr value]

/-- The nodes right below a node. -/
def Node.children : Node → List Node
  | program p => p.map .stmt
  | stmt s => s.children
  | block b => b.body.map .stmt
  | expr e => e.children

section Induction

variable {P : Node → Prop}

mutual

/-- What holds of a node if it holds of its children holds of an
expression. The children of each form are gone through one by one. -/
theorem Expr.induction (h : ∀ t : Node, (∀ c ∈ t.children, P c) → P t) :
    ∀ e : Expr, P (.expr e)
  | .ident _ _ | .int _ _ | .str _ _ | .bool _ _ => h _ nofun
  | .unary _ _ operand => h _ (List.forall_mem_singleton.mpr (operand.induction h))
  | .binary _ _ left right => h _ (by
      intro c hc
      obtain rfl | rfl : c = .expr left ∨ c = .expr right := by
        simpa [Node.children, Expr.children] using hc
      · exact left.induction h
      · exact right.induction h)
  | .cond _ condition consequence alternative => h _ (by
      intro c hc
      obtain rfl | rfl | hc : c = .expr condition ∨ c = .block consequence ∨
          c ∈ alternative.toList.map Node.block := by
        simpa [Node.children, Expr.children] using hc
      · exact condition.induction h
      · exact consequence.induction h
      · exact else_induction h alternative c hc)
  | .lambda _ _ params body => h _ (by
      intro c hc
      obtain ⟨name, -, rfl⟩ | rfl :
          (∃ name ∈ params, .expr (.mkIdent name) = c) ∨ c = .block body := by
        simpa [Node.children, Expr.children] using hc
      · exact h _ nofun
      · exact body.induction h)
  | .call _ callee args => h _ (by
      intro c hc
      obtain rfl | hc : c = .expr callee ∨ c ∈ args.map Node.expr := List.mem_cons.mp hc
      · exact callee.induction h
      · exact exprs_induction h args c hc)
  | .array _ items => h _ (exprs_induction h items)
  | .index _ left index => h _ (by
      intro c hc
      obtain rfl | rfl : c = .expr left ∨ c = .expr index := by
        simpa [Node.children, Expr.children] using hc
      · exact left.induction h
      · exact index.induction h)
  | .dict _ pairs => h _ (pairs_induction h pairs)

/-- So it holds of the expressions in a list. -/
theorem exprs_induction (h : ∀ t : Node, (∀ c ∈ t.children, P c) → P t) :
    ∀ es : List Expr, ∀ c ∈ es.map Node.expr, P c
  | [] => nofun
  | e :: rest => List.forall_mem_cons.mpr ⟨e.induction h, exprs_induction h rest⟩

/-- So it holds of the keys and values of a dict. -/
theorem pairs_induction (h : ∀ t : Node, (∀ c ∈ t.children, P c) → P t) :
    ∀ pairs : List (Expr × Expr),
      ∀ c ∈ pairs.flatMap (fun (key, value) => [Node.expr key, .expr value]), P c
  | [] => nofun
  | (key, value) :: rest =>
      List.forall_mem_cons.mpr ⟨key.induction h,
        List.forall_mem_cons.mpr ⟨value.induction h, pairs_induction h rest⟩⟩

/-- So it holds of the branch that may follow the first one. -/
theorem else_induction (h : ∀ t : Node, (∀ c ∈ t.children, P c) → P t) :
    ∀ b : Option Block, ∀ c ∈ b.toList.map Node.block, P c
  | none => nofun
  | some b => List.forall_mem_singleton.mpr (b.induction h)

/-- So it holds of a block. -/
theorem Block.induction (h : ∀ t : Node, (∀ c ∈ t.children, P c) → P t) :
    ∀ b : Block, P (.block b)
  | .mk _ body => h _ (body_induction h body)

/-- So it holds of the statements in a list. -/
theorem body_induction (h : ∀ t : Node, (∀ c ∈ t.children, P c) → P t) :
    ∀ body : List Stmt, ∀ c ∈ body.map Node.stmt, P c
  | [] => nofun
  | s :: rest => List.forall_mem_cons.mpr ⟨s.induction h, body_induction h rest⟩

/-- So it holds of a statement. -/
theorem Stmt.induction (h : ∀ t : Node, (∀ c ∈ t.children, P c) → P t) :
    ∀ s : Stmt, P (.stmt s)
  | .letIn _ _ value | .ret _ value | .expr _ value =>
      h _ (List.forall_mem_singleton.mpr (value.induction h))

end

/-- A property holds of every node if a node has it as soon as its
children have it. -/
theorem Node.induction (step : ∀ t : Node, (∀ c ∈ t.children, P c) → P t) : ∀ t : Node, P t
  | .program p => step _ (body_induction step p)
  | .stmt s => s.induction step
  | .block b => b.induction step
  | .expr e => e.induction step

end Induction

/-- Recursion on a node may go on with its children. -/
instance : WellFoundedRelation Node where
  rel c t := c ∈ t.children
  wf := ⟨Node.induction fun t ih => ⟨t, ih⟩⟩

/-- All nodes of a tree, every node behind the nodes below it. -/
def Node.postorder (t : Node) : List Node :=
  (t.children.attach.flatMap fun ⟨c, _⟩ => c.postorder) ++ [t]
termination_by t

/-- The nodes below a node come before it, child by child. -/
theorem Node.postorder_eq (t : Node) :
    t.postorder = t.children.flatMap Node.postorder ++ [t] := by
  rw [Node.postorder, List.flatMap_subtype (by intro _ _; rfl), List.unattach_attach]

/-! ### Filling the places of a node -/

/-- A node that was handed to the transform, and the answer. -/
structure Visit where
  handed : Node
  answer : Node

namespace Visit

/-- What a visit leaves in the place of the expression `e`: the answer
if it fits there, and what was handed out otherwise. -/
def expr (v : Visit) (e : Expr) : Expr :=
  v.answer.expr?.getD (v.handed.expr?.getD e)

/-- What a visit leaves in the place of the block `b`. -/
def block (v : Visit) (b : Block) : Block :=
  v.answer.block?.getD (v.handed.block?.getD b)

/-- What a visit leaves in the place of the statement `s`. -/
def stmt (v : Visit) (s : Stmt) : Stmt :=
  v.answer.stmt?.getD (v.handed.stmt?.getD s)

/-- What a visit leaves in the place of the parameter `name`: only an
identifier fits there. -/
def name (v : Visit) (name : String) : String :=
  v.answer.name?.getD (v.handed.name?.getD name)

end Visit

/-- The places of a dict, filled by the visits of the keys and values. -/
def refillPairs : List (Expr × Expr) → List Visit → List (Expr × Expr)
  | (key, value) :: rest, v :: w :: visits =>
    (v.expr key, w.expr value) :: refillPairs rest visits
  | pairs, _ => pairs

/-- The same expression, its token included, with its places filled by
the visits of its children. -/
def Expr.refill : Expr → List Visit → Expr
  | .unary t op operand, [v] => .unary t op (v.expr operand)
  | .binary t op left right, [v, w] => .binary t op (v.expr left) (w.expr right)
  | .cond t condition consequence alternative, v :: w :: visits =>
    .cond t (v.expr condition) (w.block consequence)
      (alternative.map fun b => visits.head?.elim b (·.block b))
  | .lambda t kind params body, visits =>
    .lambda t kind (List.zipWith Visit.name visits.dropLast params)
      (visits.getLast?.elim body (·.block body))
  | .call t callee args, v :: visits =>
    .call t (v.expr callee) (List.zipWith Visit.expr visits args)
  | .array t items, visits => .array t (List.zipWith Visit.expr visits items)
  | .index t left i, [v, w] => .index t (v.expr left) (w.expr i)
  | .dict t pairs, visits => .dict t (refillPairs pairs visits)
  | e, _ => e

/-- The same statement with its place filled by the visit of its child. -/
def Stmt.refill : Stmt → List Visit → Stmt
  | .letIn t name value, [v] => .letIn t name (v.expr value)
  | .ret t value, [v] => .ret t (v.expr value)
  | .expr t value, [v] => .expr t (v.expr value)
  | s, _ => s

/-- The same node with its places filled by the visits of its children. -/
def Node.refill : Node → List Visit → Node
  | program p, visits => program (List.zipWith Visit.stmt visits p)
  | stmt s, visits => stmt (s.refill visits)
  | block (.mk t body), visits => block (.mk t (List.zipWith Visit.stmt visits body))
  | expr e, visits => expr (e.refill visits)

/-! ### Visits -/

section Visits

variable {m : Type → Type u} [Monad m]

/-- Visits the parts of a node, then the node itself. -/
def Node.visit (f : Node → m Node) (t : Node) : m Visit := do
  let handed ← t.visitParts f
  let answer ← f handed
  return ⟨handed, answer⟩

/-- One turn of the pass as a loop: the node takes the visits of its
children from the stack, the last one on top, and leaves its own there. -/
def handOut (f : Node → m Node) (stack : List Visit) (t : Node) : m (List Visit) := do
  let size := t.children.length
  let handed := t.refill (stack.take size).reverse
  let answer ← f handed
  return ⟨handed, answer⟩ :: stack.drop size

/-- The same transform with its calls counted. -/
def counted (f : Node → m Node) (t : Node) : StateT Nat m Node := do
  modify (· + 1)
  f t

/-- The transform that has an effect and returns what it is handed. -/
def onlyEffect (effect : Node → m Unit) (t : Node) : m Node := do
  effect t
  return t

variable [LawfulMonad m] (f : Node → m Node)

/-- A pass gives the answer of the visit of the root. -/
theorem Node.transformM_eq_visit (t : Node) : t.transformM f = Visit.answer <$> t.visit f := by
  simp [Node.transformM, Node.visit]

/-- What fills the place of an expression is known from its visit. -/
theorem exprPlace_eq_visit (e : Expr) :
    e.visitParts f >>= exprPlace f = (·.expr e) <$> Node.visit f (.expr e) := by
  show (e.visitParts f >>= fun e' => exprPlace f e') = _
  simp [exprPlace, Node.visit, Node.visitParts, Visit.expr, Node.expr?]

/-- The same for a block. -/
theorem blockPlace_eq_visit (b : Block) :
    b.visitParts f >>= blockPlace f = (·.block b) <$> Node.visit f (.block b) := by
  show (b.visitParts f >>= fun b' => blockPlace f b') = _
  simp [blockPlace, Node.visit, Node.visitParts, Visit.block, Node.block?]

/-- The same for a statement. -/
theorem stmtPlace_eq_visit (s : Stmt) :
    s.visitParts f >>= stmtPlace f = (·.stmt s) <$> Node.visit f (.stmt s) := by
  show (s.visitParts f >>= fun s' => stmtPlace f s') = _
  simp [stmtPlace, Node.visit, Node.visitParts, Visit.stmt, Node.stmt?]

/-- The same for a parameter, which is visited as an identifier. -/
theorem paramPlace_eq_visit (name : String) :
    paramPlace f name = (·.name name) <$> Node.visit f (.expr (.mkIdent name)) := by
  simp [paramPlace, Node.visit, Node.visitParts, Expr.visitParts, Expr.mkIdent, Visit.name,
    Node.name?]

/-- Parameters are visited one by one, and then filled in. -/
theorem visitParams_eq_visits (names : List String) :
    visitParams f names = (List.zipWith Visit.name · names) <$>
      (names.map fun name => .expr (.mkIdent name)).mapM (Node.visit f) := by
  induction names with
  | nil => simp [visitParams]
  | cons name rest ih => simp [visitParams, paramPlace_eq_visit, ih]

/-- The same for a list of expressions. -/
theorem visitExprs_eq_visits (es : List Expr) :
    visitExprs f es = (List.zipWith Visit.expr · es) <$> (es.map .expr).mapM (Node.visit f) := by
  induction es with
  | nil => simp [visitExprs]
  | cons e rest ih => simp [visitExprs, exprPlace_eq_visit, ih]

/-- The same for the pairs of a dict, each of which has two visits. -/
theorem visitPairs_eq_visits (pairs : List (Expr × Expr)) :
    visitPairs f pairs = (refillPairs pairs ·) <$>
      (pairs.flatMap fun (key, value) => [Node.expr key, .expr value]).mapM (Node.visit f) := by
  induction pairs with
  | nil => simp [visitPairs, refillPairs]
  | cons pair rest ih => simp [visitPairs, exprPlace_eq_visit, ih, refillPairs]

/-- The same for a list of statements. -/
theorem visitBody_eq_visits (body : List Stmt) :
    visitBody f body = (List.zipWith Visit.stmt · body) <$>
      (body.map .stmt).mapM (Node.visit f) := by
  induction body with
  | nil => simp [visitBody]
  | cons s rest ih => simp [visitBody, stmtPlace_eq_visit, ih]

/-- Statements behind others are visited after them. -/
theorem visitBody_append (p q : List Stmt) : visitBody f (p ++ q) = do
      let p' ← visitBody f p
      let q' ← visitBody f q
      return p' ++ q' := by
  induction p with
  | nil => simp [visitBody]
  | cons st rest ih => simp [visitBody, ih]

/-- The same for the branch that may follow the first one. -/
theorem visitElse_eq_visits (b : Option Block) :
    visitElse f b = (fun visits : List Visit => b.map fun b => visits.head?.elim b (·.block b)) <$>
      (b.toList.map .block).mapM (Node.visit f) := by
  cases b with
  | none => simp [visitElse]
  | some b => simp [visitElse, blockPlace_eq_visit]

/-- The parts of an expression are visited by visiting its children, and
then filled in. -/
theorem Expr.visitParts_eq_visits (e : Expr) :
    e.visitParts f = (e.refill ·) <$> e.children.mapM (Node.visit f) := by
  cases e with
  | ident | int | str | bool => simp [Expr.visitParts, Expr.children, Expr.refill]
  | unary => simp [Expr.visitParts, Expr.children, Expr.refill, exprPlace_eq_visit]
  | binary => simp [Expr.visitParts, Expr.children, Expr.refill, exprPlace_eq_visit]
  | cond =>
      simp [Expr.visitParts, Expr.children, Expr.refill, exprPlace_eq_visit, blockPlace_eq_visit,
        visitElse_eq_visits]
  | lambda =>
      simp [Expr.visitParts, Expr.children, Expr.refill, blockPlace_eq_visit, visitParams_eq_visits]
  | call =>
      simp [Expr.visitParts, Expr.children, Expr.refill, exprPlace_eq_visit, visitExprs_eq_visits]
  | array => simp [Expr.visitParts, Expr.children, Expr.refill, visitExprs_eq_visits]
  | index => simp [Expr.visitParts, Expr.children, Expr.refill, exprPlace_eq_visit]
  | dict => simp [Expr.visitParts, Expr.children, Expr.refill, visitPairs_eq_visits]

/-- The same for a node. -/
theorem Node.visitParts_eq_visits (t : Node) :
    t.visitParts f = (t.refill ·) <$> t.children.mapM (Node.visit f) := by
  cases t with
  | program p => simp [Node.visitParts, Node.children, Node.refill, visitBody_eq_visits]
  | stmt s =>
      cases s <;>
        simp [Node.visitParts, Stmt.visitParts, Node.children, Stmt.children, Node.refill,
          Stmt.refill, exprPlace_eq_visit]
  | block b =>
      cases b
      simp [Node.visitParts, Block.visitParts, Node.children, Block.body, Node.refill,
        visitBody_eq_visits]
  | expr e => simp [Node.visitParts, Node.children, Node.refill, Expr.visitParts_eq_visits]

/-- A visit starts with visits of the children, from left to right, and
hands out the node with these in its places. -/
theorem Node.visit_eq (t : Node) :
    t.visit f = do
      let visits ← t.children.mapM (Node.visit f)
      let handed := t.refill visits
      let answer ← f handed
      return ⟨handed, answer⟩ := by
  simp [Node.visit, Node.visitParts_eq_visits]

/-! ### The pass as a loop -/

variable {f}

/-- What comes after visits of some nodes may rely on the number of the
visits. -/
theorem mapM_visit_congr {α : Type} {next next' : List Visit → m α} (ts : List Node)
    (h : ∀ visits, visits.length = ts.length → next visits = next' visits) :
    ts.mapM (Node.visit f) >>= next = ts.mapM (Node.visit f) >>= next' := by
  induction ts generalizing next next' with
  | nil => simpa using h [] rfl
  | cons t rest ih =>
      simp only [List.mapM_cons, bind_assoc, pure_bind]
      refine bind_congr fun v => ih fun visits hvisits => h (v :: visits) ?_
      rw [List.length_cons, List.length_cons, hvisits]

/-- The loop over the nodes below some nodes leaves the visits of these
nodes on the stack. -/
theorem foldlM_handOut_flatMap {ts : List Node}
    (h : ∀ t ∈ ts, ∀ stack, t.postorder.foldlM (handOut f) stack = (· :: stack) <$> t.visit f)
    (stack : List Visit) :
    (ts.flatMap Node.postorder).foldlM (handOut f) stack =
      (fun visits => visits.reverse ++ stack) <$> ts.mapM (Node.visit f) := by
  -- The visits of the nodes before are on the stack when the next node comes.
  induction ts generalizing stack with
  | nil => simp
  | cons t rest ih =>
      obtain ⟨ht, hrest⟩ := List.forall_mem_cons.mp h
      simp [List.foldlM_append, ht, ih hrest]

omit [LawfulMonad m] in
/-- The last turn of the loop takes the visits of the children from the
stack. -/
theorem handOut_visits {t : Node} {visits : List Visit}
    (h : visits.length = t.children.length) (stack : List Visit) :
    handOut f (visits.reverse ++ stack) t = do
      let handed := t.refill visits
      let answer ← f handed
      return ⟨handed, answer⟩ :: stack := by
  -- The visit of the last child is on top.
  have hsize : t.children.length = visits.reverse.length := by rw [List.length_reverse, h]
  simp only [handOut, hsize, List.take_left, List.drop_left, List.reverse_reverse]

/-- A visit is the loop over the nodes of the tree. -/
theorem Node.foldlM_postorder (t : Node) (stack : List Visit) :
    t.postorder.foldlM (handOut f) stack = (· :: stack) <$> t.visit f := by
  induction t using Node.induction generalizing stack with
  | step t ih =>
      -- First the nodes below, which leave the visits of the children there, then the node itself.
      rw [Node.postorder_eq, List.foldlM_append, foldlM_handOut_flatMap ih, Node.visit_eq,
        map_eq_pure_bind, map_bind, bind_assoc]
      refine mapM_visit_congr t.children fun visits hvisits => ?_
      simp [handOut_visits hvisits]

/-- The answer of a pass is on top of the stack when the loop ends. -/
theorem Node.transformM_eq_foldlM (t : Node) :
    t.transformM f = (fun stack : List Visit => stack.head?.elim t Visit.answer) <$>
      t.postorder.foldlM (handOut f) [] := by
  simp [Node.transformM_eq_visit, Node.foldlM_postorder]

/-! ### The number of calls -/

/-- One turn of the loop calls the transform once. -/
theorem handOut_counted (stack : List Visit) (t : Node) (calls : Nat) :
    (handOut (counted f) stack t).run calls = (·, calls + 1) <$> handOut f stack t := by
  have hcall (node : Node) : (counted f node).run calls = (·, calls + 1) <$> f node := by
    show pure ((), calls + 1) >>= (fun p => (StateT.lift (f node)).run p.2) = _
    simp
  simp [handOut, hcall]

/-- The loop calls the transform once for every node in the list. -/
theorem foldlM_handOut_counted (ts : List Node) (stack : List Visit) (calls : Nat) :
    (ts.foldlM (handOut (counted f)) stack).run calls =
      (·, calls + ts.length) <$> ts.foldlM (handOut f) stack := by
  induction ts generalizing stack calls with
  | nil => simp
  | cons t rest ih =>
      simp [handOut_counted, ih, Nat.add_assoc, Nat.add_comm 1]

/-! ### Passes that change nothing -/

/-- The visits that give back what they are handed. -/
def Node.unchanged (t : Node) : Visit :=
  ⟨t, t⟩

/-- Pairs that are filled with what they were stay as they are. -/
theorem refillPairs_unchanged (pairs : List (Expr × Expr)) :
    refillPairs pairs
      ((pairs.flatMap fun (key, value) => [Node.expr key, .expr value]).map Node.unchanged) =
        pairs := by
  induction pairs with
  | nil => rfl
  | cons pair rest ih =>
      obtain ⟨key, value⟩ := pair
      exact congrArg ((key, value) :: ·) ih

/-- A list that is filled with what was in it stays as it is. -/
theorem zipWith_unchanged {α : Type} {part : α → Node} {place : Visit → α → α}
    (h : ∀ a, place (part a).unchanged a = a) (as : List α) :
    List.zipWith place ((as.map part).map Node.unchanged) as = as := by
  induction as with
  | nil => rfl
  | cons a rest ih => rw [List.map_cons, List.map_cons, List.zipWith_cons_cons, h, ih]

/-- Places that are filled with what was in them. -/
theorem Node.refill_unchanged (t : Node) : t.refill (t.children.map Node.unchanged) = t := by
  cases t with
  | program p => exact congrArg program (zipWith_unchanged (fun _ => rfl) p)
  | stmt s => cases s <;> rfl
  | block b =>
      obtain ⟨t, body⟩ := b
      exact congrArg (fun body => block (.mk t body)) (zipWith_unchanged (fun _ => rfl) body)
  | expr e =>
      refine congrArg expr ?_
      cases e with
      | ident | int | str | bool | unary | binary | index => rfl
      | cond t condition consequence alternative => cases alternative <;> rfl
      | lambda t kind params body =>
          -- The block is the last child, and the parameters are all children before it.
          have hname (name : String) :
              (Node.expr (.mkIdent name)).unchanged.name name = name := rfl
          have hparams := zipWith_unchanged hname params
          rw [List.map_map] at hparams
          simp only [children, Expr.children, Expr.refill, List.map_append, List.map_map,
            List.map_cons, List.map_nil, List.dropLast_concat, List.getLast?_concat, hparams]
          rfl
      | call t callee args =>
          exact congrArg (Expr.call t callee) (zipWith_unchanged (fun _ => rfl) args)
      | array t items => exact congrArg (Expr.array t) (zipWith_unchanged (fun _ => rfl) items)
      | dict t pairs => exact congrArg (Expr.dict t) (refillPairs_unchanged pairs)

/-- Visits that only have effects. -/
theorem mapM_visit_onlyEffect {effect : Node → m Unit} {ts : List Node}
    (h : ∀ t ∈ ts, t.visit (onlyEffect effect) = do
      t.postorder.forM effect
      return t.unchanged) :
    ts.mapM (Node.visit (onlyEffect effect)) = do
      (ts.flatMap Node.postorder).forM effect
      return ts.map Node.unchanged := by
  induction ts with
  | nil => simp
  | cons t rest ih =>
      obtain ⟨ht, hrest⟩ := List.forall_mem_cons.mp h
      simp [List.forM_append, ht, ih hrest]

/-- A visit that only has effects has them in postorder, and leaves the
node as it is. -/
theorem Node.visit_onlyEffect (effect : Node → m Unit) (t : Node) :
    t.visit (onlyEffect effect) = do
      t.postorder.forM effect
      return t.unchanged := by
  induction t using Node.induction with
  | step t ih =>
      -- The children are as they were, so the node that is rebuilt from them is, too.
      rw [Node.visit_eq, mapM_visit_onlyEffect ih, Node.postorder_eq]
      simp [Node.refill_unchanged, onlyEffect, List.forM_append, Node.unchanged]

/-! ### Two passes over the same tree -/

section Coupled

variable {n : Type → Type v} [Monad n] [LawfulMonad n] {C : Coupling m n} {g : Node → n Node}

/-- Two loops over the same list answer with the same, as far as their
turns do. -/
theorem mapM_relates {α β : Type} {x : α → m β} {y : α → n β} (as : List α)
    (h : ∀ a ∈ as, C.relates (x a) (y a) Eq) : C.relates (as.mapM x) (as.mapM y) Eq := by
  induction as with
  | nil =>
      rw [List.mapM_nil, List.mapM_nil]
      exact C.pure rfl
  | cons a rest ih =>
      obtain ⟨ha, hrest⟩ := List.forall_mem_cons.mp h
      rw [List.mapM_cons, List.mapM_cons]
      refine C.bind ha fun b b' hb => C.bind (ih hrest) fun bs bs' hbs => C.pure ?_
      rw [hb, hbs]

/-- Two visits of the same node are the same, as far as the two
transforms answer with the same. -/
theorem Node.visit_relates (h : ∀ node : Node, C.relates (f node) (g node) Eq) (t : Node) :
    C.relates (t.visit f) (t.visit g) Eq := by
  induction t using Node.induction with
  | step t ih =>
      rw [Node.visit_eq, Node.visit_eq]
      refine C.bind (mapM_relates _ ih) fun visits visits' hvisits => ?_
      subst hvisits
      exact C.bind (h _) fun answer answer' hanswer => C.pure (by rw [hanswer])

omit [LawfulMonad m] [LawfulMonad n] in
/-- So are two loops that hand out the same nodes. -/
theorem foldlM_handOut_relates (h : ∀ node : Node, C.relates (f node) (g node) Eq) (ts : List Node)
    (stack : List Visit) :
    C.relates (ts.foldlM (handOut f) stack) (ts.foldlM (handOut g) stack) Eq := by
  induction ts generalizing stack with
  | nil =>
      rw [List.foldlM_nil, List.foldlM_nil]
      exact C.pure rfl
  | cons t rest ih =>
      have hturn : C.relates (handOut f stack t) (handOut g stack t) Eq :=
        C.bind (h _) fun answer answer' hanswer => C.pure (by rw [hanswer])
      rw [List.foldlM_cons, List.foldlM_cons]
      -- The first turns leave the same stack behind.
      refine C.bind hturn fun stack' stack'' hstack => ?_
      subst hstack
      exact ih stack'

/-- So are two visits of the same statements. -/
theorem visitBody_relates (h : ∀ node : Node, C.relates (f node) (g node) Eq) (body : List Stmt) :
    C.relates (visitBody f body) (visitBody g body) Eq := by
  have hvisits := mapM_relates (body.map Node.stmt) fun t _ => Node.visit_relates h t
  rw [visitBody_eq_visits, visitBody_eq_visits, map_eq_pure_bind, map_eq_pure_bind]
  exact C.bind hvisits fun visits visits' heq => C.pure (by rw [heq])

/-- Two passes over the same tree give the same, as far as the two
transforms do. -/
theorem Node.transformM_relates (h : ∀ node : Node, C.relates (f node) (g node) Eq) (t : Node) :
    C.relates (t.transformM f) (t.transformM g) Eq := by
  rw [Node.transformM_eq_visit, Node.transformM_eq_visit, map_eq_pure_bind, map_eq_pure_bind]
  exact C.bind (Node.visit_relates h t) fun v v' hv => C.pure (congrArg Visit.answer hv)

end Coupled

variable (f)

/-- A pass visits the nodes of the tree in postorder, and nothing else.

A visit starts with the visits of the children. Then the node itself is
handed to the transform: the node of the tree, its token included, with
the answers for its children in its places, except that a place keeps
what was handed out when the answer does not fit. Put as a loop, every
node of the tree is handed out once, behind the nodes below it. The
answer for the root is the answer of the pass.

So the number of calls is the number of nodes, whatever the transform
does, and a transform that returns what it is handed gives back the
tree. -/
theorem Node.transformM_postorder (t : Node) :
    t.postorder = t.children.flatMap Node.postorder ++ [t] ∧
    (t.visit f = do
      let visits ← t.children.mapM (Node.visit f)
      let handed := t.refill visits
      let answer ← f handed
      return ⟨handed, answer⟩) ∧
    t.postorder.foldlM (handOut f) [] = (fun v => [v]) <$> t.visit f ∧
    t.transformM f = Visit.answer <$> t.visit f ∧
    (∀ calls, (t.transformM (counted f)).run calls =
      (·, calls + t.postorder.length) <$> t.transformM f) ∧
    ∀ effect : Node → m Unit, t.transformM (onlyEffect effect) = do
      t.postorder.forM effect
      return t := by
  refine ⟨t.postorder_eq, t.visit_eq f, t.foldlM_postorder [], t.transformM_eq_visit f,
    fun calls => ?_, fun effect => ?_⟩
  -- As a loop, the pass has one turn for each node.
  · rw [Node.transformM_eq_foldlM, Node.transformM_eq_foldlM, StateT.run_map,
      foldlM_handOut_counted]
    simp
  · rw [Node.transformM_eq_visit, Node.visit_onlyEffect]
    simp [Node.unchanged]

end Visits

/-- The function literal `fn(x) { x; }`. -/
def identityLiteral : Node :=
  .expr (.lambda (.fixed .fnWord {}) .function ["x"]
    (.ofStmts [.expr ⟨.ident, "x", {}⟩ (.mkIdent "x")]))

/-- Writes down what a node is. -/
def logKind (t : Node) : StateM (List String) Unit :=
  modify (· ++ [t.kindName])

/-- The nodes of `fn(x) { x }` in the order in which a transform is
called on them. -/
theorem transformM_postorder_identityLiteral :
    LawfulMonad (StateM (List String)) ∧
    (identityLiteral.transformM (onlyEffect logKind)).run [] =
      (identityLiteral, ["expression", "expression", "statement", "block", "expression"]) := by
  have hpostorder : identityLiteral.postorder =
      [.expr (.mkIdent "x"), .expr (.mkIdent "x"), .stmt (.expr ⟨.ident, "x", {}⟩ (.mkIdent "x")),
        .block (.ofStmts [.expr ⟨.ident, "x", {}⟩ (.mkIdent "x")]), identityLiteral] := by
    simp [identityLiteral, Node.postorder_eq, Node.children, Expr.children, Stmt.children,
      Block.ofStmts, Block.body, Expr.mkIdent]
  refine ⟨inferInstance, ?_⟩
  rw [(Node.transformM_postorder (pure : Node → StateM (List String) Node)
    identityLiteral).2.2.2.2.2 logKind, hpostorder]
  rfl

end QuoteScript
