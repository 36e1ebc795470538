import Mathlib.Data.List.Forall2
import QuoteScript.Proofs.Tree.Postorder
import QuoteScript.Proofs.Tree.Visit

/-!
# `QuoteScript.Proofs.Tree.Fitting`: answers that fit in their places

A pass fills the places of a node with the answers for its children. An
answer that fits in its place is found there, so the children of the new
node are the answers, one by one. An expression fits in the place of
another one, unless this place may be that of a parameter: the place of an
identifier takes no other node here.

* `Node.Fits`: what fits in the place of a child.
* `Node.rebuild`: the same node with other children.
* `Node.refill_eq_rebuild`, `Node.children_refill`: a node whose places
  are filled with answers that fit.
* `Node.visit_gives`, `Node.visit_gives_unchanged`: what can be said about
  a pass node by node.
-/

set_option autoImplicit false

namespace QuoteScript

universe u

/-- The second node fits in the place of the first one. -/
inductive Node.Fits : Node → Node → Prop where
  | program (p p' : Program) : Fits (.program p) (.program p')
  | stmt (s s' : Stmt) : Fits (.stmt s) (.stmt s')
  | block (b b' : Block) : Fits (.block b) (.block b')
  | ident (t : Token) (name : String) : Fits (.expr (.ident t name)) (.expr (.ident t name))
  | expr {e : Expr} (he : (Node.expr e).name? = none) (e' : Expr) : Fits (.expr e) (.expr e')

/-- The same node, its token included, with other children. -/
def Node.rebuild (t : Node) (children : List Node) : Node :=
  t.refill (children.map Node.unchanged)

/-! ### Tokens and shapes -/

/-- Filling the places of an expression leaves its token. -/
@[simp]
theorem Expr.token_refill (e : Expr) (visits : List Visit) : (e.refill visits).token = e.token := by
  unfold Expr.refill
  split <;> rfl

/-- An expression that is no identifier stays one. -/
theorem Expr.name?_refill (e : Expr) (visits : List Visit) :
    (Node.expr (e.refill visits)).name? = (Node.expr e).name? := by
  unfold Expr.refill
  split <;> rfl

namespace Node

/-- A node whose places are filled is a call only if it was one. -/
theorem refill_call_cases (t : Node) (visits : List Visit) :
    (∃ token callee args, t = .expr (.call token callee args)) ∨
      ∀ token callee args, t.refill visits ≠ .expr (.call token callee args) := by
  cases t with
  | program | stmt => exact .inr nofun
  | block b =>
      cases b
      exact .inr nofun
  | expr e =>
      cases e with
      | call token callee args => exact .inl ⟨token, callee, args, rfl⟩
      | _ =>
          -- An expression keeps its form, whatever its places are filled with.
          refine .inr fun token callee args heq => ?_
          have hcall := Node.expr.inj heq
          unfold Expr.refill at hcall
          split at hcall <;> contradiction

/-- A node fits where it stands. -/
theorem Fits.refl (t : Node) : t.Fits t := by
  cases t with
  | program p => exact .program p p
  | stmt s => exact .stmt s s
  | block b => exact .block b b
  | expr e =>
      cases e with
      | ident t name => exact .ident t name
      | _ => exact .expr rfl _

/-- What fits the place of a node that fits a place fits this place,
too. -/
theorem Fits.trans {t t' t'' : Node} (h : t.Fits t') (h' : t'.Fits t'') : t.Fits t'' := by
  cases h with
  | program => cases h'; exact .program _ _
  | stmt => cases h'; exact .stmt _ _
  | block => cases h'; exact .block _ _
  | ident => exact h'
  | expr he => cases h' <;> exact .expr he _

/-- What fits in the place of an expression is one. -/
theorem Fits.eq_expr {e : Expr} {t : Node} (h : (Node.expr e).Fits t) : ∃ e', t = .expr e' := by
  cases h with
  | ident => exact ⟨_, rfl⟩
  | expr => exact ⟨_, rfl⟩

/-- Only an identifier itself is known to fit in its place. -/
theorem Fits.eq_ident {t : Token} {name : String} {t' : Node}
    (h : (Node.expr (.ident t name)).Fits t') : t' = .expr (.ident t name) := by
  cases h with
  | ident => rfl
  | expr he => cases he

/-- A node fits in its place again when its places have been filled. -/
theorem fits_refill (t : Node) (visits : List Visit) : t.Fits (t.refill visits) := by
  cases t with
  | program => exact .program _ _
  | stmt => exact .stmt _ _
  | block b =>
      cases b
      exact .block _ _
  | expr e =>
      cases e with
      | ident t name => exact .ident t name
      | _ => exact .expr rfl _

end Node

/-! ### Places -/

namespace Visit

variable {v : Visit}

/-! A visit whose answer fits in the place of what was handed out leaves
the same in a place as the answer alone. -/

/-- An answer that fits fills the place of an expression, so what was
handed out does not count any more. -/
theorem expr_unchanged (h : v.handed.Fits v.answer) (e : Expr) :
    v.answer.unchanged.expr e = v.expr e := by
  obtain ⟨handed, answer⟩ := v
  cases h <;> rfl

/-- The same for the place of a block. -/
theorem block_unchanged (h : v.handed.Fits v.answer) (b : Block) :
    v.answer.unchanged.block b = v.block b := by
  obtain ⟨handed, answer⟩ := v
  cases h <;> rfl

/-- The same for the place of a statement. -/
theorem stmt_unchanged (h : v.handed.Fits v.answer) (s : Stmt) :
    v.answer.unchanged.stmt s = v.stmt s := by
  obtain ⟨handed, answer⟩ := v
  cases h <;> rfl

/-- The same for the place of a parameter. -/
theorem name_unchanged (h : v.handed.Fits v.answer) (name : String) :
    v.answer.unchanged.name name = v.name name := by
  obtain ⟨handed, answer⟩ := v
  cases h with
  | @expr e he e' =>
      -- What was handed out is no identifier, so only the answer counts.
      show (Node.expr e').name?.getD ((Node.expr e').name?.getD name) =
        (Node.expr e').name?.getD ((Node.expr e).name?.getD name)
      rw [he]
      cases (Node.expr e').name? <;> rfl
  | _ => rfl

end Visit

/-- What the answers of visits leave in places of one kind. -/
theorem zipWith_answers {α : Type} {place : Visit → α → α} {visits : List Visit}
    (h : ∀ v ∈ visits, ∀ a, place v.answer.unchanged a = place v a) (as : List α) :
    List.zipWith place (visits.map fun v => v.answer.unchanged) as =
      List.zipWith place visits as := by
  induction visits generalizing as with
  | nil => rfl
  | cons v visits ih =>
      cases as with
      | nil => rfl
      | cons a as =>
          obtain ⟨hv, hrest⟩ := List.forall_mem_cons.mp h
          rw [List.map_cons, List.zipWith_cons_cons, List.zipWith_cons_cons, hv, ih hrest]

/-- Pairs are filled with the answers, if these fit. -/
theorem refillPairs_answers {visits : List Visit} (h : ∀ v ∈ visits, v.handed.Fits v.answer)
    (pairs : List (Expr × Expr)) :
    refillPairs pairs (visits.map fun v => v.answer.unchanged) = refillPairs pairs visits := by
  induction pairs generalizing visits with
  | nil => cases visits <;> rfl
  | cons pair rest ih =>
      obtain ⟨key, value⟩ := pair
      -- Two visits fill one pair; a single one is left out.
      match visits with
      | [] | [_] => rfl
      | v :: w :: visits =>
          obtain ⟨hv, hw, hrest⟩ : v.handed.Fits v.answer ∧ w.handed.Fits w.answer ∧
              ∀ u ∈ visits, u.handed.Fits u.answer := by simpa using h
          rw [List.map_cons, List.map_cons, refillPairs, refillPairs, Visit.expr_unchanged hv,
            Visit.expr_unchanged hw, ih hrest]

/-- An expression is filled with the answers, if these fit. -/
theorem Expr.refill_answers (e : Expr) {visits : List Visit}
    (h : ∀ v ∈ visits, v.handed.Fits v.answer) :
    e.refill (visits.map fun v => v.answer.unchanged) = e.refill visits := by
  have hexprs {visits : List Visit} (h : ∀ v ∈ visits, v.handed.Fits v.answer) (es : List Expr) :
      List.zipWith Visit.expr (visits.map fun v => v.answer.unchanged) es =
        List.zipWith Visit.expr visits es :=
    zipWith_answers (fun v hv => Visit.expr_unchanged (h v hv)) es
  cases e with
  | ident | int | str | bool => rfl
  | unary t op operand =>
      obtain _ | ⟨v, _ | _⟩ := visits
      · rfl
      · simp [refill, Visit.expr_unchanged, h]
      · rfl
  | binary t op left right =>
      obtain _ | ⟨v, _ | ⟨w, _ | _⟩⟩ := visits
      · rfl
      · rfl
      · simp [refill, Visit.expr_unchanged, h]
      · rfl
  | index t left i =>
      obtain _ | ⟨v, _ | ⟨w, _ | _⟩⟩ := visits
      · rfl
      · rfl
      · simp [refill, Visit.expr_unchanged, h]
      · rfl
  | cond t condition consequence alternative =>
      obtain _ | ⟨v, _ | ⟨w, _ | _⟩⟩ := visits
      · rfl
      · rfl
      · simp [refill, Visit.expr_unchanged, Visit.block_unchanged, h]
      · simp [refill, Visit.expr_unchanged, Visit.block_unchanged, h]
  | lambda t kind params body =>
      -- The last visit is that of the body, and the others are those of the parameters.
      have hparams :
          List.zipWith Visit.name (visits.map fun v => v.answer.unchanged).dropLast params =
            List.zipWith Visit.name visits.dropLast params := by
        rw [← List.map_dropLast]
        exact zipWith_answers (fun v hv =>
          Visit.name_unchanged (h v ((List.dropLast_sublist visits).mem hv))) params
      have hbody : (visits.map fun v => v.answer.unchanged).getLast?.elim body (·.block body) =
          visits.getLast?.elim body (·.block body) := by
        rw [List.getLast?_map]
        cases hlast : visits.getLast? with
        | none => rfl
        | some v => exact Visit.block_unchanged (h v (List.mem_of_getLast? hlast)) body
      rw [refill, refill, hparams, hbody]
  | call t callee args =>
      cases visits with
      | nil => rfl
      | cons v rest =>
          obtain ⟨hv, hrest⟩ := List.forall_mem_cons.mp h
          exact congrArg₂ (call t) (Visit.expr_unchanged hv callee) (hexprs hrest args)
  | array t items => exact congrArg (array t) (hexprs h items)
  | dict t pairs => exact congrArg (dict t) (refillPairs_answers h pairs)

/-- A node whose places are filled with answers that fit is rebuilt from
the answers. -/
theorem Node.refill_eq_rebuild (t : Node) {visits : List Visit}
    (h : ∀ v ∈ visits, v.handed.Fits v.answer) :
    t.refill visits = t.rebuild (visits.map Visit.answer) := by
  have hstmts (body : List Stmt) :
      List.zipWith Visit.stmt (visits.map fun v => v.answer.unchanged) body =
        List.zipWith Visit.stmt visits body :=
    zipWith_answers (fun v hv => Visit.stmt_unchanged (h v hv)) body
  rw [rebuild, List.map_map]
  cases t with
  | program p => exact congrArg program (hstmts p).symm
  | block b =>
      obtain ⟨t, body⟩ := b
      exact congrArg (fun body => block (.mk t body)) (hstmts body).symm
  | expr e => exact congrArg expr (e.refill_answers h).symm
  | stmt s =>
      -- A statement has one child, so only one visit counts.
      obtain _ | ⟨v, _ | _⟩ := visits
      · cases s <;> rfl
      · have hv (e : Expr) := Visit.expr_unchanged (h v List.mem_cons_self) e
        cases s <;> simp [refill, Stmt.refill, hv]
      · cases s <;> rfl

/-! ### The children of a node whose places are filled -/

/-- The answers fit in the places of some nodes, one by one. -/
def FitAll (ts : List Node) (visits : List Visit) : Prop :=
  List.Forall₂ (fun t v => t.Fits v.answer) ts visits

/-- The visit of the last node is the last one. -/
theorem FitAll.of_concat {ts : List Node} {t : Node} {visits : List Visit}
    (h : FitAll (ts ++ [t]) visits) :
    ∃ front v, visits = front ++ [v] ∧ FitAll ts front ∧ t.Fits v.answer := by
  induction ts generalizing visits with
  | nil =>
      obtain _ | ⟨hv, _ | _⟩ := h
      exact ⟨[], _, rfl, .nil, hv⟩
  | cons u ts ih =>
      obtain _ | ⟨hu, hrest⟩ := h
      obtain ⟨front, v, rfl, hfront, hv⟩ := ih hrest
      exact ⟨_ :: front, v, rfl, .cons hu hfront, hv⟩

namespace Visit

variable {v : Visit}

/-- A place of an expression takes an answer that fits. -/
theorem expr_of_fits {e : Expr} (h : (Node.expr e).Fits v.answer) (e' : Expr) :
    .expr (v.expr e') = v.answer := by
  obtain ⟨handed, answer⟩ := v
  cases h <;> rfl

/-- So does a place of a block. -/
theorem block_of_fits {b : Block} (h : (Node.block b).Fits v.answer) (b' : Block) :
    .block (v.block b') = v.answer := by
  obtain ⟨handed, answer⟩ := v
  cases h
  rfl

/-- So does a place of a statement. -/
theorem stmt_of_fits {s : Stmt} (h : (Node.stmt s).Fits v.answer) (s' : Stmt) :
    .stmt (v.stmt s') = v.answer := by
  obtain ⟨handed, answer⟩ := v
  cases h
  rfl

/-- So does a place of a parameter. -/
theorem name_of_fits {name : String} (h : (Node.expr (.mkIdent name)).Fits v.answer)
    (name' : String) : .expr (.mkIdent (v.name name')) = v.answer := by
  obtain ⟨handed, answer⟩ := v
  cases h with
  | ident => rfl
  | expr he => cases he

end Visit

/-- Places of one kind that are filled with answers that fit. -/
theorem map_zipWith_of_fits {α : Type} {part : α → Node} {place : Visit → α → α}
    (h : ∀ a v, (part a).Fits v.answer → part (place v a) = v.answer) {as : List α}
    {visits : List Visit} (hfits : FitAll (as.map part) visits) :
    (List.zipWith place visits as).map part = visits.map Visit.answer := by
  induction as generalizing visits with
  | nil =>
      cases hfits
      rfl
  | cons a as ih =>
      cases hfits with
      | cons hv hrest =>
          rw [List.zipWith_cons_cons, List.map_cons, List.map_cons, h _ _ hv, ih hrest]

/-- The keys and values of pairs that are filled with answers that fit
are these answers. -/
theorem flatMap_refillPairs_of_fits {pairs : List (Expr × Expr)} {visits : List Visit}
    (h : FitAll (pairs.flatMap fun (key, value) => [Node.expr key, .expr value]) visits) :
    (refillPairs pairs visits).flatMap (fun (key, value) => [Node.expr key, .expr value]) =
      visits.map Visit.answer := by
  induction pairs generalizing visits with
  | nil =>
      cases h
      rfl
  | cons pair rest ih =>
      -- A pair takes two answers, one for its key and one for its value.
      obtain ⟨key, value⟩ := pair
      cases h with
      | cons hv h =>
          cases h with
          | cons hw hrest =>
              rw [refillPairs, List.flatMap_cons, ih hrest]
              have hkey := Visit.expr_of_fits hv key
              exact congrArg₂ ([·, ·] ++ _) hkey (Visit.expr_of_fits hw value)

/-- The children of an expression that is filled with answers that fit
are these answers. -/
theorem Expr.children_refill (e : Expr) {visits : List Visit} (h : FitAll e.children visits) :
    (e.refill visits).children = visits.map Visit.answer := by
  have hexprs {es : List Expr} {visits : List Visit} (h : FitAll (es.map .expr) visits) :
      (List.zipWith Visit.expr visits es).map Node.expr = visits.map Visit.answer :=
    map_zipWith_of_fits (fun e _ hv => Visit.expr_of_fits hv e) h
  cases e with
  | ident | int | str | bool =>
      cases h
      rfl
  | unary t op operand =>
      obtain _ | ⟨hv, _ | _⟩ := h
      exact congrArg ([·]) (Visit.expr_of_fits hv operand)
  | binary t op left right =>
      obtain _ | ⟨hv, _ | ⟨hw, _ | _⟩⟩ := h
      exact congrArg₂ ([·, ·]) (Visit.expr_of_fits hv left) (Visit.expr_of_fits hw right)
  | index t left i =>
      obtain _ | ⟨hv, _ | ⟨hw, _ | _⟩⟩ := h
      exact congrArg₂ ([·, ·]) (Visit.expr_of_fits hv left) (Visit.expr_of_fits hw i)
  | cond t condition consequence alternative =>
      obtain _ | ⟨hv, _ | ⟨hw, halternative⟩⟩ := h
      have hbranches := congrArg₂ ([·, ·] ++ ·) (Visit.expr_of_fits hv condition)
        (Visit.block_of_fits hw consequence)
      cases alternative with
      | none =>
          cases halternative
          exact congrFun hbranches []
      | some b =>
          obtain _ | ⟨hx, _ | _⟩ := halternative
          exact congr hbranches (congrArg ([·]) (Visit.block_of_fits hx b))
  | lambda t kind params body =>
      -- The children end with the body, so its visit is split off at the end.
      obtain ⟨visits, v, rfl, hparams, hbody⟩ := h.of_concat
      have hnames :
          (List.zipWith Visit.name visits params).map (fun name => Node.expr (.mkIdent name)) =
            visits.map Visit.answer :=
        map_zipWith_of_fits (fun name _ hv => Visit.name_of_fits hv name) hparams
      rw [refill, List.dropLast_concat, List.getLast?_concat, List.map_append, children, hnames]
      exact congrArg (_ ++ [·]) (Visit.block_of_fits hbody body)
  | call t callee args =>
      obtain _ | ⟨hv, hargs⟩ := h
      exact congrArg₂ List.cons (Visit.expr_of_fits hv callee) (hexprs hargs)
  | array t items => exact hexprs h
  | dict t pairs => exact flatMap_refillPairs_of_fits h

/-- The children of a node whose places are filled with answers that fit
are the answers. -/
theorem Node.children_refill (t : Node) {visits : List Visit} (h : FitAll t.children visits) :
    (t.refill visits).children = visits.map Visit.answer := by
  have hstmts {body : List Stmt} {visits : List Visit} (h : FitAll (body.map .stmt) visits) :
      (List.zipWith Visit.stmt visits body).map Node.stmt = visits.map Visit.answer :=
    map_zipWith_of_fits (fun s _ hv => Visit.stmt_of_fits hv s) h
  cases t with
  | program p => exact hstmts h
  | block b =>
      obtain ⟨t, body⟩ := b
      exact hstmts h
  | expr e => exact e.children_refill h
  | stmt s =>
      -- A statement has a single expression in it.
      cases s <;>
      · obtain _ | ⟨hv, _ | _⟩ := h
        exact congrArg ([·]) (Visit.expr_of_fits hv _)

/-! ### Visits whose answers fit -/

/-- A visit hands out what fits in the place of the node, and so does
the answer. -/
structure Visit.FitsIn (t : Node) (v : Visit) : Prop where
  handed : t.Fits v.handed
  answer : v.handed.Fits v.answer

section Children

variable {ts : List Node} {visits : List Visit}

/-- Answers that fit what was handed out fit the places. -/
theorem fitAll_of_fitsIn (h : List.Forall₂ Visit.FitsIn ts visits) : FitAll ts visits :=
  h.imp fun _ _ hv => hv.handed.trans hv.answer

/-- Each answer fits what was handed out for it. -/
theorem answers_fit (h : List.Forall₂ Visit.FitsIn ts visits) :
    ∀ v ∈ visits, v.handed.Fits v.answer := by
  induction h with
  | nil => nofun
  | cons hv _ ih => exact List.forall_mem_cons.mpr ⟨hv.answer, ih⟩

end Children

/-! ### Passes -/

variable {m : Type → Type u} [Monad m] [LawfulMonad m] {G : Guarantee m}

/-- What is weaker is given, too. -/
theorem Guarantee.mono {α : Type} {x : m α} {P Q : α → Prop} (hx : G.gives x P)
    (h : ∀ a, P a → Q a) : G.gives x Q := by
  have hbind := G.bind hx fun a ha => G.pure (h a ha)
  rwa [bind_pure] at hbind

/-- What can be said about computations in a row, one by one. -/
theorem Guarantee.mapM {α β : Type} {R : α → β → Prop} {x : α → m β} {as : List α}
    (h : ∀ a ∈ as, G.gives (x a) (R a)) :
    G.gives (as.mapM x) (List.Forall₂ R as) := by
  induction as with
  | nil => exact G.pure .nil
  | cons a as ih =>
      obtain ⟨ha, hrest⟩ := List.forall_mem_cons.mp h
      rw [List.mapM_cons]
      exact G.bind ha fun b hb => G.bind (ih hrest) fun bs hbs => G.pure (.cons hb hbs)

/-- The nodes below a child are below the node. -/
theorem Node.mem_postorder_of_child {t c node : Node} (hc : c ∈ t.children)
    (hnode : node ∈ c.postorder) : node ∈ t.postorder := by
  rw [t.postorder_eq]
  exact List.mem_append_left _ (List.mem_flatMap.mpr ⟨c, hc, hnode⟩)

/-- A node is one of the nodes in it. -/
theorem Node.self_mem_postorder (t : Node) : t ∈ t.postorder := by
  rw [t.postorder_eq]
  exact List.mem_append_right _ List.mem_cons_self

/-- The nodes below a node of a tree are nodes of the tree. -/
theorem Node.mem_postorder_trans {t node below : Node} (hnode : node ∈ t.postorder)
    (hbelow : below ∈ node.postorder) : below ∈ t.postorder := by
  induction t using Node.induction with
  | step t ih =>
      rw [t.postorder_eq, List.mem_append, List.mem_flatMap, List.mem_singleton] at hnode
      obtain ⟨c, hc, hnode⟩ | rfl := hnode
      · exact Node.mem_postorder_of_child hc (ih c hc hnode)
      · exact hbelow

/-- An identifier has no nodes in it but itself. -/
theorem Node.postorder_ident (t : Token) (name : String) :
    (Node.expr (.ident t name)).postorder = [.expr (.ident t name)] := by
  rw [Node.postorder_eq]
  rfl

/-- The nodes of a call of a name with one argument. -/
theorem Node.postorder_namedCall (t t' : Token) (name : String) (arg : Expr) :
    (Node.expr (.call t (.ident t' name) [arg])).postorder =
      .expr (.ident t' name) ::
        ((Node.expr arg).postorder ++ [.expr (.call t (.ident t' name) [arg])]) := by
  rw [Node.postorder_eq]
  simp [Node.children, Expr.children, Node.postorder_ident]

/-- What can be said about every visit of a pass, if it can be said about
the visit of a node as soon as it can be said about the visits of the
children. -/
theorem Node.visit_gives {f : Node → m Node} {R : Node → Visit → Prop} {t : Node}
    (h : ∀ node ∈ t.postorder, ∀ visits, List.Forall₂ R node.children visits →
      G.gives (f (node.refill visits)) fun answer => R node ⟨node.refill visits, answer⟩) :
    G.gives (t.visit f) (R t) := by
  induction t using Node.induction with
  | step t ih =>
      have hchildren : G.gives (t.children.mapM (Node.visit f)) (List.Forall₂ R t.children) :=
        Guarantee.mapM fun c hc => ih c hc fun node hnode =>
          h node (Node.mem_postorder_of_child hc hnode)
      rw [Node.visit_eq]
      refine G.bind hchildren fun visits hvisits => ?_
      exact G.bind (h t t.self_mem_postorder visits hvisits) fun answer hanswer => G.pure hanswer

/-- A tree stays the same, tokens included, if each of its nodes does. -/
theorem Node.visit_gives_unchanged {f : Node → m Node} {t : Node}
    (h : ∀ node ∈ t.postorder, G.gives (f node) (· = node)) :
    G.gives (t.visit f) (· = t.unchanged) := by
  have hall {ts : List Node} {visits : List Visit}
      (hvisits : List.Forall₂ (fun t v => v = t.unchanged) ts visits) :
      visits = ts.map Node.unchanged := by
    induction hvisits with
    | nil => rfl
    | cons hv _ ih => rw [List.map_cons, hv, ih]
  refine Node.visit_gives (R := fun t v => v = t.unchanged) fun node hnode visits hvisits => ?_
  rw [hall hvisits, Node.refill_unchanged]
  exact Guarantee.mono (h node hnode) fun answer hanswer => congrArg (Visit.mk node) hanswer

end QuoteScript
