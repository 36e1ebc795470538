import QuoteScript.Tree.Basic

/-!
# `QuoteScript.Tree.Same`: equality of trees

Tokens only record where a part of a tree came from. Two trees are the
same when they have the same structure, names, literals and operators,
whatever tokens they carry.
-/

set_option autoImplicit false

namespace QuoteScript

mutual

/-- Whether two expressions are the same up to tokens. -/
def Expr.same : Expr → Expr → Bool
  | .ident _ a, .ident _ b => a == b
  | .int _ a, .int _ b => a == b
  | .str _ a, .str _ b => a == b
  | .bool _ a, .bool _ b => a == b
  | .unary _ op a, .unary _ op' b => op == op' && a.same b
  | .binary _ op a c, .binary _ op' b d => op == op' && a.same b && c.same d
  | .cond _ a c e, .cond _ b d f => a.same b && c.same d && sameElse e f
  | .lambda _ kind params a, .lambda _ kind' params' b =>
    kind == kind' && params == params' && a.same b
  | .call _ a as, .call _ b bs => a.same b && sameExprs as bs
  | .array _ as, .array _ bs => sameExprs as bs
  | .index _ a c, .index _ b d => a.same b && c.same d
  | .dict _ as, .dict _ bs => samePairs as bs
  | _, _ => false

/-- Whether two lists of expressions are the same up to tokens. -/
def sameExprs : List Expr → List Expr → Bool
  | [], [] => true
  | a :: as, b :: bs => a.same b && sameExprs as bs
  | _, _ => false

/-- Whether the pairs of two dicts are the same up to tokens, in the
same order. -/
def samePairs : List (Expr × Expr) → List (Expr × Expr) → Bool
  | [], [] => true
  | (a, c) :: as, (b, d) :: bs => a.same b && c.same d && samePairs as bs
  | _, _ => false

/-- Whether two branches, if they are there, are the same up to
tokens. -/
def sameElse : Option Block → Option Block → Bool
  | none, none => true
  | some a, some b => a.same b
  | _, _ => false

/-- Whether two blocks are the same up to tokens. -/
def Block.same : Block → Block → Bool
  | .mk _ as, .mk _ bs => sameBody as bs

/-- Whether two lists of statements are the same up to tokens. -/
def sameBody : List Stmt → List Stmt → Bool
  | [], [] => true
  | a :: as, b :: bs => a.same b && sameBody as bs
  | _, _ => false

/-- Whether two statements are the same up to tokens. -/
def Stmt.same : Stmt → Stmt → Bool
  | .letIn _ name a, .letIn _ name' b => name == name' && a.same b
  | .ret _ a, .ret _ b => a.same b
  | .expr _ a, .expr _ b => a.same b
  | _, _ => false

end

/-- Whether two programs are the same up to tokens. -/
def Program.same (a b : Program) : Bool :=
  sameBody a b

/-- Whether two nodes are the same up to tokens. Nodes of different
kinds never are. -/
def Node.same : Node → Node → Bool
  | program a, program b => Program.same a b
  | stmt a, stmt b => a.same b
  | block a, block b => a.same b
  | expr a, expr b => a.same b
  | _, _ => false

end QuoteScript
