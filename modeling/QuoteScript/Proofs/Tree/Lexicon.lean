import QuoteScript.Proofs.Token.Lexemes
import QuoteScript.Tree.Synthesis

/-!
# `QuoteScript.Proofs.Tree.Lexicon`: what occurs in a tree

A lexicon says which names and which integer literals may occur in a
tree, and what may be quoted. Nothing else that is written in a tree is
restricted: strings hold any text, and lists have any length.

* `Expr.Over`, `Block.Over`, `Stmt.Over`, `Node.Over`: trees over a
  lexicon.
* `Node.Quotable`: what a quote holds.
* `Lexicon.source` is the lexicon of source texts, and a tree over it
  is *well formed*: names are what the scanner reads as one identifier,
  and integer literals are not negative.
* `Lexicon.full` restricts nothing, and `Lexicon.expressions` restricts
  only what is quoted.
-/

set_option autoImplicit false

namespace QuoteScript

/-- The names and the integer literals that may occur in a tree. -/
structure Lexicon where
  name : String → Prop
  int : Int64 → Prop
  /-- Whether a quote may hold a node that is no expression. -/
  anyNode : Prop

mutual

/-- All names and integers of an expression belong to the lexicon. -/
def Expr.Over (L : Lexicon) : Expr → Prop
  | .ident _ name => L.name name
  | .int _ value => L.int value
  | .str _ _ | .bool _ _ => True
  | .unary _ _ operand => operand.Over L
  | .binary _ _ left right => left.Over L ∧ right.Over L
  | .cond _ condition consequence alternative =>
    condition.Over L ∧ consequence.Over L ∧ elseOver L alternative
  | .lambda _ _ params body => (∀ name ∈ params, L.name name) ∧ body.Over L
  | .call _ callee args => callee.Over L ∧ exprsOver L args
  | .array _ items => exprsOver L items
  | .index _ left index => left.Over L ∧ index.Over L
  | .dict _ pairs => pairsOver L pairs

/-- The same for a list of expressions. -/
def exprsOver (L : Lexicon) : List Expr → Prop
  | [] => True
  | e :: rest => e.Over L ∧ exprsOver L rest

/-- The same for the pairs of a dict. -/
def pairsOver (L : Lexicon) : List (Expr × Expr) → Prop
  | [] => True
  | (key, value) :: rest => key.Over L ∧ value.Over L ∧ pairsOver L rest

/-- The same for the branch that may follow the first one. -/
def elseOver (L : Lexicon) : Option Block → Prop
  | none => True
  | some b => b.Over L

/-- The same for a block. -/
def Block.Over (L : Lexicon) : Block → Prop
  | .mk _ body => bodyOver L body

/-- The same for a list of statements. -/
def bodyOver (L : Lexicon) : List Stmt → Prop
  | [] => True
  | s :: rest => s.Over L ∧ bodyOver L rest

/-- The same for a statement, with the name that a `let` binds. -/
def Stmt.Over (L : Lexicon) : Stmt → Prop
  | .letIn _ name value => L.name name ∧ value.Over L
  | .ret _ value => value.Over L
  | .expr _ value => value.Over L

end

/-- All names and integers of a node belong to the lexicon. -/
def Node.Over (L : Lexicon) : Node → Prop
  | .program p => bodyOver L p
  | .stmt s => s.Over L
  | .block b => b.Over L
  | .expr e => e.Over L

/-- What a quote may hold. -/
def Node.Quotable (L : Lexicon) (node : Node) : Prop :=
  node.Over L ∧ ((∃ e, node = .expr e) ∨ L.anyNode)

/-- The lexicon of source texts: names are what the scanner reads as
one identifier, no integer literal is negative, and only expressions
are quoted. -/
def Lexicon.source : Lexicon :=
  ⟨IsName, fun n => 0 ≤ n, False⟩

/-- The lexicon of all trees. -/
def Lexicon.full : Lexicon :=
  ⟨fun _ => True, fun _ => True, True⟩

/-- The lexicon of all trees, of which only expressions are quoted. -/
def Lexicon.expressions : Lexicon :=
  ⟨fun _ => True, fun _ => True, False⟩

/-- An expression that can be written down. -/
def Expr.WellFormed (e : Expr) : Prop :=
  e.Over .source

/-- A program that can be written down. -/
def Program.WellFormed (program : Program) : Prop :=
  bodyOver .source program

/-- A node that can be written down. -/
def Node.WellFormed (node : Node) : Prop :=
  node.Over .source

/-! ### The lexicon of all trees -/

/-- A lexicon of all names and all integer literals. -/
def Lexicon.Unrestricted (L : Lexicon) : Prop :=
  (∀ name, L.name name) ∧ ∀ n, L.int n

section Unrestricted

variable {L : Lexicon}

mutual

/-- A lexicon of all names and integers restricts no tree. -/
theorem Expr.over_of_unrestricted (hL : L.Unrestricted) : ∀ e : Expr, e.Over L
  | .ident _ name => hL.1 name
  | .int _ n => hL.2 n
  | .str _ _ | .bool _ _ => trivial
  | .unary _ _ operand => operand.over_of_unrestricted hL
  | .binary _ _ left right => ⟨left.over_of_unrestricted hL, right.over_of_unrestricted hL⟩
  | .cond _ condition consequence alternative =>
    ⟨condition.over_of_unrestricted hL, consequence.over_of_unrestricted hL,
      elseOver_of_unrestricted hL alternative⟩
  | .lambda _ _ _ body => ⟨fun name _ => hL.1 name, body.over_of_unrestricted hL⟩
  | .call _ callee args => ⟨callee.over_of_unrestricted hL, exprsOver_of_unrestricted hL args⟩
  | .array _ items => exprsOver_of_unrestricted hL items
  | .index _ left index => ⟨left.over_of_unrestricted hL, index.over_of_unrestricted hL⟩
  | .dict _ pairs => pairsOver_of_unrestricted hL pairs

/-- The same for a list of expressions. -/
theorem exprsOver_of_unrestricted (hL : L.Unrestricted) : ∀ es : List Expr, exprsOver L es
  | [] => trivial
  | e :: rest => ⟨e.over_of_unrestricted hL, exprsOver_of_unrestricted hL rest⟩

/-- The same for the pairs of a dict. -/
theorem pairsOver_of_unrestricted (hL : L.Unrestricted) :
    ∀ pairs : List (Expr × Expr), pairsOver L pairs
  | [] => trivial
  | (key, value) :: rest =>
    ⟨key.over_of_unrestricted hL, value.over_of_unrestricted hL,
      pairsOver_of_unrestricted hL rest⟩

/-- The same for the branch that may follow the first one. -/
theorem elseOver_of_unrestricted (hL : L.Unrestricted) : ∀ b : Option Block, elseOver L b
  | none => trivial
  | some b => b.over_of_unrestricted hL

/-- The same for a block. -/
theorem Block.over_of_unrestricted (hL : L.Unrestricted) : ∀ b : Block, b.Over L
  | .mk _ body => bodyOver_of_unrestricted hL body

/-- The same for a list of statements. -/
theorem bodyOver_of_unrestricted (hL : L.Unrestricted) : ∀ body : List Stmt, bodyOver L body
  | [] => trivial
  | s :: rest => ⟨s.over_of_unrestricted hL, bodyOver_of_unrestricted hL rest⟩

/-- The same for a statement. -/
theorem Stmt.over_of_unrestricted (hL : L.Unrestricted) : ∀ s : Stmt, s.Over L
  | .letIn _ name value => ⟨hL.1 name, value.over_of_unrestricted hL⟩
  | .ret _ value => value.over_of_unrestricted hL
  | .expr _ value => value.over_of_unrestricted hL

end

/-- Every node is over a lexicon that restricts neither names nor
integers. -/
theorem Node.over_of_unrestricted (hL : L.Unrestricted) : ∀ node : Node, node.Over L
  | .program p => bodyOver_of_unrestricted hL p
  | .stmt s => s.over_of_unrestricted hL
  | .block b => b.over_of_unrestricted hL
  | .expr e => e.over_of_unrestricted hL

end Unrestricted

/-- The full lexicon restricts nothing. -/
theorem Lexicon.unrestricted_full : Lexicon.full.Unrestricted :=
  ⟨fun _ => trivial, fun _ => trivial⟩

/-- The lexicon of quoted expressions restricts neither names nor
integers. -/
theorem Lexicon.unrestricted_expressions : Lexicon.expressions.Unrestricted :=
  ⟨fun _ => trivial, fun _ => trivial⟩

/-- Every expression is over the full lexicon. -/
theorem Expr.over_full (e : Expr) : e.Over .full :=
  e.over_of_unrestricted Lexicon.unrestricted_full

/-- So is every list of expressions. -/
theorem exprsOver_full (es : List Expr) : exprsOver .full es :=
  exprsOver_of_unrestricted Lexicon.unrestricted_full es

/-- So is every block. -/
theorem Block.over_full (b : Block) : b.Over .full :=
  b.over_of_unrestricted Lexicon.unrestricted_full

/-- So is every list of statements. -/
theorem bodyOver_full (body : List Stmt) : bodyOver .full body :=
  bodyOver_of_unrestricted Lexicon.unrestricted_full body

/-- So is every statement. -/
theorem Stmt.over_full (s : Stmt) : s.Over .full :=
  s.over_of_unrestricted Lexicon.unrestricted_full

/-- So is every node. -/
theorem Node.over_full (node : Node) : node.Over .full :=
  node.over_of_unrestricted Lexicon.unrestricted_full

/-- Every node may be quoted if the lexicon is the full one. -/
theorem Node.quotable_full (node : Node) : node.Quotable .full :=
  ⟨node.over_full, .inr trivial⟩

end QuoteScript
