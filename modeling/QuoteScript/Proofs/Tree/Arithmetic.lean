import QuoteScript.Proofs.Tree.Reparse

/-!
# `QuoteScript.Proofs.Tree.Arithmetic`: arithmetic as it is written down

Arithmetic on integers is described here without the language: a tree of
constants and operators, and its value, computed with integers of any
size that are wrapped to 64 bits after every operation.

A tree is written down with as few parentheses as possible. An operand is
put in parentheses only if its own level is looser than what may stand in
its place: on the left of an operator its own level, on the right the
next tighter one, and behind a sign the level of signs. A constant needs
none, since a negative one is a sign in front of a literal.

The text says which tokens there are, and between them there may be blank
space anywhere. So what is parsed is any text with these tokens.

* `ArithmeticTree.value`: the value of a tree, or the dividend of the
  first division by zero.
* `ArithmeticTree.text`, `ArithmeticTree.spelling`: a tree as a text and
  as tokens.
* `ArithmeticTree.lexemes_text`: the tokens of the text.
* `ArithmeticTree.derives`: the grammar derives the tokens from the tree.
* `ArithmeticTree.parses`, `Comparison.parses`: what is parsed.
-/

set_option autoImplicit false

namespace QuoteScript

/-! ### Trees and their values -/

/-- The operators of arithmetic. -/
inductive ArithmeticOp where
  | add
  | subtract
  | multiply
  | divide
  deriving DecidableEq, Repr

/-- The same operator among all operators. -/
def ArithmeticOp.toBinaryOp : ArithmeticOp → BinaryOp
  | add => .add
  | subtract => .subtract
  | multiply => .multiply
  | divide => .divide

/-- Constants with signs and operators. There is no literal for the
opposite of the smallest integer, so this one is no constant. -/
inductive ArithmeticTree where
  | const (n : Int64) (hn : n ≠ Int64.minValue)
  | negate (tree : ArithmeticTree)
  | binary (op : ArithmeticOp) (left right : ArithmeticTree)

/-- The integer in two's complement with 64 bits. -/
def wrapped (z : Int) : Int :=
  z.bmod Int64.size

/-- The value of an operator, or the dividend of a division by zero. -/
def ArithmeticOp.apply (op : ArithmeticOp) (a b : Int) : Except Int Int :=
  match op with
  | add => .ok (wrapped (a + b))
  | subtract => .ok (wrapped (a - b))
  | multiply => .ok (wrapped (a * b))
  | divide => if b = 0 then .error a else .ok (wrapped (a.tdiv b))

/-- The value of a tree, or the dividend of the first division by zero.
Left operands come before right ones. -/
def ArithmeticTree.value : ArithmeticTree → Except Int Int
  | const n _ => .ok n.toInt
  | negate tree => do return wrapped (-(← tree.value))
  | binary op left right => do op.apply (← left.value) (← right.value)

/-- The operators that compare. -/
inductive ComparisonOp where
  | less
  | greater
  | equal
  | notEqual
  deriving DecidableEq, Repr

/-- The same operator among all operators. -/
def ComparisonOp.toBinaryOp : ComparisonOp → BinaryOp
  | less => .less
  | greater => .greater
  | equal => .equal
  | notEqual => .notEqual

/-- Whether a comparison holds. -/
def ComparisonOp.holds (op : ComparisonOp) (a b : Int) : Bool :=
  match op with
  | less => decide (a < b)
  | greater => decide (a > b)
  | equal => decide (a = b)
  | notEqual => decide (a ≠ b)

/-- Two trees that are compared. -/
structure Comparison where
  op : ComparisonOp
  left : ArithmeticTree
  right : ArithmeticTree

/-- Whether the comparison holds, or the dividend of the first division
by zero. -/
def Comparison.value (c : Comparison) : Except Int Bool := do
  return c.op.holds (← c.left.value) (← c.right.value)

/-! ### Trees as texts -/

/-- A text of one level where another one is asked for. It is put in
parentheses if it is looser. -/
def enclosed (asked level : Level) (text : String) : String :=
  if asked.rank ≤ level.rank then text else "(" ++ text ++ ")"

/-- The same for the tokens of a text. -/
def enclosedCores (asked level : Level) (cores : List Core) : List Core :=
  if asked.rank ≤ level.rank then cores
  else TokenKind.leftParen.sign :: cores ++ [TokenKind.rightParen.sign]

namespace ArithmeticTree

/-- The level at which a tree is written. -/
def level : ArithmeticTree → Level
  | const n _ => if n < 0 then .unary else .suffix
  | negate _ => .unary
  | binary op _ _ => op.toBinaryOp.level

/-- A tree as a text. -/
def text : ArithmeticTree → String
  | const n _ => n.toInt.repr
  | negate tree => "-" ++ enclosed .unary tree.level tree.text
  | binary op left right =>
    enclosed op.toBinaryOp.level left.level left.text ++ " " ++ op.toBinaryOp.text ++ " " ++
      enclosed op.toBinaryOp.level.tighter right.level right.text

/-- The tokens of the text. -/
def spelling : ArithmeticTree → List Core
  | const n _ =>
    if n < 0 then [TokenKind.minus.sign, (.int, Text.writeInt (-n))]
    else [(.int, Text.writeInt n)]
  | negate tree => TokenKind.minus.sign :: enclosedCores .unary tree.level tree.spelling
  | binary op left right =>
    enclosedCores op.toBinaryOp.level left.level left.spelling ++ op.toBinaryOp.tokenKind.sign ::
      enclosedCores op.toBinaryOp.level.tighter right.level right.spelling

end ArithmeticTree

/-- A comparison as a text. Its operands need no parentheses. -/
def Comparison.text (c : Comparison) : String :=
  c.left.text ++ " " ++ c.op.toBinaryOp.text ++ " " ++ c.right.text

/-- The tokens of the text. -/
def Comparison.spelling (c : Comparison) : List Core :=
  c.left.spelling ++ c.op.toBinaryOp.tokenKind.sign :: c.right.spelling

/-! ### The tokens of the text -/

/-- An integer is written as the number that it stands for. -/
theorem Text.writeInt_eq_repr (n : Int64) : writeInt n = n.toInt.repr := by
  unfold writeInt
  split
  · next h => rw [h]; rfl
  · next h => rw [h]; rfl

section Negative

variable {n : Int64}

/-- Negating an integer does not wrap around, unless it is the smallest
one. -/
theorem toInt_neg_of_ne (hmin : n ≠ Int64.minValue) : (-n).toInt = -n.toInt := by
  have hlower := Int64.minValue_le_toInt n
  have hupper := Int64.toInt_le n
  have hne : n.toInt ≠ Int64.minValue.toInt := fun h => hmin (Int64.toInt_inj.mp h)
  rw [Int64.toInt_minValue] at hlower hne
  rw [Int64.toInt_maxValue] at hupper
  rw [Int64.toInt_neg, Int.bmod_def]
  omega

/-- A negative integer has a positive one as its negative, unless it is
the smallest one. -/
theorem neg_nonneg_of_neg (hneg : n < 0) (hmin : n ≠ Int64.minValue) : 0 ≤ -n := by
  rw [Int64.le_iff_toInt_le, toInt_neg_of_ne hmin, Int64.toInt_zero]
  rw [Int64.lt_iff_toInt_lt, Int64.toInt_zero] at hneg
  omega

/-- A negative number is written with a sign. -/
theorem repr_of_neg (hneg : n < 0) (hmin : n ≠ Int64.minValue) :
    n.toInt.repr = "-" ++ Text.writeInt (-n) := by
  rw [Text.writeInt_eq_repr, toInt_neg_of_ne hmin]
  rw [Int64.lt_iff_toInt_lt, Int64.toInt_zero] at hneg
  obtain ⟨m, hm⟩ := Int.eq_negSucc_of_lt_zero hneg
  rw [hm]
  rfl

end Negative

/-- `text` is scanned as `cores`, whatever follows that does not go on
with a word. -/
def ScannedAs (text : String) (cores : List Core) : Prop :=
  ∀ rest, EndsWord rest → lexemes (text.toList ++ rest) = cores ++ lexemes rest

namespace ScannedAs

variable {text left right : String} {cores ls rs : List Core}

/-- A sign in front. -/
theorem signed (h : ScannedAs text cores) :
    ScannedAs ("-" ++ text) (TokenKind.minus.sign :: cores) := by
  intro rest hrest
  rw [String.toList_append, List.append_assoc]
  show lexemes ('-' :: (text.toList ++ rest)) = _
  rw [lexemes_symbol rfl (.inl (by decide)), h rest hrest]
  rfl

/-- A text that is put in parentheses where they are needed is scanned
with or without them. -/
theorem enclosed (asked level : Level) (h : ScannedAs text cores) :
    ScannedAs (enclosed asked level text) (enclosedCores asked level cores) := by
  unfold QuoteScript.enclosed enclosedCores
  split
  · exact h
  · intro rest hrest
    simp only [String.toList_append, List.append_assoc, List.cons_append]
    show lexemes ('(' :: (text.toList ++ ')' :: rest)) = _
    rw [lexemes_delimiter (by decide), h _ (endsWord_delimiter (by decide) _),
      lexemes_delimiter (by decide)]
    rfl

/-- An operator between its operands, with a space on each side. -/
theorem between (op : BinaryOp) (hleft : ScannedAs left ls) (hright : ScannedAs right rs) :
    ScannedAs (left ++ " " ++ op.text ++ " " ++ right) (ls ++ op.tokenKind.sign :: rs) := by
  intro rest hrest
  simp only [String.toList_append, List.append_assoc, List.cons_append]
  show lexemes (left.toList ++ ' ' :: (op.text.toList ++ ' ' :: (right.toList ++ rest))) = _
  rw [hleft _ (endsWord_space _), lexemes_space, op.lexemes_text, hright rest hrest]

end ScannedAs

/-- The text of a tree is scanned as its tokens. -/
theorem ArithmeticTree.scannedAs (tree : ArithmeticTree) : ScannedAs tree.text tree.spelling := by
  induction tree with
  | const n hn =>
      rw [text, spelling]
      split
      · next hneg =>
          rw [repr_of_neg hneg hn]
          exact .signed fun rest hrest => lexemes_writeInt (neg_nonneg_of_neg hneg hn) hrest
      · next hneg =>
          rw [← Text.writeInt_eq_repr]
          exact fun rest hrest => lexemes_writeInt (Int64.not_lt.mp hneg) hrest
  | negate tree ih => exact (ih.enclosed _ _).signed
  | binary op left right ihl ihr => exact .between _ (ihl.enclosed _ _) (ihr.enclosed _ _)

/-- A comparison is scanned as its two trees with the operator between
them. -/
theorem Comparison.scannedAs (c : Comparison) : ScannedAs c.text c.spelling :=
  .between _ c.left.scannedAs c.right.scannedAs

/-! ### What is parsed -/

/-- An expression is the tree, whatever tokens it carries. A negative
constant is the negation of a literal. -/
inductive ArithmeticTree.ReadAs : ArithmeticTree → Expr → Prop where
  | literal {n : Int64} {hn : n ≠ Int64.minValue} (t : Token) :
      ReadAs (.const n hn) (.int t n)
  | negative {n : Int64} {hn : n ≠ Int64.minValue} (t t' : Token) :
      ReadAs (.const n hn) (.unary t .negate (.int t' (-n)))
  | negate {tree : ArithmeticTree} {e : Expr} (t : Token) :
      ReadAs tree e → ReadAs (.negate tree) (.unary t .negate e)
  | binary {op : ArithmeticOp} {left right : ArithmeticTree} {l r : Expr} (t : Token) :
      ReadAs left l → ReadAs right r →
        ReadAs (.binary op left right) (.binary t op.toBinaryOp l r)

/-- The same for a comparison. -/
inductive Comparison.ReadAs (c : Comparison) : Expr → Prop where
  | binary {l r : Expr} (t : Token) :
      c.left.ReadAs l → c.right.ReadAs r → c.ReadAs (.binary t c.op.toBinaryOp l r)

/-- Tokens that are spelled so derive, at this level, from an expression
with the property. -/
def DerivesAs (level : Level) (cores : List Core) (P : Expr → Prop) : Prop :=
  ∀ ts : List Token, ts.map Token.core = cores → ∃ e, P e ∧ Derives true (.expr level e) ts

namespace DerivesAs

variable {level asked : Level} {cores ls rs : List Core} {P Q R : Expr → Prop}

/-- What is read at a level is read where a looser one is asked for. -/
theorem loosen (h : DerivesAs level cores P) (hrank : asked.rank ≤ level.rank) :
    DerivesAs asked cores P := by
  intro ts hts
  obtain ⟨e, he, hderives⟩ := h ts hts
  exact ⟨e, he, hderives.loosen hrank⟩

/-- A literal. -/
theorem literal {n : Int64} (h : ∀ t, P (.int t n)) :
    DerivesAs .suffix [(.int, Text.writeInt n)] P := by
  intro ts hts
  obtain ⟨t, us, rfl, ht, hliteral, hus⟩ := exists_of_map_core_cons hts
  cases List.map_eq_nil_iff.mp hus
  exact ⟨_, h t, .int ht (by rw [hliteral, Text.readInt?_writeInt])⟩

/-- A sign in front. -/
theorem signed (h : DerivesAs .unary cores P) (hQ : ∀ t e, P e → Q (.unary t .negate e)) :
    DerivesAs .unary (TokenKind.minus.sign :: cores) Q := by
  intro ts hts
  obtain ⟨t, us, rfl, ht, hus⟩ := exists_of_map_core_sign hts
  obtain ⟨e, he, hderives⟩ := h us hus
  exact ⟨_, hQ t e he, .unary ht hderives⟩

/-- An operand, in parentheses if it is looser than what is asked for. -/
theorem enclosed (h : DerivesAs level cores P) (hlevel : Level.equality.rank ≤ level.rank) :
    DerivesAs asked (enclosedCores asked level cores) P := by
  unfold enclosedCores
  split
  · next hrank => exact h.loosen hrank
  · intro ts hts
    obtain ⟨lp, us, rfl, hlp, hts⟩ := exists_of_map_core_sign hts
    obtain ⟨us, vs, rfl, hus, hvs⟩ := List.map_eq_append_iff.mp hts
    obtain ⟨rp, rfl, hrp⟩ := exists_of_map_core_last hvs
    obtain ⟨e, he, hderives⟩ := h us hus
    -- Between parentheses any level may stand, and the whole is an atom again.
    exact ⟨e, he, (Derives.group hlp hrp (hderives.loosen hlevel)).loosen (Level.rank_le _)⟩

/-- An operator between its operands. -/
theorem between (op : BinaryOp) (hleft : DerivesAs op.level ls P)
    (hright : DerivesAs op.level.tighter rs Q) (hR : ∀ t l r, P l → Q r → R (.binary t op l r)) :
    DerivesAs op.level (ls ++ op.tokenKind.sign :: rs) R := by
  intro ts hts
  obtain ⟨us, vs, rfl, hus, hts⟩ := List.map_eq_append_iff.mp hts
  obtain ⟨t, vs, rfl, ht, hvs⟩ := exists_of_map_core_sign hts
  obtain ⟨l, hl, hlderives⟩ := hleft us hus
  obtain ⟨r, hr, hrderives⟩ := hright vs hvs
  exact ⟨_, hR t l r hl hr, .binary ht hlderives hrderives⟩

/-- A text with these tokens is parsed as one statement, the
expression. -/
theorem parses (h : DerivesAs .equality cores P) {source : String}
    (hsource : lexemes source.toList = cores) :
    (parse source).errors = [] ∧ ∃ t e, (parse source).program = [.expr t e] ∧ P e := by
  refine parse_of_lexemes (P := fun program => ∃ t e, program = [.expr t e] ∧ P e) hsource
    fun ts hts => ?_
  obtain ⟨e, he, hderives⟩ := h ts hts
  obtain ⟨t, us, rfl, -⟩ := hderives.startsExpr
  have hstmts := Derives.noSemicolon (fun _ => rfl) (.expr hderives) .noStmts
  rw [List.append_nil] at hstmts
  exact ⟨_, hstmts, t, e, rfl, he⟩

end DerivesAs

namespace ArithmeticTree

/-- Sums are the loosest trees. -/
theorem sum_rank_le_level (tree : ArithmeticTree) : Level.sum.rank ≤ tree.level.rank := by
  cases tree with
  | const n _ =>
      rw [level]
      split <;> decide
  | negate _ =>
      rw [level]
      decide
  | binary op _ _ =>
      rw [level]
      cases op <;> decide

/-- The grammar derives the tokens of a tree from the tree. -/
theorem derives (tree : ArithmeticTree) : DerivesAs tree.level tree.spelling tree.ReadAs := by
  -- Every tree binds at least as tightly as an operand of a comparison has to.
  have hlevel (tree : ArithmeticTree) : Level.equality.rank ≤ tree.level.rank :=
    le_trans (by decide) tree.sum_rank_le_level
  induction tree with
  | const n hn =>
      rw [level, spelling]
      split
      -- A negative integer is written as a negation.
      · have hliteral : DerivesAs .suffix [(.int, Text.writeInt (-n))]
            fun e => ∃ t, e = .int t (-n) := .literal fun t => ⟨t, rfl⟩
        refine (hliteral.loosen (by decide)).signed ?_
        rintro t e ⟨t', rfl⟩
        exact .negative t t'
      · exact .literal fun t => .literal t
  | negate tree ih => exact (ih.enclosed (hlevel tree)).signed fun t e he => .negate t he
  | binary op left right ihl ihr =>
      exact .between _ (ihl.enclosed (hlevel left)) (ihr.enclosed (hlevel right))
        fun t l r hl hr => .binary t hl hr

/-- A text with the tokens of a tree is parsed as the tree. -/
theorem parses {tree : ArithmeticTree} {source : String}
    (h : lexemes source.toList = tree.spelling) :
    (parse source).errors = [] ∧ ∃ t e, (parse source).program = [.expr t e] ∧ tree.ReadAs e :=
  (tree.derives.loosen (le_trans (by decide) tree.sum_rank_le_level)).parses h

end ArithmeticTree

/-- A text with the tokens of a comparison is parsed as the
comparison. -/
theorem Comparison.parses {c : Comparison} {source : String}
    (h : lexemes source.toList = c.spelling) :
    (parse source).errors = [] ∧ ∃ t e, (parse source).program = [.expr t e] ∧ c.ReadAs e := by
  have hrank (tree : ArithmeticTree) {level : Level} (h : level.rank ≤ Level.sum.rank) :
      DerivesAs level tree.spelling tree.ReadAs :=
    tree.derives.loosen (le_trans h tree.sum_rank_le_level)
  have hderives : DerivesAs c.op.toBinaryOp.level c.spelling c.ReadAs :=
    .between _ (hrank c.left (by cases c.op <;> decide)) (hrank c.right (by cases c.op <;> decide))
      fun t l r hl hr => .binary t hl hr
  exact (hderives.loosen (by cases c.op <;> decide)).parses h

end QuoteScript
