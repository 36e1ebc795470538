import QuoteScript.Proofs.Tree.Spelling

/-!
# `QuoteScript.Proofs.Tree.OneLine`: the text of a tree is one line

A tree that can be written down is written on one line. Line feeds may
occur in its strings only, and there they are escaped.

* `Expr.onOneLine_render`, `Block.onOneLine_render`,
  `Stmt.onOneLine_render`: the parts of a tree.
-/

set_option autoImplicit false

namespace QuoteScript

/-- A text without line feeds. -/
def OnOneLine (text : String) : Prop :=
  '\n' ∉ text.toList

/-- Whether a text has a line feed in it can be looked up. -/
instance (text : String) : Decidable (OnOneLine text) :=
  inferInstanceAs (Decidable ('\n' ∉ text.toList))

/-! ### Texts -/

/-- Two texts stay on one line if both of them do. -/
@[simp] theorem onOneLine_append {first second : String} :
    OnOneLine (first ++ second) ↔ OnOneLine first ∧ OnOneLine second := by
  simp [OnOneLine]

/-- A text stays on one line if all of its characters are of a class
that has no line feed. -/
theorem onOneLine_ofList {p : Char → Bool} (hp : p '\n' = false) {cs : List Char}
    (h : ∀ c ∈ cs, p c = true) : OnOneLine (String.ofList cs) := by
  rw [OnOneLine, String.toList_ofList]
  intro hmem
  rw [h _ hmem] at hp
  cases hp

/-- Texts with commas between them stay on one line. -/
theorem onOneLine_commaSeparated {texts : List String} (h : ∀ text ∈ texts, OnOneLine text) :
    OnOneLine (commaSeparated texts) := by
  cases texts with
  | nil => decide
  | cons first rest =>
      rw [OnOneLine, commaSeparated, toList_intercalate_cons, List.mem_append, List.mem_flatMap]
      rintro (hfirst | ⟨text, hmem, htext⟩)
      · exact h first List.mem_cons_self hfirst
      · rcases List.mem_append.mp htext with hcomma | htext
        · exact absurd hcomma (by decide)
        · exact h text (List.mem_cons_of_mem _ hmem) htext

/-- A name has no line feed in it. -/
theorem onOneLine_name {name : String} (h : IsName name) : OnOneLine name := by
  obtain ⟨c, cs, rfl, hc, hcs, -⟩ := isName_iff.mp h
  have hword : ∀ d ∈ c :: cs, isWordChar d = true :=
    List.forall_mem_cons.mpr ⟨isWordChar_of_isWordStart hc, hcs⟩
  exact onOneLine_ofList (by decide) hword

/-- An integer that is not negative is written in digits only. -/
theorem onOneLine_writeInt {n : Int64} (hn : 0 ≤ n) : OnOneLine (Text.writeInt n) := by
  obtain ⟨c, cs, hwrite, hdigits⟩ := writeInt_of_nonneg hn
  rw [hwrite]
  exact onOneLine_ofList (by decide) hdigits

/-- A line feed is written as two other characters. -/
theorem newline_notMem_escapeChar (c : Char) : '\n' ∉ Text.escapeChar c := by
  unfold Text.escapeChar
  split
  case h_6 _ _ _ hline _ _ =>
    intro hmem
    exact hline (List.mem_singleton.mp hmem).symm
  all_goals decide

/-- A line feed in a string is escaped. -/
theorem onOneLine_quoted (text : String) : OnOneLine (Text.quoted text) := by
  have hescape : '\n' ∉ Text.escape text.toList := by
    rw [Text.escape, List.mem_flatMap]
    rintro ⟨c, -, hmem⟩
    exact newline_notMem_escapeChar c hmem
  have hinside : OnOneLine (String.ofList (Text.escape text.toList)) := by
    rw [OnOneLine, String.toList_ofList]
    exact hescape
  simp +decide [Text.quoted, hinside]

/-- The head of a function or a macro stays on one line if its
parameters are names. -/
theorem onOneLine_lambdaHead (kind : LambdaKind) {params : List String}
    (h : ∀ name ∈ params, IsName name) : OnOneLine (lambdaHead kind params) := by
  have hparams := onOneLine_commaSeparated fun name hname => onOneLine_name (h name hname)
  have hkind : OnOneLine kind.tokenKind.text := by cases kind <;> decide
  simp +decide [lambdaHead, hkind, hparams]

/-! ### Trees -/

mutual

/-- A well-formed expression is rendered on one line. -/
theorem Expr.onOneLine_render : ∀ e : Expr, e.WellFormed → OnOneLine e.render
  | .ident _ _, h => onOneLine_name h
  | .int _ _, h => onOneLine_writeInt h
  | .str _ value, _ => onOneLine_quoted value
  | .bool _ true, _ => show OnOneLine TokenKind.trueWord.text by decide
  | .bool _ false, _ => show OnOneLine TokenKind.falseWord.text by decide
  -- What stands between the parts is fixed, so it can be looked at.
  | .unary _ op operand, h => by
      have hop : OnOneLine op.text := by cases op <;> decide
      have hoperand := operand.onOneLine_render h
      simp +decide [Expr.render, hop, hoperand]
  | .binary _ op left right, h => by
      have hop : OnOneLine op.text := by cases op <;> decide
      have hleft := left.onOneLine_render h.1
      have hright := right.onOneLine_render h.2
      simp +decide [Expr.render, hop, hleft, hright]
  | .cond _ condition consequence alternative, h => by
      have hcondition := condition.onOneLine_render h.1
      have hconsequence := consequence.onOneLine_render h.2.1
      have halternative := onOneLine_renderElse alternative h.2.2
      simp +decide [Expr.render, hcondition, hconsequence, halternative]
  | .lambda _ kind params body, h => by
      have hbody := body.onOneLine_render h.2
      simp [Expr.render, onOneLine_lambdaHead kind h.1, hbody]
  | .call _ callee args, h => by
      have hcallee := callee.onOneLine_render h.1
      have hargs := onOneLine_commaSeparated (onOneLine_renderExprs args h.2)
      simp +decide [Expr.render, hcallee, hargs]
  | .array _ items, h => by
      have hitems := onOneLine_commaSeparated (onOneLine_renderExprs items h)
      simp +decide [Expr.render, hitems]
  | .index _ left index, h => by
      have hleft := left.onOneLine_render h.1
      have hindex := index.onOneLine_render h.2
      simp +decide [Expr.render, hleft, hindex]
  | .dict _ pairs, h => by
      have hpairs := onOneLine_commaSeparated (onOneLine_renderPairs pairs h)
      simp +decide [Expr.render, hpairs]

/-- So is each expression of a list. -/
theorem onOneLine_renderExprs : ∀ es : List Expr, exprsOver .source es →
    ∀ text ∈ renderExprs es, OnOneLine text
  | [], _ => nofun
  | e :: rest, h =>
    List.forall_mem_cons.mpr ⟨e.onOneLine_render h.1, onOneLine_renderExprs rest h.2⟩

/-- So is each pair of a dict. -/
theorem onOneLine_renderPairs : ∀ pairs : List (Expr × Expr), pairsOver .source pairs →
    ∀ text ∈ renderPairs pairs, OnOneLine text
  | [], _ => nofun
  | (key, value) :: rest, h => by
      have hkey := key.onOneLine_render h.1
      have hvalue := value.onOneLine_render h.2.1
      have hpair : OnOneLine (key.render ++ ": " ++ value.render) := by
        simp +decide [hkey, hvalue]
      exact List.forall_mem_cons.mpr ⟨hpair, onOneLine_renderPairs rest h.2.2⟩

/-- So is the branch that may follow the first one. -/
theorem onOneLine_renderElse : ∀ b : Option Block, elseOver .source b →
    OnOneLine (renderElse b)
  | none, _ => by decide
  | some b, h => by
      simp +decide [renderElse, b.onOneLine_render h]

/-- So is a block: its statements stand behind each other. -/
theorem Block.onOneLine_render : ∀ b : Block, b.Over .source → OnOneLine b.render
  | .mk _ body, h => by
      simp +decide [Block.render, onOneLine_renderBody body h]

/-- So is a list of statements. -/
theorem onOneLine_renderBody : ∀ body : List Stmt, bodyOver .source body →
    OnOneLine (renderBody body)
  | [], _ => by decide
  | s :: rest, h => by
      simp +decide [renderBody, s.onOneLine_render h.1, onOneLine_renderBody rest h.2]

/-- So is a statement. -/
theorem Stmt.onOneLine_render : ∀ s : Stmt, s.Over .source → OnOneLine s.render
  | .letIn _ name value, h => by
      simp +decide [Stmt.render, onOneLine_name h.1, value.onOneLine_render h.2]
  | .ret _ value, h => by
      simp +decide [Stmt.render, value.onOneLine_render h]
  | .expr _ value, h => by
      simp +decide [Stmt.render, value.onOneLine_render h]

end

end QuoteScript
