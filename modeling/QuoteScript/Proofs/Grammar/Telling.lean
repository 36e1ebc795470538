import QuoteScript.Proofs.Grammar.Parse
import QuoteScript.Proofs.Tree.Telling

/-!
# `QuoteScript.Proofs.Grammar.Telling`: the tokens of parsed programs tell

A derivation says which token each part of a tree carries. A name and a
string carry the token that they are read from. Any other expression
carries a token that is no name and no string, and the scanner makes
nothing else of a text that reads `unquote`.

* `Derives.telling`: derived trees.
* `parse_telling`: parsed programs.
-/

set_option autoImplicit false

namespace QuoteScript

/-- A token that is written `unquote` is a name or a string. -/
def Token.Plain (t : Token) : Prop :=
  t.literal = "unquote" → t.kind = .ident ∨ t.kind = .string

/-- The tokens of the tree of a phrase tell. -/
def Phrase.Telling : Phrase → Prop
  | .expr _ e => Alike .telling (.expr e) (.expr e)
  | .items es | .moreItems es => Alike .telling (.exprs es) (.exprs es)
  | .pairs entries => Alike .telling (.pairs entries) (.pairs entries)
  | .params _ | .moreParams _ => True
  | .branch alternative => Alike .telling (.branch alternative) (.branch alternative)
  | .block b => Alike .telling (.block b) (.block b)
  | .stmt s => Alike .telling (.stmt s) (.stmt s)
  | .stmts body => Alike .telling (.body body) (.body body)

/-- A plain token of a kind that is no name and no string tells what it
stands for. -/
theorem Token.Plain.telling {t : Token} (ht : t.Plain) {kind : TokenKind} (hkind : t.kind = kind)
    (hident : kind ≠ .ident) (hstring : kind ≠ .string) : TokenRelation.telling .expr t t := by
  subst hkind
  have hne : t.literal ≠ "unquote" := fun h => (ht h).elim hident hstring
  exact ⟨hne, hne⟩

/-- The tokens of derived trees tell, if they are plain. -/
theorem Derives.telling {ended : Bool} {phrase : Phrase} {ts : List Token}
    (h : Derives ended phrase ts) (hts : ∀ t ∈ ts, t.Plain) : phrase.Telling := by
  induction h with
  | tighter _ ih => exact ih hts
  | @binary op _ _ _ _ _ ht _ _ ihl ihr =>
      obtain ⟨hleft, hbehind⟩ := List.forall_mem_append.mp hts
      obtain ⟨hop, hright⟩ := List.forall_mem_cons.mp hbehind
      exact .binary (hop.telling ht (by cases op <;> decide) (by cases op <;> decide)) (ihl hleft)
        (ihr hright)
  | @unary op _ _ _ ht _ ih =>
      obtain ⟨hop, hoperand⟩ := List.forall_mem_cons.mp hts
      exact .unary (hop.telling ht (by cases op <;> decide) (by cases op <;> decide)) (ih hoperand)
  -- A call and an index expression carry the token behind their first part.
  | call hlp _ _ _ ihf iha =>
      obtain ⟨hfront, -⟩ := List.forall_mem_append.mp hts
      obtain ⟨hcallee, hbehind⟩ := List.forall_mem_append.mp hfront
      obtain ⟨hparen, hargs⟩ := List.forall_mem_cons.mp hbehind
      exact .call (hparen.telling hlp (by decide) (by decide)) (ihf hcallee) (iha hargs)
  | index hlb _ _ _ ihe ihi =>
      obtain ⟨hfront, -⟩ := List.forall_mem_append.mp hts
      obtain ⟨hleft, hbehind⟩ := List.forall_mem_append.mp hfront
      obtain ⟨hbracket, hindex⟩ := List.forall_mem_cons.mp hbehind
      exact .index (hbracket.telling hlb (by decide) (by decide)) (ihe hleft) (ihi hindex)
  | ident _ => exact .ident ⟨rfl, rfl⟩
  | int ht _ => exact .int ((hts _ List.mem_cons_self).telling ht (by decide) (by decide))
  | str _ => exact .str ⟨rfl, rfl⟩
  | trueWord ht | falseWord ht =>
      exact .bool ((hts _ List.mem_cons_self).telling ht (by decide) (by decide))
  -- The parentheses of a group are in no tree.
  | group _ _ _ ih => exact ih fun t ht => hts t (by simp [ht])
  | array hlb _ _ ih =>
      have hbracket := hts _ List.mem_cons_self
      exact .array (hbracket.telling hlb (by decide) (by decide))
        (ih fun t ht => hts t (by simp [ht]))
  | dict hlb _ _ ih =>
      have hbrace := hts _ List.mem_cons_self
      exact .dict (hbrace.telling hlb (by decide) (by decide)) (ih fun t ht => hts t (by simp [ht]))
  | cond ht _ _ _ ihc ihb iha =>
      obtain ⟨hfront, halternative⟩ := List.forall_mem_append.mp hts
      obtain ⟨hcondition, hblock⟩ := List.forall_mem_append.mp hfront
      obtain ⟨hword, hcondition⟩ := List.forall_mem_cons.mp hcondition
      exact .cond (hword.telling ht (by decide) (by decide)) (ihc hcondition) (ihb hblock)
        (iha halternative)
  | @lambda _ _ _ kind _ _ _ _ ht _ _ _ _ _ ihb =>
      have hword := hts _ List.mem_cons_self
      exact .lambda (hword.telling ht (by cases kind <;> decide) (by cases kind <;> decide))
        (ihb fun t ht => hts t (by simp [ht]))
  -- Lists.
  | noItems | noMoreItems => exact .noExprs
  | items _ _ ihe ihes =>
      obtain ⟨he, hes⟩ := List.forall_mem_append.mp hts
      exact .exprs (ihe he) (ihes hes)
  | moreItems _ _ _ ihe ihes =>
      obtain ⟨he, hes⟩ := List.forall_mem_append.mp fun t ht => hts t (List.mem_cons_of_mem _ ht)
      exact .exprs (ihe he) (ihes hes)
  | noPairs => exact .noPairs
  | lastPair _ _ _ ihk ihv =>
      obtain ⟨hkey, hbehind⟩ := List.forall_mem_append.mp hts
      exact .pairs (ihk hkey) (ihv (List.forall_mem_cons.mp hbehind).2) .noPairs
  | pairs _ _ _ _ _ ihk ihv ihes =>
      obtain ⟨hpair, hrest⟩ := List.forall_mem_append.mp hts
      obtain ⟨hkey, hvalue⟩ := List.forall_mem_append.mp hpair
      exact .pairs (ihk hkey) (ihv (List.forall_mem_cons.mp hvalue).2)
        (ihes (List.forall_mem_cons.mp hrest).2)
  | noParams | params _ _ _ | noMoreParams | moreParams _ _ _ _ => trivial
  -- Blocks and statements.
  | noBranch => exact .noBranch
  | branch _ _ ih => exact .branch (ih (List.forall_mem_cons.mp hts).2)
  | block _ _ _ ih => exact .block ⟨trivial, trivial⟩ (ih fun t ht => hts t (by simp [ht]))
  | letIn _ _ _ _ ih => exact .letIn ⟨trivial, trivial⟩ (ih fun t ht => hts t (by simp [ht]))
  | ret _ _ ih => exact .ret ⟨trivial, trivial⟩ (ih (List.forall_mem_cons.mp hts).2)
  | expr _ ih => exact .value ⟨trivial, trivial⟩ (ih hts)
  | noStmts => exact .noStmts
  | semicolon _ _ _ ihs ihbody =>
      obtain ⟨hs, hbehind⟩ := List.forall_mem_append.mp hts
      exact .stmts (ihs hs) (ihbody (List.forall_mem_cons.mp hbehind).2)
  | noSemicolon _ _ _ ihs ihbody =>
      obtain ⟨hs, hbody⟩ := List.forall_mem_append.mp hts
      exact .stmts (ihs hs) (ihbody hbody)

/-- The tokens of a program that is parsed without errors tell. -/
theorem parse_telling {source : String} (h : (parse source).errors = []) :
    Alike .telling (.body (parse source).program) (.body (parse source).program) := by
  have hderives : Derives false (.stmts (parse source).program) _ := derives_of_parseTokens h
  refine hderives.telling fun t ht hliteral => ?_
  have heof : t.kind ≠ .eof := by simpa using List.mem_takeWhile_imp ht
  have hmem := (List.takeWhile_sublist _).subset ht
  exact kind_of_name_mem_tokenize hmem heof (by rw [hliteral]; decide)

end QuoteScript
