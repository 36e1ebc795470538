import QuoteScript.Proofs.Grammar.Parse
import QuoteScript.Proofs.Tree.Lexicon

/-!
# `QuoteScript.Proofs.Grammar.WellFormed`: parsed programs are well formed

The names and the integers of a derived tree are those of its tokens.
The scanner makes an identifier of names only, and writes no sign into
the literal of an integer. So a text that is parsed without errors
gives a well-formed program.

* `Derives.over`: a derived tree is over every lexicon that its tokens
  are over.
* `over_source_of_mem_tokenize`: the tokens of a source text.
* `parse_wellFormed`: a program that was parsed is well formed.
-/

set_option autoImplicit false

namespace QuoteScript

/-- The name or the integer that a token stands for belongs to the
lexicon. -/
structure Token.Over (L : Lexicon) (t : Token) : Prop where
  name : t.kind = .ident → L.name t.literal
  int : t.kind = .int → ∀ n, Text.readInt? t.literal = some n → L.int n

/-- The tree of a phrase is over the lexicon. -/
def Phrase.Over (L : Lexicon) : Phrase → Prop
  | .expr _ e => e.Over L
  | .items es | .moreItems es => exprsOver L es
  | .pairs entries => pairsOver L entries
  | .params names | .moreParams names => ∀ name ∈ names, L.name name
  | .branch alternative => elseOver L alternative
  | .block b => b.Over L
  | .stmt s => s.Over L
  | .stmts body => bodyOver L body

/-- What derives tokens over a lexicon is a tree over it. -/
theorem Derives.over {L : Lexicon} {ended : Bool} {phrase : Phrase} {ts : List Token}
    (h : Derives ended phrase ts) (hts : ∀ t ∈ ts, t.Over L) : phrase.Over L := by
  induction h with
  | ident ht => exact (hts _ List.mem_cons_self).name ht
  | int ht hn => exact (hts _ List.mem_cons_self).int ht _ hn
  | str _ | trueWord _ | falseWord _ => trivial
  | noItems | noMoreItems | noPairs | noBranch | noStmts => trivial
  | noParams | noMoreParams => exact nofun
  | params ht _ ih =>
      have hname := (hts _ List.mem_cons_self).name ht
      exact List.forall_mem_cons.mpr ⟨hname, ih fun t h => hts t (List.mem_cons_of_mem _ h)⟩
  | moreParams _ ht _ ih =>
      -- The name stands behind a comma.
      have hbehind := fun t h => hts t (List.mem_cons_of_mem _ h)
      have hname := (hbehind _ List.mem_cons_self).name ht
      exact List.forall_mem_cons.mpr ⟨hname, ih fun t h => hbehind t (List.mem_cons_of_mem _ h)⟩
  -- The name stands behind the keyword, and the value behind the name and the `=`.
  | letIn _ hname _ _ ih =>
      have hbehind := fun t h => hts t (List.mem_cons_of_mem _ h)
      refine ⟨(hbehind _ List.mem_cons_self).name hname, ih fun t h => ?_⟩
      exact hbehind t (List.mem_cons_of_mem _ (List.mem_cons_of_mem _ h))
  -- Every other phrase is over the lexicon if its parts are.
  | _ =>
      simp_all [Phrase.Over, Expr.Over, exprsOver, pairsOver, elseOver, Block.Over, bodyOver,
        Stmt.Over, or_imp]

/-! ### Tokens of source texts -/

/-- No sign stands in front of digits, so the integer that is read is the
one that they write. -/
theorem Text.toInt_readInt? {text : String} (hne : text.toList ≠ [])
    (hdigits : ∀ c ∈ text.toList, c.isDigit = true) {n : Int64} (hn : readInt? text = some n) :
    n.toInt = Nat.ofDigitChars 10 text.toList 0 := by
  cases htext : text.toList with
  | nil => exact absurd htext hne
  | cons c rest =>
      have hc : c.isDigit = true := hdigits c (htext ▸ List.mem_cons_self)
      rw [← String.ofList_toList (s := text), htext, readInt?_of_digit hc] at hn
      obtain ⟨m, hm, hword⟩ := Option.bind_eq_some_iff.mp hn
      rw [readDigits?] at hm
      split at hm
      · cases hm
        rw [word?] at hword
        split at hword
        -- A number that fits into 64 bits is the value of its word.
        · next hrange =>
            cases hword
            rw [Int64.toInt_minValue, Int64.toInt_maxValue] at hrange
            exact Int64.toInt_ofInt_of_le hrange.1 (by omega)
        · cases hword
      · cases hm

/-- So it is not negative. -/
theorem Text.readInt?_nonneg {text : String} (hne : text.toList ≠ [])
    (hdigits : ∀ c ∈ text.toList, c.isDigit = true) {n : Int64} (hn : readInt? text = some n) :
    0 ≤ n := by
  rw [Int64.le_iff_toInt_le, toInt_readInt? hne hdigits hn]
  exact Int.natCast_nonneg _

/-- The tokens of a source text are over the lexicon of source texts. -/
theorem over_source_of_mem_tokenize {source : String} {t : Token} (ht : t ∈ tokenize source) :
    t.Over .source where
  name hkind := isName_of_mem_tokenize ht hkind
  int hkind n hn := by
    obtain ⟨hne, hdigits⟩ := digits_of_mem_tokenize ht hkind
    exact Text.readInt?_nonneg hne hdigits hn

/-- A text that is parsed without errors gives a well-formed program. -/
theorem parse_wellFormed {source : String} (h : (parse source).errors = []) :
    (parse source).program.WellFormed := by
  have hderives : Derives false (.stmts (parse source).program) _ := derives_of_parseTokens h
  -- The tokens that count are those in front of the end, all of them tokens of the text.
  refine hderives.over (L := .source) fun t ht => ?_
  exact over_source_of_mem_tokenize ((List.takeWhile_sublist _).subset ht)

end QuoteScript
