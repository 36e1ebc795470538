import QuoteScript.Proofs.Grammar.Accounting

/-!
# `QuoteScript.Proofs.Grammar.SourceOrder`: what is parsed stands in the source

Whatever is wrong with a source text, the program that is returned for it
is read off its tokens, and the errors are reported at its tokens. Both
come in source order: no token is used twice or in front of an earlier
one, and no error is reported in front of an earlier one.

* `Origin.ofSource`: a source text as the origin of trees.
* `account_of_parse`: the account of a whole text.
* `parse_is_read_off`: the program.
* `parse_errors_ordered`: the errors.
-/

set_option autoImplicit false

namespace QuoteScript

open Reader

/-! ### Errors at places that follow each other -/

namespace Cursor

/-- The tokens from the current one on, up to the end of the text. -/
def tokens (c : Cursor) : List Token :=
  c.ahead ++ [c.final]

/-- A cursor always has a current token: at the end it is the closing
one. -/
theorem tokens_eq_cons (c : Cursor) : ∃ ts, c.tokens = c.current :: ts := by
  obtain ⟨ahead, final⟩ := c
  cases ahead with
  | nil => exact ⟨[], rfl⟩
  | cons t ts => exact ⟨ts ++ [final], rfl⟩

/-- A reader moves forward only, so the tokens left are the last of
those there were. -/
theorem Within.tokens_suffix {c c' : Cursor} (h : c.Within c') : c'.tokens <:+ c.tokens := by
  obtain ⟨us, hus⟩ := h.suffix
  refine ⟨us, ?_⟩
  rw [tokens, tokens, ← List.append_assoc, hus, h.final_eq]

variable {c c' : Cursor} {found : List Diagnostic}

/-- Every error on a way is reported at a token. -/
theorem Trail.exists_token (h : Trail c found c') :
    ∀ d ∈ found, ∃ t ∈ c.tokens, d.span = t.span := by
  induction h with
  | nil => exact nofun
  | @cons c p _ d _ h hd _ ih =>
      obtain ⟨ts, hts⟩ := p.tokens_eq_cons
      refine List.forall_mem_cons.mpr ⟨⟨p.current, ?_, hd⟩, fun d' hd' => ?_⟩
      · exact h.tokens_suffix.mem (hts ▸ List.mem_cons_self)
      · obtain ⟨t, ht, hspan⟩ := ih d' hd'
        exact ⟨t, h.tokens_suffix.mem ht, hspan⟩

/-- If the tokens are in order, so are the errors. -/
theorem Trail.ordered (h : Trail c found c') (hordered : c.tokens.Pairwise Token.Before) :
    found.Pairwise fun d d' => d.span.start ≤ d'.span.start := by
  induction h with
  | nil => exact .nil
  | @cons c p _ d _ h hd hrest ih =>
      have hordered := hordered.sublist h.tokens_suffix.sublist
      refine List.pairwise_cons.mpr ⟨fun d' hd' => ?_, ih hordered⟩
      -- What follows is reported at the same token or behind it.
      obtain ⟨t, ht, hspan⟩ := hrest.exists_token d' hd'
      obtain ⟨ts, hts⟩ := p.tokens_eq_cons
      rw [hts] at ht hordered
      rw [hd, hspan]
      rcases List.mem_cons.mp ht with rfl | ht
      · exact Nat.le_refl _
      · obtain ⟨hpos, hle⟩ := (List.pairwise_cons.mp hordered).1 t ht
        omega

end Cursor

/-! ### Source texts -/

/-- What the program of a source text is read off. -/
def Origin.ofSource (source : String) : Origin :=
  ⟨tokenize source, (parse source).errors ≠ []⟩

/-- The scanner makes no empty name, and writes integers with digits. -/
theorem Origin.lexed_ofSource (source : String) : (Origin.ofSource source).Lexed where
  name t ht hempty := by
    have hname := isName_of_mem_tokenize ht.1 ht.2
    obtain ⟨c, cs, htext, -⟩ := isName_iff.mp hname
    rw [hempty] at htext
    exact absurd (congrArg String.toList htext) (by simp)
  int t n ht hn := by
    obtain ⟨hne, hdigits⟩ := digits_of_mem_tokenize ht.1 ht.2
    have hvalue := Text.toInt_readInt? hne hdigits hn
    refine ⟨ht, hvalue, ?_, ?_⟩
    · rw [hvalue]
      exact Int.natCast_nonneg _
    · exact Int64.toInt_le n

/-- A source text is read from its first token on, and its end-of-text
token stands for its end. -/
theorem ofTokens_tokenize (source : String) :
    (Cursor.ofTokens (tokenize source)).tokens = tokenize source ∧
      (Cursor.ofTokens (tokenize source)).Inside (.ofSource source) := by
  obtain ⟨ts, final, htokens, hfinal, hts⟩ := tokenize_eq_append source
  have hcursor : Cursor.ofTokens (tokenize source) = ⟨ts, final⟩ := by
    rw [htokens, ofTokens_append hts, finalOf_append ts hts (List.cons_ne_nil final [])]
    simp [Cursor.ofTokens, Cursor.finalOf, hfinal]
  rw [hcursor]
  refine ⟨htokens.symm, hfinal, fun t ht => ?_, hts⟩
  show t ∈ tokenize source
  rw [htokens]
  exact List.mem_append_left _ ht

/-- The account of a whole text. -/
theorem account_of_parse (source : String) :
    ∃ c, BodyAccount (.ofSource source) (.ofTokens (tokenize source)) (parse source).program c
      (parse source).errors := by
  obtain ⟨c, hrun⟩ := parseTokens_run (tokenize source)
  have ho := Origin.lexed_ofSource source
  exact ⟨c, accounted_statements ho (accounting_readExpr ho _) (ofTokens_tokenize source).2 hrun⟩

/-- The program of a source text is read off the text, whatever is wrong
with it. Its tokens are tokens of the text, in source order: each of them
takes some of the text, and ends no later than the next one starts. Names,
strings and integers are what the tokens stand for. A `let` that has no
name comes with an error. -/
theorem parse_is_read_off (source : String) :
    (bodyTokens (parse source).program).Sublist (tokenize source) ∧
      (∀ t ∈ bodyTokens (parse source).program, t.span.start < t.span.stop) ∧
      (bodyTokens (parse source).program).Pairwise Token.Before ∧
      bodyReadOff ⟨tokenize source, (parse source).errors ≠ []⟩ (parse source).program := by
  obtain ⟨c, haccount⟩ := account_of_parse source
  obtain ⟨htokens, -⟩ := ofTokens_tokenize source
  obtain ⟨ts, hahead, hfits⟩ := haccount.fits
  obtain ⟨hsublist, hreadOff⟩ := hfits id
  have hsplit : tokenize source
      = ts ++ (c.ahead ++ [(Cursor.ofTokens (tokenize source)).final]) := by
    rw [← List.append_assoc, ← hahead]
    exact htokens.symm
  have hordered := tokenize_ordered source
  have hstream : (bodyTokens (parse source).program).Sublist (tokenize source) := by
    rw [hsplit]
    exact hsublist.trans (List.sublist_append_left ts _)
  refine ⟨hstream, fun t ht => ?_, hordered.sublist hstream, hreadOff⟩
  -- The end of the text stands behind every token of the program.
  rw [hsplit] at hordered
  exact ((List.pairwise_append.mp hordered).2.2 t (hsublist.mem ht) _
    (List.mem_append_right _ (List.mem_singleton_self _))).1

/-- The errors that are found in a source text come in source order, and
each of them stands at a token of the text, or at its end. -/
theorem parse_errors_ordered (source : String) :
    ((parse source).errors.map (·.span.start)).Pairwise (· ≤ ·) ∧
      ∀ d ∈ (parse source).errors, ∃ t ∈ tokenize source, d.span = t.span := by
  obtain ⟨c, haccount⟩ := account_of_parse source
  obtain ⟨htokens, -⟩ := ofTokens_tokenize source
  have hordered := haccount.trail.ordered (by rw [htokens]; exact tokenize_ordered source)
  refine ⟨List.pairwise_map.mpr hordered, fun d hd => ?_⟩
  obtain ⟨t, ht, hspan⟩ := haccount.trail.exists_token d hd
  exact ⟨t, htokens ▸ ht, hspan⟩

end QuoteScript
