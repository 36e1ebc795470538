import QuoteScript.Proofs.Token.Lexemes

/-!
# `QuoteScript.Proofs.Token.Order`: the order of the tokens of a text

A scan moves forward. Every token but the last one takes at least one
byte of the source, and the token behind it starts where it ends, or
further on. So no two tokens of a text overlap. The last token, and no
other one, is the end of the text.

* `Token.Before`: a token in front of another one.
* `tokenize_ordered`: the tokens of a source text are in order.
* `tokenize_eq_append`: the end of the text is the last token.
-/

set_option autoImplicit false

namespace QuoteScript

/-- `t` takes some of the text, and `u` starts no earlier than where `t`
ends. -/
def Token.Before (t u : Token) : Prop :=
  t.span.start < t.span.stop ∧ t.span.stop ≤ u.span.start

/-- A lexeme takes at least one byte. -/
theorem Lexeme.size_read_pos (c : Char) (text : List Char) : 0 < (read c text).size := by
  obtain ⟨d, raw, hraw⟩ := List.exists_cons_of_ne_nil (raw_read_ne_nil c text)
  have hpos := d.utf8Size_pos
  rw [size, hraw, List.foldr_cons]
  omega

namespace Scanner

/-- The next token starts where the scan stands, or behind it, and the
scan stands where it ends afterwards. -/
theorem span_nextToken (s : Scanner) :
    s.offset ≤ s.nextToken.1.span.start ∧ s.nextToken.1.span.start ≤ s.nextToken.1.span.stop ∧
      s.nextToken.1.span.stop = s.nextToken.2.offset ∧
      (s.nextToken.1.kind ≠ .eof → s.nextToken.1.span.start < s.nextToken.1.span.stop) := by
  have hskip : s.offset ≤ s.skipBlanks.offset := Nat.le_add_right _ _
  unfold nextToken
  dsimp only
  split
  -- At the end of the text the token takes nothing.
  · exact ⟨hskip, Nat.le_refl _, rfl, fun hne => absurd rfl hne⟩
  · next c text _ =>
      have hsize := Lexeme.size_read_pos c text
      exact ⟨hskip, Nat.le_add_right _ _, rfl, fun _ => Nat.lt_add_of_pos_right hsize⟩

/-- The tokens that a scan still yields are in order, and none of them
starts in front of its offset. -/
theorem drain_ordered (s : Scanner) :
    s.drain.1.Pairwise Token.Before ∧ ∀ t ∈ s.drain.1, s.offset ≤ t.span.start := by
  induction s using drain_induction with
  | hend s hfinished =>
      rw [drain_of_finished hfinished]
      exact ⟨.nil, nofun⟩
  | hopen s hopen ih =>
      -- The first token ends where the scanner goes on, and the others start there or later.
      obtain ⟨hstart, hle, hstop, hpos⟩ := s.span_nextToken
      obtain ⟨hordered, hbehind⟩ := ih
      rw [drain_of_open hopen]
      refine ⟨List.pairwise_cons.mpr ⟨fun t ht => ?_, hordered⟩,
        List.forall_mem_cons.mpr ⟨hstart, fun t ht => ?_⟩⟩
      · -- Behind the end of the text there is no token.
        have hne : s.nextToken.1.kind ≠ .eof := by
          intro heof
          rw [drain_of_finished (by rw [following, heof]; rfl)] at ht
          cases ht
        exact ⟨hpos hne, hstop ▸ hbehind t ht⟩
      · have hoffset : s.nextToken.2.offset ≤ t.span.start := hbehind t ht
        omega

end Scanner

/-- The tokens of a source text are in order. -/
theorem tokenize_ordered (source : String) : (tokenize source).Pairwise Token.Before :=
  (Scanner.ofString source).drain_ordered.1

/-- No lexeme of a text is the end of the text. -/
theorem kind_ne_eof_of_mem_lexemes {core : Core} {text : List Char} (h : core ∈ lexemes text) :
    core.1 ≠ .eof := by
  fun_induction lexemes text with
  | case1 => cases h
  | case2 c text hblank ih => exact ih h
  | case3 c text hblank ih =>
      rcases List.mem_cons.mp h with rfl | hmem
      · exact Lexeme.kind_read_ne_eof c text
      · exact ih hmem

/-- The last token of a source text is its end, and no other one is. -/
theorem tokenize_eq_append (source : String) :
    ∃ ts final, tokenize source = ts ++ [final] ∧ final.kind = .eof ∧
      ∀ t ∈ ts, t.kind ≠ .eof := by
  -- The tokens are the lexemes and one more, so they split where the lexemes end.
  obtain ⟨ts, us, happend, hts, hus⟩ := List.map_eq_append_iff.mp (tokenize_map_core source)
  obtain ⟨final, rfl, hfinal⟩ := List.map_eq_singleton_iff.mp hus
  refine ⟨ts, final, happend, congrArg Prod.fst hfinal, fun t ht => ?_⟩
  have hmem := List.mem_map_of_mem (f := Token.core) ht
  rw [hts] at hmem
  exact kind_ne_eof_of_mem_lexemes hmem

end QuoteScript
