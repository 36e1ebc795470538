import QuoteScript.Proofs.Grammar.Synchronization

/-!
# `QuoteScript.Proofs.Grammar.EndOfText`: reading stops at the end of the text

A list of tokens may go on behind an end-of-text token, and it may have
none. `Cursor.ofTokens` cuts a list at its first end-of-text token before
anything is read. This module shows that the cut changes nothing: a
reader that has the whole list in front of it comes to the first
end-of-text token, stands on it, and is done.

No reader moves on from an end-of-text token. The readers that move on
without looking do so from a token that they have looked at before, and
skipping a broken statement ends at the end of the text at the latest.
That is what makes `Alignment.upTo` an alignment. Two lists with the same
tokens up to there are therefore read in the same way, whatever follows.

* `Cursor.onAll`: the place on the first token of a list that is not cut.
* `Alignment.upTo`: the same tokens up to the end of the text.
* `program_of_upTo`: programs that are the same up to there.
* `parseTokens_stops_at_eof`: any list of tokens.
-/

set_option autoImplicit false

namespace QuoteScript

open Reader

/-! ### Lists that are not cut -/

/-- The offset at which the last token of a list ends. -/
def endOffset (tokens : List Token) : Nat :=
  (tokens.getLast?.map (·.span.stop)).getD 0

/-- The place on the first token of a list of which nothing is cut off.
Behind its last token the list goes on with the end of the text. -/
def Cursor.onAll (tokens : List Token) : Cursor :=
  ⟨tokens, .eof (endOffset tokens)⟩

/-- The place on the first end-of-text token of a list. -/
def Cursor.onEof (tokens : List Token) : Cursor :=
  ⟨tokens.dropWhile (·.kind != .eof), .eof (endOffset tokens)⟩

/-! ### The same tokens up to the end of the text -/

/-- Two places at the end of a text that look the same. -/
structure AtEnd (e e' : Cursor) : Prop where
  eof : e.current.kind = .eof
  resembles : e.current.Resembles e'.current

/-- The same tokens up to `e` and `e'`, none of which ends the text. -/
inductive UpTo (e e' : Cursor) : Cursor → Cursor → Prop where
  | mk {ts : List Token} (hts : ∀ t ∈ ts, t.kind ≠ .eof) :
      UpTo e e' ⟨ts ++ e.ahead, e.final⟩ ⟨ts ++ e'.ahead, e'.final⟩

/-- Skipping a broken statement ends at the end of the text at the
latest. -/
theorem behindBroken_append_of_eof (inBlock : Bool) (ts : List Token) {e : Cursor}
    (he : e.current.kind = .eof) :
    behindBroken inBlock (ts ++ e.ahead) = behindBroken inBlock ts ++ e.ahead := by
  induction ts with
  | nil =>
      obtain ⟨ahead, final⟩ := e
      cases ahead with
      | nil => rfl
      | cons t ahead =>
          -- Recovery does not go beyond the end of the text.
          have ht : t.kind = .eof := he
          show behindBroken inBlock (t :: ahead) = t :: ahead
          rw [behindBroken, ht, if_neg (by decide), if_pos (by rfl)]
  | cons t ts ih =>
      rw [List.cons_append, behindBroken, behindBroken]
      split
      · rfl
      · split
        · rfl
        · exact ih

namespace UpTo

variable {e e' c c' : Cursor}

/-- The current tokens resemble each other: those at the two ends do. -/
theorem current (he : AtEnd e e') (h : UpTo e e' c c') : c.current.Resembles c'.current := by
  obtain @⟨ts, hts⟩ := h
  cases ts with
  | nil => exact he.resembles
  | cons t ts => exact .refl t

/-- Both readers come to the end of the text at once. -/
theorem eq_of_eof (h : UpTo e e' c c') (heof : c.current.kind = .eof) : c = e ∧ c' = e' := by
  obtain @⟨ts, hts⟩ := h
  cases ts with
  | nil => exact ⟨rfl, rfl⟩
  | cons t ts => exact absurd heof (hts t List.mem_cons_self)

/-- In front of the ends both cursors move on together. -/
theorem advance (he : AtEnd e e') (h : UpTo e e' c c') (hne : c.current.kind ≠ .eof) :
    UpTo e e' c.advance c'.advance := by
  obtain @⟨ts, hts⟩ := h
  cases ts with
  | nil => exact absurd he.eof hne
  | cons t ts => exact .mk fun u hu => hts u (List.mem_cons_of_mem t hu)

/-- A broken statement is skipped as far on both sides, up to the ends
at most. -/
theorem recovered (he : AtEnd e e') (inBlock : Bool) (h : UpTo e e' c c') :
    UpTo e e' (c.recovered inBlock) (c'.recovered inBlock) := by
  obtain @⟨ts, hts⟩ := h
  have heof' : e'.current.kind = .eof := he.resembles.kind_eq.trans he.eof
  rw [Cursor.recovered, Cursor.recovered, behindBroken_append_of_eof inBlock ts he.eof,
    behindBroken_append_of_eof inBlock ts heof']
  exact .mk fun t ht => hts t ((behindBroken_suffix inBlock ts).mem ht)

end UpTo

/-- Up to the end of the text readers see the same, and they do not move
on from there. -/
def Alignment.upTo {e e' : Cursor} (he : AtEnd e e') : Alignment where
  holds _ := UpTo e e'
  current h := h.current he
  loosen h := h
  plain h hplain := h.advance he (TokenKind.isPlain_iff.mp hplain).1
  opening h hkind := h.advance he (by rw [hkind]; decide)
  closing h hkind := h.advance he (by rw [hkind]; decide)
  semicolon h hkind := h.advance he (by rw [hkind]; decide)
  recover h := h.recovered he true

/-! ### Programs -/

section Program

variable {e e' c c' : Cursor} {steps steps' : Nat}

/-- A program that can be read is read to the end of the text, and so is
one with the same tokens up to there. -/
theorem program_of_upTo (he : AtEnd e e') (h : UpTo e e' c c') {program program' : Program}
    {c₁ c₁' : Cursor} {errors errors' : List Diagnostic}
    (hrun : Reader.program steps c = .done program c₁ errors)
    (hrun' : Reader.program steps' c' = .done program' c₁' errors') :
    program' = program ∧ c₁' = e' ∧ errors' = errors := by
  have hsame := statements_aligned (A := .upTo he) (d := 0)
    (readExpr_aligned (.upTo he) steps steps')
    (fun _ _ h hkind => h.advance he (by rw [hkind]; decide))
    (fun _ _ h => h.recovered he false) steps steps' h
  change (Reader.program steps c).Matches _ _ (Reader.program steps' c') at hsame
  rw [hrun, hrun'] at hsame
  cases hsame with
  | done hend =>
      obtain ⟨hupTo, hends⟩ := hend
      -- Outside of blocks only the end of the text ends the statements.
      have heof : c₁.current.kind = .eof := by simpa [endsStatements] using hends
      exact ⟨rfl, (UpTo.eq_of_eof hupTo heof).2, rfl⟩

end Program

/-! ### Lists of tokens -/

/-- In front of the first end there is no other one. -/
theorem ne_eof_of_mem_takeWhile (tokens : List Token) :
    ∀ t ∈ tokens.takeWhile (·.kind != .eof), t.kind ≠ .eof := fun _ ht =>
  bne_iff_ne.mp (List.mem_takeWhile_imp (p := fun u : Token => u.kind != .eof) ht)

/-- A list that is cut at its first end-of-text token looks the same up
to there. -/
theorem atEnd_onEof (tokens : List Token) :
    AtEnd ⟨[], Cursor.finalOf tokens⟩ (Cursor.onEof tokens) := by
  refine ⟨Cursor.closed_ofTokens tokens, .of_eq ?_⟩
  show (tokens.dropWhile fun t => !(t.kind == .eof)).headD _ = Cursor.finalOf tokens
  rw [List.headD_eq_head?_getD, ← List.find?_eq_head?_dropWhile_not]
  rfl

/-- The list as it is and the list cut at its first end are the same up
to the ends. -/
theorem upTo_onEof (tokens : List Token) :
    UpTo ⟨[], Cursor.finalOf tokens⟩ (Cursor.onEof tokens) (Cursor.ofTokens tokens)
      (Cursor.onAll tokens) := by
  have hupTo : UpTo ⟨[], Cursor.finalOf tokens⟩ (Cursor.onEof tokens)
      ⟨tokens.takeWhile (·.kind != .eof) ++ [], Cursor.finalOf tokens⟩
      ⟨tokens.takeWhile (·.kind != .eof) ++ tokens.dropWhile (·.kind != .eof), _⟩ :=
    .mk (ne_eof_of_mem_takeWhile tokens)
  rwa [List.append_nil, List.takeWhile_append_dropWhile] at hupTo

/-- The list itself can be read in the place of the one that is cut. Any
number of steps is enough that is larger than the number of tokens. -/
theorem program_onAll (tokens : List Token) (more : Nat) :
    Reader.program (tokens.length + 1 + more) (Cursor.onAll tokens)
      = .done (parseTokens tokens).program (Cursor.onEof tokens) (parseTokens tokens).errors := by
  obtain ⟨c, hrun⟩ := parseTokens_run tokens
  have hclosed : (Cursor.onAll tokens).Closed := rfl
  -- The steps outlast all of the tokens, those behind the end included.
  have hsteps : (Cursor.onAll tokens).ahead.length < tokens.length + 1 + more := by
    show tokens.length < tokens.length + 1 + more
    omega
  obtain ⟨program, c', errors, hrun'⟩ : ∃ program c' errors,
      Reader.program (tokens.length + 1 + more) (Cursor.onAll tokens)
        = .done program c' errors := statements_done hclosed hsteps hsteps
  obtain ⟨rfl, rfl, rfl⟩ :=
    program_of_upTo (atEnd_onEof tokens) (upTo_onEof tokens) hrun hrun'
  exact hrun'

/-- Lists that start with the same tokens look the same up to the first
end-of-text token among these, or to where they part. -/
theorem upTo_append (tokens behind behind' : List Token) (final final' : Token) :
    UpTo ⟨tokens.dropWhile (·.kind != .eof) ++ behind, final⟩
      ⟨tokens.dropWhile (·.kind != .eof) ++ behind', final'⟩
      ⟨tokens ++ behind, final⟩ ⟨tokens ++ behind', final'⟩ := by
  have hsplit (us : List Token) : tokens ++ us =
      tokens.takeWhile (·.kind != .eof) ++ (tokens.dropWhile (·.kind != .eof) ++ us) := by
    rw [← List.append_assoc, List.takeWhile_append_dropWhile]
  rw [hsplit behind, hsplit behind']
  exact .mk (ne_eof_of_mem_takeWhile tokens)

/-- Where one list ends, another one may go on, if its next token ends
the text at the same offsets. -/
theorem parseTokens_append_of_atEnd (tokens : List Token) {behind behind' : List Token}
    (h : AtEnd ⟨behind, .eof (endOffset (tokens ++ behind))⟩
      ⟨behind', .eof (endOffset (tokens ++ behind'))⟩) :
    parseTokens (tokens ++ behind') = parseTokens (tokens ++ behind) := by
  have hrun := program_onAll (tokens ++ behind) 0
  have hrun' := program_onAll (tokens ++ behind') 0
  -- An end-of-text token may stand among the first tokens, too.
  have hend : AtEnd
      ⟨tokens.dropWhile (·.kind != .eof) ++ behind, .eof (endOffset (tokens ++ behind))⟩
      ⟨tokens.dropWhile (·.kind != .eof) ++ behind', .eof (endOffset (tokens ++ behind'))⟩ := by
    have hdrop := List.head?_dropWhile_not (·.kind != .eof) tokens
    cases hcase : tokens.dropWhile (·.kind != .eof) with
    | nil => exact h
    | cons t ts =>
        rw [hcase] at hdrop
        exact ⟨by simpa using hdrop, .refl t⟩
  obtain ⟨hprogram, -, herrors⟩ :=
    program_of_upTo hend (upTo_append tokens behind behind' _ _) hrun hrun'
  exact congrArg₂ Parsed.mk hprogram herrors

/-- Reading ends at the first end-of-text token, for every list of tokens
whatever. It takes no more steps than there are tokens, and one more; the
reader that has the whole list in front of it stops on that token. Of the
end-of-text token only the span counts, and of the tokens behind it
nothing does. A list that has no such token is read as if one stood where
its last token ends. -/
theorem parseTokens_stops_at_eof (tokens : List Token) :
    (∀ more, Reader.program (tokens.length + 1 + more) (Cursor.onAll tokens)
      = .done (parseTokens tokens).program (Cursor.onEof tokens) (parseTokens tokens).errors) ∧
    (∀ span literal literal' rest rest',
      parseTokens (tokens ++ ⟨.eof, literal', span⟩ :: rest')
        = parseTokens (tokens ++ ⟨.eof, literal, span⟩ :: rest)) ∧
    parseTokens (tokens ++ [.eof (endOffset tokens)]) = parseTokens tokens := by
  refine ⟨program_onAll tokens, fun span literal literal' rest rest' => ?_, ?_⟩
  · exact parseTokens_append_of_atEnd tokens ⟨rfl, rfl, rfl, fun hne => absurd rfl hne⟩
  -- A list without an end is closed with just the token that is appended here.
  · have hend : AtEnd ⟨[], .eof (endOffset (tokens ++ []))⟩
        ⟨[.eof (endOffset tokens)], .eof (endOffset (tokens ++ [.eof (endOffset tokens)]))⟩ := by
      rw [List.append_nil]
      exact ⟨rfl, .refl _⟩
    have happend := parseTokens_append_of_atEnd tokens hend
    rwa [List.append_nil] at happend

/-- A `let` that the end of the text breaks off. -/
example :
    (parseTokens [.fixed .letWord ⟨0, 3⟩, ⟨.eof, "", ⟨4, 4⟩⟩, .fixed .trueWord ⟨5, 9⟩]).errors
      = [.unexpectedToken .ident .eof ⟨4, 4⟩] := by
  decide

end QuoteScript
