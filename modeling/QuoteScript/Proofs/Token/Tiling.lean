import QuoteScript.Proofs.Token.Order
import QuoteScript.Proofs.Token.Patterns
import QuoteScript.Proofs.Token.Slices

/-!
# `QuoteScript.Proofs.Token.Tiling`: the tokens of a text cover it

A text is blanks, a lexeme, blanks, a lexeme and so on, and blanks at
its end. The scanner yields exactly these lexemes, whatever the text
is: nothing of it is lost, and nothing is read twice.

* `Tiling`: a list of tokens that are the lexemes of a text, each at
  its place.
* `Scanner.drain_tiling`: what a scan yields, and the state in which it
  ends.
* `Token.IsTile`: all that is true of one token in its source.
* `tokenize_tiles`: the tokens of a source text.
-/

set_option autoImplicit false

namespace QuoteScript

namespace Text

/-- The bytes of a string are those of its characters. -/
theorem utf8ByteSize_ofList (text : List Char) :
    (String.ofList text).utf8ByteSize = byteSize text := by
  induction text with
  | nil => rfl
  | cons c text ih =>
      rw [String.ofList_cons, String.utf8ByteSize_append, String.utf8ByteSize_singleton, ih]
      rfl

/-- The size of a text is the size of the string that it comes from. -/
theorem byteSize_toList (text : String) : byteSize text.toList = text.utf8ByteSize := by
  rw [← utf8ByteSize_ofList, String.ofList_toList]

end Text

open Text (byteSize byteSize_append)

/-- The tokens are the lexemes of the text, which starts at the offset,
and its end. Between them stand blanks. -/
inductive Tiling : Nat → List Char → List Token → Prop where
  | last {offset : Nat} {blanks : List Char} (hblanks : ∀ c ∈ blanks, isBlank c = true) :
      Tiling offset blanks [Token.eof (offset + byteSize blanks)]
  | next {offset : Nat} {blanks : List Char} {c : Char} {text : List Char} {ts : List Token}
      (hblanks : ∀ d ∈ blanks, isBlank d = true) (hc : isBlank c = false)
      (hrest : Tiling (offset + byteSize blanks + (Lexeme.read c text).size)
        (Lexeme.read c text).rest ts) :
      Tiling offset (blanks ++ c :: text)
        ((Lexeme.read c text).token (offset + byteSize blanks) :: ts)

/-! ### The scanner -/

namespace Scanner

/-- What is skipped in front of a token: blanks, and all of them. -/
theorem exists_skipBlanks (s : Scanner) :
    ∃ blanks, s.rest = blanks ++ s.skipBlanks.rest ∧ (∀ c ∈ blanks, isBlank c = true) ∧
      s.skipBlanks.offset = s.offset + byteSize blanks ∧
      ∀ c text, s.skipBlanks.rest = c :: text → isBlank c = false := by
  refine ⟨s.rest.takeWhile isBlank, List.takeWhile_append_dropWhile.symm,
    fun c hc => List.mem_takeWhile_imp hc, ?_, fun c text hrest => ?_⟩
  · rw [byteSize_takeWhile_isBlank]
    rfl
  · have hhead := List.head?_dropWhile_not isBlank s.rest
    change s.rest.dropWhile isBlank = c :: text at hrest
    rwa [hrest] at hhead

/-- A scan that goes on yields the lexemes of the text that is left, and
ends behind all of it. -/
theorem drain_tiling {s : Scanner} (h : s.finished = false) :
    Tiling s.offset s.rest s.drain.1 ∧
      s.drain.2 = ⟨[], s.offset + byteSize s.rest, true⟩ := by
  induction s using drain_induction with
  | hend s hfinished => cases h.symm.trans hfinished
  | hopen s hopen ih =>
      obtain ⟨blanks, hsplit, hblanks, hoffset, hhead⟩ := s.exists_skipBlanks
      rw [drain_eq_of_open hopen, hsplit]
      cases hrest : s.skipBlanks.rest with
      | nil =>
          obtain ⟨htoken, hafter⟩ := following_of_nil hrest
          rw [htoken, hafter, drain_eq_of_finished rfl, hoffset, List.append_nil]
          exact ⟨.last hblanks, rfl⟩
      | cons c text =>
          obtain ⟨htoken, hafter⟩ := following_of_cons hrest
          obtain ⟨htiling, hlast⟩ := ih (by rw [hafter])
          rw [hafter, hoffset] at htiling hlast
          rw [htoken, hafter, hoffset]
          refine ⟨.next hblanks (hhead c text hrest) htiling, hlast.trans ?_⟩
          -- The bytes of the lexeme and of what is behind it are those of the text.
          have hsize : byteSize (c :: text)
              = (Lexeme.read c text).size + byteSize (Lexeme.read c text).rest := by
            rw [← Lexeme.read_append c text, byteSize_append]
            rfl
          rw [byteSize_append, hsize, Nat.add_assoc, Nat.add_assoc, Nat.add_assoc]

end Scanner

/-! ### One token -/

/-- All that is true of a token in its source, where `raw` is the text
that the token is read off, `before` the text in front of it and
`behind` the text behind it. -/
structure Token.IsTile (source : List Char) (t : Token) (before raw behind : List Char) : Prop where
  source_eq : source = before ++ (raw ++ behind)
  span_eq : t.span = ⟨byteSize before, byteSize before + byteSize raw⟩
  slice : Text.slice? source t.span = some raw
  raw_ne_nil : raw ≠ []
  literal_eq : t.literal = String.ofList
    (if t.kind = .string then Text.unescape (raw.drop 1).dropLast else raw)
  matched : t.kind ≠ .illegal → raw ∈ t.kind.pattern
  longest : t.kind ≠ .illegal →
    ∀ run, Pattern.Matches run → run <+: raw ++ behind → run.length ≤ raw.length
  unmatched : t.kind = .illegal → ∀ run, Pattern.Matches run → ¬ run <+: raw ++ behind
  keyword : ∀ kind ∈ TokenKind.keywords, t.kind = kind ↔ raw = kind.text.toList

/-- The token of a lexeme, in a source that goes on with it. -/
theorem Lexeme.token_isTile {c : Char} (hc : isBlank c = false) (before text : List Char) :
    ((read c text).token (byteSize before)).IsTile (before ++ c :: text) before
      (read c text).raw (read c text).rest := by
  have happend := read_append c text
  refine
    { source_eq := by rw [happend]
      span_eq := rfl
      slice := ?_
      raw_ne_nil := raw_read_ne_nil c text
      literal_eq := ?_
      matched := raw_read_mem_pattern
      longest := fun _ run hrun hprefix => ?_
      unmatched := fun hkind run hrun hprefix => ?_
      keyword := fun kind hkind => kind_read_eq_iff hkind }
  · rw [← happend]
    exact Text.slice?_append before (read c text).raw (read c text).rest
  -- A string leaves its quotes out of its literal, and nothing else does.
  · show (read c text).literal = String.ofList (if (read c text).kind = .string then _ else _)
    unfold literal
    split
    · next hkind => rw [if_pos hkind]
    · next hkind => rw [if_neg hkind]
  · rw [happend] at hprefix
    exact (covers_of_matches hc hrun hprefix).2.length_le
  · rw [happend] at hprefix
    exact (covers_of_matches hc hrun hprefix).1 hkind

namespace Tiling

variable {offset : Nat} {text : List Char} {ts : List Token}

/-- The last token is the end of the text, and no other one is. -/
theorem eq_append (h : Tiling offset text ts) :
    ∃ front, ts = front ++ [Token.eof (offset + byteSize text)] ∧ ∀ t ∈ front, t.kind ≠ .eof := by
  induction h with
  | last hblanks => exact ⟨[], rfl, nofun⟩
  | @next offset blanks c text ts hblanks hc hrest ih =>
      obtain ⟨front, rfl, hfront⟩ := ih
      have hne : ((Lexeme.read c text).token (offset + byteSize blanks)).kind ≠ .eof :=
        Lexeme.kind_read_ne_eof c text
      refine ⟨_ :: front, ?_, List.forall_mem_cons.mpr ⟨hne, hfront⟩⟩
      rw [byteSize_append, ← Lexeme.read_append c text, byteSize_append, ← Nat.add_assoc,
        ← Nat.add_assoc, List.cons_append]
      rfl

/-- Every token but the last one is a tile of the source. -/
theorem exists_isTile (h : Tiling offset text ts) (before : List Char)
    (hoffset : byteSize before = offset) :
    ∀ t ∈ ts, t.kind ≠ .eof →
      ∃ front raw behind, t.IsTile (before ++ text) front raw behind := by
  induction h generalizing before with
  | last hblanks =>
      intro t ht hne
      rw [List.mem_singleton.mp ht] at hne
      exact absurd rfl hne
  | @next offset blanks c text ts hblanks hc hrest ih =>
      have hstart : byteSize (before ++ blanks) = offset + byteSize blanks := by
        rw [byteSize_append, hoffset]
      have htile := Lexeme.token_isTile hc (before ++ blanks) text
      rw [hstart, List.append_assoc] at htile
      -- The rest of the text stands behind the lexeme.
      have hstop : byteSize (before ++ blanks ++ (Lexeme.read c text).raw)
          = offset + byteSize blanks + (Lexeme.read c text).size := by
        rw [byteSize_append, hstart]
        rfl
      have hbehind := ih _ hstop
      rw [List.append_assoc _ (Lexeme.read c text).raw, Lexeme.read_append, List.append_assoc]
        at hbehind
      exact List.forall_mem_cons.mpr ⟨fun _ => ⟨_, _, _, htile⟩, hbehind⟩

/-- A character stands in one of two texts that are put together. -/
theorem append_eq_append_cons {xs ys front behind : List Char} {d : Char}
    (h : xs ++ ys = front ++ d :: behind) :
    (∃ cs, xs = front ++ d :: cs) ∨ ∃ as, front = xs ++ as ∧ ys = as ++ d :: behind := by
  rcases List.append_eq_append_iff.mp h with ⟨as, hfront, hys⟩ | ⟨cs, hxs, hbehind⟩
  · exact .inr ⟨as, hfront, hys⟩
  · cases cs with
    | nil => exact .inr ⟨[], by rw [hxs, List.append_nil, List.append_nil], hbehind.symm⟩
    | cons e cs =>
        obtain ⟨rfl, -⟩ := List.cons.inj hbehind
        exact .inl ⟨cs, hxs⟩

/-- A character that no token covers is a blank. -/
theorem covered (h : Tiling offset text ts) {front behind : List Char} {d : Char}
    (htext : text = front ++ d :: behind) :
    isBlank d = true ∨ ∃ t ∈ ts, t.kind ≠ .eof ∧ t.span.start ≤ offset + byteSize front ∧
      offset + byteSize front < t.span.stop := by
  induction h generalizing front with
  | last hblanks =>
      exact .inl (hblanks d (htext ▸ List.mem_append_right _ List.mem_cons_self))
  | @next offset blanks c text ts hblanks hc hrest ih =>
      -- The character is one of the blanks, or it stands behind them.
      rcases append_eq_append_cons htext with ⟨cs, hcs⟩ | ⟨as, rfl, has⟩
      · exact .inl (hblanks d (hcs ▸ List.mem_append_right _ List.mem_cons_self))
      · rw [← Lexeme.read_append c text] at has
        rcases append_eq_append_cons has with ⟨cs, hraw⟩ | ⟨as, rfl, hrestEq⟩
        · -- The character is part of the lexeme.
          have hsize : (Lexeme.read c text).size = byteSize as + (d.utf8Size + byteSize cs) := by
            show byteSize (Lexeme.read c text).raw = _
            rw [hraw, byteSize_append]
            rfl
          have hpos := d.utf8Size_pos
          refine .inr ⟨_, List.mem_cons_self, Lexeme.kind_read_ne_eof c text, ?_, ?_⟩
          · rw [byteSize_append]
            exact Nat.add_le_add_left (Nat.le_add_right _ _) _
          · rw [byteSize_append]
            show _ < offset + byteSize blanks + (Lexeme.read c text).size
            omega
        -- It stands behind the lexeme, and some later token covers it.
        · have hplace : offset + byteSize (blanks ++ ((Lexeme.read c text).raw ++ as))
              = offset + byteSize blanks + (Lexeme.read c text).size + byteSize as := by
            rw [byteSize_append, byteSize_append, ← Nat.add_assoc, ← Nat.add_assoc]
            rfl
          rw [hplace]
          refine (ih hrestEq).imp_right ?_
          rintro ⟨t, ht, hcovers⟩
          exact ⟨t, List.mem_cons_of_mem _ ht, hcovers⟩

end Tiling

/-! ### Source texts -/

/-- The tokens of any source text. All but the last one are tiles of the
text, they are in order and do not overlap, and what none of them covers
is blank. The last one is the end of the text. Behind it the scanner
yields nothing more, and reads the end of the text as often as it is
asked for a token. -/
theorem tokenize_tiles (source : String) :
    ∃ ts, tokenize source = ts ++ [Token.eof source.utf8ByteSize] ∧
      (∀ t ∈ ts, t.kind ≠ .eof) ∧
      (tokenize source).Pairwise Token.Before ∧
      (∀ t ∈ ts, ∃ before raw behind, t.IsTile source.toList before raw behind) ∧
      (∀ before c behind, source.toList = before ++ c :: behind →
        (∀ t ∈ ts, ¬ (t.span.start ≤ Text.byteSize before ∧ Text.byteSize before < t.span.stop)) →
        c ∈ [' ', '\t', '\r', '\n', '\x0c']) ∧
      (Scanner.ofString source).drain.2.next? = none ∧
      (Scanner.ofString source).drain.2.nextToken
        = (Token.eof source.utf8ByteSize, (Scanner.ofString source).drain.2) := by
  obtain ⟨htiling, hlast⟩ := Scanner.drain_tiling (s := .ofString source) rfl
  change Tiling 0 source.toList (tokenize source) at htiling
  change (Scanner.ofString source).drain.2 = ⟨[], 0 + byteSize source.toList, true⟩ at hlast
  -- The tokens of a text are the tiles, and the end of the text behind them.
  obtain ⟨ts, hts, hkinds⟩ := htiling.eq_append
  rw [Nat.zero_add, Text.byteSize_toList] at hts hlast
  refine ⟨ts, hts, hkinds, tokenize_ordered source, fun t ht => ?_,
    fun before c behind hsource huncovered => ?_, by rw [hlast]; rfl, by rw [hlast]; rfl⟩
  · have hmem : t ∈ tokenize source := hts ▸ List.mem_append_left _ ht
    exact htiling.exists_isTile [] rfl t hmem (hkinds t ht)
  -- The end of the text covers no character, so one of the tiles would have to.
  · rcases htiling.covered hsource with hblank | ⟨t, ht, hne, hstart, hstop⟩
    · exact isBlank_iff.mp hblank
    · rw [Nat.zero_add] at hstart hstop
      rw [hts] at ht
      rcases List.mem_append.mp ht with hfront | heof
      · exact absurd ⟨hstart, hstop⟩ (huncovered t hfront)
      · rw [List.mem_singleton.mp heof] at hne
        exact absurd rfl hne

end QuoteScript
