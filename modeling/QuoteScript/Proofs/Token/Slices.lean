import QuoteScript.Proofs.Token.Lexemes

/-!
# `QuoteScript.Proofs.Token.Slices`: tokens as slices of the source

A token knows where it stands in the source, as a range of byte offsets.
Slicing a text is a partial operation: both offsets have to be in the
text, neither of them may be inside of a character, and the range may
not run backwards. The range of a token can always be sliced, and what
stands there is what the token was made from.

* `Text.slice?`: the partial operation.
* `Scanner.Stands`: the scan stands at its offset in the source, which
  every token keeps.
* `slice_tokenize`: every token is read off its slice.
-/

set_option autoImplicit false

namespace QuoteScript

namespace Text

/-- The number of bytes that a text takes in UTF-8. -/
def byteSize (text : List Char) : Nat :=
  text.foldr (fun c size => c.utf8Size + size) 0

/-- The text in front of a byte offset and the text behind it. There is
none if the offset is inside of a character or behind the end. -/
def splitBytes? : List Char → Nat → Option (List Char × List Char)
  | text, 0 => some ([], text)
  | [], _ + 1 => none
  | c :: rest, n + 1 =>
    if c.utf8Size ≤ n + 1 then
      (splitBytes? rest (n + 1 - c.utf8Size)).map fun (front, behind) => (c :: front, behind)
    else none

/-- The text between two byte offsets, if they are in order and both can
be split at. -/
def slice? (text : List Char) (range : Span) : Option (List Char) := do
  let (_, behind) ← splitBytes? text range.start
  if range.start ≤ range.stop then
    let (slice, _) ← splitBytes? behind (range.stop - range.start)
    return slice
  else none

/-- The size of two texts, one behind the other, is the sum of their
sizes. -/
theorem byteSize_append (front rest : List Char) :
    byteSize (front ++ rest) = byteSize front + byteSize rest := by
  induction front with
  | nil => exact (Nat.zero_add _).symm
  | cons c front ih =>
      show c.utf8Size + byteSize (front ++ rest) = c.utf8Size + byteSize front + byteSize rest
      omega

/-- A text can be split behind every one of its characters. -/
theorem splitBytes?_append (front rest : List Char) :
    splitBytes? (front ++ rest) (byteSize front) = some (front, rest) := by
  induction front with
  | nil => cases rest <;> rfl
  | cons c front ih =>
      have hpos := c.utf8Size_pos
      obtain ⟨n, hn⟩ : ∃ n, byteSize (c :: front) = n + 1 :=
        Nat.exists_eq_succ_of_ne_zero (show c.utf8Size + byteSize front ≠ 0 by omega)
      have hsize : n + 1 = c.utf8Size + byteSize front := hn.symm
      rw [hn, List.cons_append, splitBytes?, if_pos (by omega)]
      rw [show n + 1 - c.utf8Size = byteSize front by omega, ih]
      rfl

/-- What stands between two parts of a text is the slice from where the
first one ends. -/
theorem slice?_append (before slice rest : List Char) :
    slice? (before ++ (slice ++ rest)) ⟨byteSize before, byteSize before + byteSize slice⟩ =
      some slice := by
  have hle : byteSize before ≤ byteSize before + byteSize slice := Nat.le_add_right _ _
  have hsize : byteSize before + byteSize slice - byteSize before = byteSize slice := by omega
  simp [slice?, splitBytes?_append, hle, hsize]

-- `é` takes the first two bytes, so a range may not start at the second one.
example : slice? ['é', '+', '1'] ⟨2, 4⟩ = some ['+', '1'] := by decide
example : slice? ['é', '+', '1'] ⟨1, 3⟩ = none := by decide

end Text

/-- The token of a kind that is read off a range of a source text, if
the range can be sliced. -/
def sliceToken? (source : List Char) (kind : TokenKind) (range : Span) : Option Token := do
  let raw ← Text.slice? source range
  return ⟨kind, Lexeme.literal ⟨kind, raw, []⟩, range⟩

namespace Scanner

/-- The scan stands at its offset in the source. -/
def Stands (source : List Char) (s : Scanner) : Prop :=
  ∃ before, source = before ++ s.rest ∧ s.offset = Text.byteSize before

variable {source : List Char} {s : Scanner}

/-- Every blank takes one byte. -/
theorem byteSize_takeWhile_isBlank (text : List Char) :
    Text.byteSize (text.takeWhile isBlank) = (text.takeWhile isBlank).length := by
  induction text with
  | nil => rfl
  | cons c rest ih =>
      rw [List.takeWhile_cons]
      split
      · next hblank =>
          -- All blanks are written with one byte.
          have hbyte : c.utf8Size = 1 := by
            simp only [isBlank, Bool.or_eq_true, beq_iff_eq] at hblank
            rcases hblank with (((rfl | rfl) | rfl) | rfl) | rfl <;> rfl
          show c.utf8Size + Text.byteSize (rest.takeWhile isBlank) = _
          rw [hbyte, ih, List.length_cons]
          omega
      · rfl

/-- A scanner that has skipped blanks still stands in the source. -/
theorem Stands.skipBlanks (h : s.Stands source) : s.skipBlanks.Stands source := by
  obtain ⟨before, hsource, hoffset⟩ := h
  refine ⟨before ++ s.rest.takeWhile isBlank, ?_, ?_⟩
  · rw [hsource, List.append_assoc]
    exact congrArg (before ++ ·) List.takeWhile_append_dropWhile.symm
  · rw [Text.byteSize_append, byteSize_takeWhile_isBlank, ← hoffset]
    rfl

/-- The next token is read off its slice, and the scan stands behind it
afterwards. -/
theorem Stands.nextToken (h : s.Stands source) :
    sliceToken? source s.nextToken.1.kind s.nextToken.1.span = some s.nextToken.1 ∧
      s.nextToken.2.Stands source := by
  obtain ⟨before, hsource, hoffset⟩ := h.skipBlanks
  unfold Scanner.nextToken
  dsimp only
  split
  -- At the end of the text the token is an empty slice.
  · next hrest =>
      rw [hrest] at hsource
      have hslice := Text.slice?_append before [] []
      rw [List.append_nil, ← hsource, ← hoffset] at hslice
      have hempty : Text.slice? source ⟨s.skipBlanks.offset, s.skipBlanks.offset⟩ = some [] :=
        hslice
      refine ⟨?_, before, hsource.trans (by rw [hrest]), hoffset⟩
      rw [sliceToken?, Token.eof, hempty]
      rfl
  · next c text hrest =>
      -- What is in front grows by the lexeme, so its slice starts where the scanner stands.
      have happend := Lexeme.read_append c text
      rw [hrest, ← happend] at hsource
      have hslice := Text.slice?_append before (Lexeme.read c text).raw (Lexeme.read c text).rest
      rw [← hsource, ← hoffset] at hslice
      have hread : Text.slice? source ⟨s.skipBlanks.offset,
          s.skipBlanks.offset + (Lexeme.read c text).size⟩ = some (Lexeme.read c text).raw := hslice
      refine ⟨?_, before ++ (Lexeme.read c text).raw, ?_, ?_⟩
      · rw [sliceToken?, hread]
        rfl
      · rw [List.append_assoc]
        exact hsource
      · rw [Text.byteSize_append, ← hoffset]
        rfl

/-- Every token of a scan is read off its slice. -/
theorem Stands.drain (h : s.Stands source) :
    ∀ token ∈ s.drain.1, sliceToken? source token.kind token.span = some token := by
  induction s using drain_induction with
  | hend s hfinished =>
      rw [drain_of_finished hfinished]
      exact nofun
  | hopen s hopen ih =>
      obtain ⟨htoken, hafter⟩ := h.nextToken
      rw [drain_of_open hopen]
      exact List.forall_mem_cons.mpr ⟨htoken, ih hafter⟩

end Scanner

/-- The range of every token can be sliced, the token at the end of the
text included, and the token is what stands there. -/
theorem slice_tokenize (source : String) :
    ∀ token ∈ tokenize source, sliceToken? source.toList token.kind token.span = some token :=
  Scanner.Stands.drain (s := .ofString source) ⟨[], rfl, rfl⟩

end QuoteScript
