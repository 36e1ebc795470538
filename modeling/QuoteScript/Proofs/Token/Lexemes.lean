import QuoteScript.Token.Scan

/-!
# `QuoteScript.Proofs.Token.Lexemes`: scanning without offsets

What a token is, its kind and its literal, does not depend on where it
stands. `lexemes` are the kinds and literals of a text, computed from
the characters alone.

* `tokenize_map_core`: the scanner yields the lexemes of a text, and
  the end of the text behind them.
* `lexemes_word`, `lexemes_digits`, `lexemes_quoted`, `lexemes_symbol`:
  what a text starts with, when its first characters are known.
* `isName_iff`: which texts are names.
* `kind_of_name_mem_tokenize`: which tokens read like names.
-/

set_option autoImplicit false

namespace QuoteScript

/-- What a token is, wherever it stands. -/
abbrev Core : Type :=
  TokenKind × String

/-- The kind and the literal of a token. -/
def Token.core (t : Token) : Core :=
  (t.kind, t.literal)

/-- The kind and the literal of the token that a lexeme makes. -/
def Lexeme.core (lexeme : Lexeme) : Core :=
  (lexeme.kind, lexeme.literal)

/-- Only the literal of a string differs from the text of its lexeme. -/
theorem Lexeme.core_of_ne_string {lexeme : Lexeme} (h : lexeme.kind ≠ .string) :
    lexeme.core = (lexeme.kind, String.ofList lexeme.raw) := by
  unfold core literal
  split
  · next hkind => exact absurd hkind h
  · rfl

/-- The token that a lexeme makes at an offset. -/
def Lexeme.token (lexeme : Lexeme) (offset : Nat) : Token :=
  ⟨lexeme.kind, lexeme.literal, ⟨offset, offset + lexeme.size⟩⟩

/-- The tokens of a text without their places, the end of the text left
out. -/
def lexemes : List Char → List Core
  | [] => []
  | c :: text =>
    if isBlank c then lexemes text
    else (Lexeme.read c text).core :: lexemes (Lexeme.read c text).rest
termination_by text => text.length
decreasing_by
  · exact Nat.lt_succ_self _
  · exact Lexeme.rest_read_length_lt c text

/-! ### The scanner -/

/-- There is no lexeme in the empty text. -/
@[simp]
theorem lexemes_nil : lexemes [] = [] := by
  rw [lexemes]

/-- A blank in front is skipped. -/
theorem lexemes_blank {c : Char} (h : isBlank c = true) (text : List Char) :
    lexemes (c :: text) = lexemes text := by
  rw [lexemes, if_pos h]

/-- A text that starts with no blank starts with a lexeme, and the rest
is read behind it. -/
theorem lexemes_read {c : Char} (h : isBlank c = false) (text : List Char) :
    lexemes (c :: text) = (Lexeme.read c text).core :: lexemes (Lexeme.read c text).rest := by
  rw [lexemes, if_neg (by rw [h]; exact Bool.false_ne_true)]

/-- Blanks in front of a text mean nothing. -/
theorem lexemes_dropWhile (text : List Char) :
    lexemes (text.dropWhile isBlank) = lexemes text := by
  induction text with
  | nil => rfl
  | cons c text ih =>
      cases hblank : isBlank c with
      | true => rw [List.dropWhile_cons_of_pos hblank, ih, lexemes_blank hblank]
      | false => rw [List.dropWhile_cons_of_neg (by rw [hblank]; exact Bool.false_ne_true)]

/-- No character makes an end-of-text token. -/
theorem punctuation?_ne_eof {c : Char} {kind : TokenKind} (h : punctuation? c = some kind) :
    kind ≠ .eof := by
  unfold punctuation? at h
  split at h <;> cases h <;> decide

/-- A word is an identifier or a keyword. -/
theorem TokenKind.ofWord_mem (word : String) : ofWord word ∈ ident :: keywords := by
  unfold ofWord
  cases hfind : keywords.find? fun kind => kind.text == word with
  | none => exact List.mem_cons_self
  | some kind => exact List.mem_cons_of_mem _ (List.mem_of_find?_eq_some hfind)

/-- No word is of any other kind. -/
theorem TokenKind.ofWord_ne {kind : TokenKind} (h : kind ∉ ident :: keywords) (word : String) :
    ofWord word ≠ kind := by
  rintro rfl
  exact h (ofWord_mem word)

/-- No lexeme is the end of the text. -/
theorem Lexeme.kind_read_ne_eof (c : Char) (text : List Char) : (read c text).kind ≠ .eof := by
  -- One case for each way to read: a word, digits, a string, and a symbol.
  unfold read
  split
  · exact TokenKind.ofWord_ne (by decide) _
  · split
    · exact nofun
    · split
      · unfold string
        split <;> exact nofun
      · unfold symbol
        split
        · exact nofun
        · exact nofun
        · cases hkind : punctuation? c with
          | none => exact nofun
          | some kind => exact punctuation?_ne_eof hkind

namespace Scanner

/-- A scan that is at its end yields nothing and stays where it is. -/
theorem drain_eq_of_finished {s : Scanner} (h : s.finished = true) : s.drain = ([], s) := by
  unfold drain
  split
  · rfl
  · next hnext =>
      rw [next?, if_pos h] at hnext
      cases hnext

/-- A scanner that is finished gives no more tokens. -/
theorem drain_of_finished {s : Scanner} (h : s.finished = true) : s.drain.1 = [] :=
  congrArg Prod.fst (drain_eq_of_finished h)

/-- The scan behind the next token. -/
def following (s : Scanner) : Scanner :=
  { s.nextToken.2 with finished := s.nextToken.1.kind == .eof }

/-- A scan that goes on yields its next token and goes on behind it. -/
theorem drain_eq_of_open {s : Scanner} (h : s.finished = false) :
    s.drain = (s.nextToken.1 :: s.following.drain.1, s.following.drain.2) := by
  conv => lhs; unfold drain
  split
  · next hnext =>
      rw [next?, h] at hnext
      cases hnext
  · next hnext =>
      rw [next?, h] at hnext
      cases hnext
      rfl

/-- The first token of a scan that goes on, and those behind it. -/
theorem drain_of_open {s : Scanner} (h : s.finished = false) :
    s.drain.1 = s.nextToken.1 :: s.following.drain.1 :=
  congrArg Prod.fst (drain_eq_of_open h)

/-- What is true of a scan at its end, and of every scan that goes on
if it is true behind its next token, is true of every scan. -/
theorem drain_induction {motive : Scanner → Prop} (hend : ∀ s, s.finished = true → motive s)
    (hopen : ∀ s, s.finished = false → motive s.following → motive s) (s : Scanner) : motive s := by
  -- Induction on the number of tokens that are left at most.
  induction hn : s.remaining using Nat.strongRecOn generalizing s with
  | ind n ih =>
      subst hn
      cases hfinished : s.finished with
      | true => exact hend s hfinished
      | false =>
          have hnext : s.next? = some (s.nextToken.1, s.following) := by
            rw [next?, hfinished]
            rfl
          exact hopen s hfinished (ih _ (remaining_lt_of_next? hnext) _ rfl)

/-- At the end of the text the scan yields it, and is at its end. -/
theorem following_of_nil {s : Scanner} (h : s.skipBlanks.rest = []) :
    s.nextToken.1 = Token.eof s.skipBlanks.offset ∧
      s.following = ⟨[], s.skipBlanks.offset, true⟩ := by
  have hnext : s.nextToken = (Token.eof s.skipBlanks.offset, s.skipBlanks) := by
    unfold nextToken
    dsimp only
    rw [h]
  refine ⟨congrArg Prod.fst hnext, ?_⟩
  rw [following, hnext, h]
  rfl

/-- Elsewhere the scan yields the lexeme behind the blanks, and goes on
behind it. -/
theorem following_of_cons {s : Scanner} {c : Char} {text : List Char}
    (h : s.skipBlanks.rest = c :: text) :
    s.nextToken.1 = (Lexeme.read c text).token s.skipBlanks.offset ∧
      s.following = ⟨(Lexeme.read c text).rest,
        s.skipBlanks.offset + (Lexeme.read c text).size, false⟩ := by
  have hnext : s.nextToken = ((Lexeme.read c text).token s.skipBlanks.offset,
      { s.skipBlanks with
        rest := (Lexeme.read c text).rest
        offset := s.skipBlanks.offset + (Lexeme.read c text).size }) := by
    unfold nextToken
    dsimp only
    rw [h]
    rfl
  -- A lexeme is no end of the text, so the scanner goes on.
  have hopen : ((Lexeme.read c text).kind == .eof) = false :=
    beq_false_of_ne (Lexeme.kind_read_ne_eof c text)
  refine ⟨congrArg Prod.fst hnext, ?_⟩
  rw [following, hnext]
  exact congrArg (Scanner.mk _ _) hopen

/-- A scan yields the lexemes of the text that is left, and the end of
the text. -/
theorem drain_map_core {s : Scanner} (h : s.finished = false) :
    s.drain.1.map Token.core = lexemes s.rest ++ [(.eof, "")] := by
  induction s using drain_induction with
  | hend s hfinished => cases h.symm.trans hfinished
  | hopen s hopen ih =>
      rw [drain_of_open h, ← lexemes_dropWhile s.rest]
      change _ = lexemes s.skipBlanks.rest ++ _
      cases hrest : s.skipBlanks.rest with
      | nil =>
          obtain ⟨htoken, hafter⟩ := following_of_nil hrest
          rw [htoken, hafter, drain_of_finished rfl, lexemes_nil]
          rfl
      | cons c text =>
          obtain ⟨htoken, hafter⟩ := following_of_cons hrest
          -- All blanks are skipped, so what comes next is none.
          have hblank : isBlank c = false := by
            have hhead := List.head?_dropWhile_not isBlank s.rest
            change s.rest.dropWhile isBlank = c :: text at hrest
            rwa [hrest] at hhead
          have hrestCore := ih (by rw [hafter])
          rw [List.map_cons, hrestCore, hafter, htoken, lexemes_read hblank]
          rfl

end Scanner

/-- The scanner yields the lexemes of a text, and the end of the text. -/
theorem tokenize_map_core (source : String) :
    (tokenize source).map Token.core = lexemes source.toList ++ [(.eof, "")] :=
  Scanner.drain_map_core (s := Scanner.ofString source) rfl

/-! ### Lexemes of known texts -/

/-- A word in front of the text ends there. -/
def EndsWord (text : List Char) : Prop :=
  ∀ c ∈ text.head?, isWordChar c = false

/-- A word ends where the text does. -/
theorem endsWord_nil : EndsWord [] := nofun

/-- A word ends in front of a character that no word has. -/
theorem endsWord_cons {c : Char} (h : isWordChar c = false) (text : List Char) :
    EndsWord (c :: text) := by
  intro d hd
  cases hd
  exact h

/-- What starts a word goes on with it. -/
theorem isWordChar_of_isWordStart {c : Char} (h : isWordStart c = true) :
    isWordChar c = true := by
  simp only [isWordStart, Bool.or_eq_true] at h
  simp only [isWordChar, Char.isAlphanum, Bool.or_eq_true]
  exact h.elim (fun h => .inl (.inl h)) .inr

/-- A word may have digits behind its first character. -/
theorem isWordChar_of_isDigit {c : Char} (h : c.isDigit = true) : isWordChar c = true := by
  simp only [isWordChar, Char.isAlphanum, Bool.or_eq_true]
  exact .inl (.inr h)

/-- No digit starts a word. -/
theorem isWordStart_eq_false_of_isDigit {c : Char} (h : c.isDigit = true) :
    isWordStart c = false := by
  refine Bool.eq_false_iff.mpr fun hstart => ?_
  simp only [isWordStart, Bool.or_eq_true, beq_iff_eq] at hstart
  rcases hstart with hletter | rfl
  · -- The letters are two ranges of code points, and the digits lie below both.
    change (decide (c.val ≥ 'A'.val ∧ c.val ≤ 'Z'.val)
      || (c.val ≥ 'a'.val && c.val ≤ 'z'.val)) = true at hletter
    simp only [Char.isDigit, ge_iff_le, Bool.or_eq_true, Bool.and_eq_true, decide_eq_true_eq,
      UInt32.le_iff_toNat_le] at h hletter
    have hval : '9'.val.toNat = 57 ∧ 'A'.val.toNat = 65 ∧ 'a'.val.toNat = 97 := by decide
    omega
  · cases h

/-- A character of a word is no blank. -/
theorem isBlank_eq_false_of_isWordChar {c : Char} (h : isWordChar c = true) :
    isBlank c = false := by
  cases hblank : isBlank c with
  | false => rfl
  | true =>
      simp only [isBlank, Bool.or_eq_true, beq_iff_eq] at hblank
      rcases hblank with (((rfl | rfl) | rfl) | rfl) | rfl <;> revert h <;> decide

/-- The longest run of characters of a class is taken off a text. -/
theorem span_append {p : Char → Bool} {run rest : List Char} (hrun : ∀ c ∈ run, p c = true)
    (hrest : ∀ c ∈ rest.head?, p c = false) :
    (run ++ rest).takeWhile p = run ∧ (run ++ rest).dropWhile p = rest := by
  -- No character of the rest is taken, since its first one is not.
  have hstop : rest.takeWhile p = [] ∧ rest.dropWhile p = rest := by
    cases rest with
    | nil => exact ⟨rfl, rfl⟩
    | cons c rest =>
        have hc : ¬ p c = true := by
          rw [hrest c rfl]
          exact Bool.false_ne_true
        exact ⟨List.takeWhile_cons_of_neg hc, List.dropWhile_cons_of_neg hc⟩
  rw [List.takeWhile_append_of_pos hrun, List.dropWhile_append_of_pos hrun, hstop.1, hstop.2,
    List.append_nil]
  exact ⟨rfl, rfl⟩

/-- A word is read up to a character that does not go on with it. -/
theorem Lexeme.read_of_word {c : Char} {cs rest : List Char} (hc : isWordStart c = true)
    (hcs : ∀ d ∈ cs, isWordChar d = true) (hrest : EndsWord rest) :
    read c (cs ++ rest)
      = ⟨TokenKind.ofWord (String.ofList (c :: cs)), c :: cs, rest⟩ := by
  obtain ⟨hraw, hbehind⟩ := span_append (p := isWordChar)
    (List.forall_mem_cons.mpr ⟨isWordChar_of_isWordStart hc, hcs⟩) hrest
  rw [read, if_pos hc, word, ← List.cons_append, hraw, hbehind]

/-- A word in front of a text. -/
theorem lexemes_word {c : Char} {cs rest : List Char} (hc : isWordStart c = true)
    (hcs : ∀ d ∈ cs, isWordChar d = true) (hrest : EndsWord rest) :
    lexemes (c :: cs ++ rest)
      = (TokenKind.ofWord (String.ofList (c :: cs)), String.ofList (c :: cs)) :: lexemes rest := by
  have hchar := isWordChar_of_isWordStart hc
  rw [List.cons_append, lexemes_read (isBlank_eq_false_of_isWordChar hchar),
    Lexeme.read_of_word hc hcs hrest]
  rw [Lexeme.core_of_ne_string (TokenKind.ofWord_ne (by decide) _)]

/-- A keyword in front of a text. -/
theorem lexemes_keyword (kind : TokenKind) (hkind : kind ∈ TokenKind.keywords)
    {rest : List Char} (hrest : EndsWord rest) :
    lexemes (kind.text.toList ++ rest) = (kind, kind.text) :: lexemes rest := by
  -- There are eight keywords, and each of them is a word.
  have hword : ∃ c cs, kind.text = String.ofList (c :: cs) ∧ isWordStart c = true ∧
      cs.all isWordChar = true ∧ TokenKind.ofWord kind.text = kind := by
    simp only [TokenKind.keywords, List.mem_cons, List.not_mem_nil, or_false] at hkind
    rcases hkind with rfl | rfl | rfl | rfl | rfl | rfl | rfl | rfl <;>
      exact ⟨_, _, rfl, by decide⟩
  obtain ⟨c, cs, htext, hc, hcs, hof⟩ := hword
  have hlex := lexemes_word hc (List.all_eq_true.mp hcs) hrest
  rw [← htext, hof] at hlex
  rw [← hlex, htext, String.toList_ofList]

/-- Digits are read up to a character that is none. -/
theorem Lexeme.read_of_digits {c : Char} {cs rest : List Char}
    (hdigits : ∀ d ∈ c :: cs, d.isDigit = true) (hrest : ∀ d ∈ rest.head?, d.isDigit = false) :
    read c (cs ++ rest) = ⟨.int, c :: cs, rest⟩ := by
  have hc := hdigits c List.mem_cons_self
  have hstart := isWordStart_eq_false_of_isDigit hc
  obtain ⟨hraw, hbehind⟩ := span_append hdigits hrest
  rw [read, if_neg (by rw [hstart]; exact Bool.false_ne_true), if_pos hc, digits,
    ← List.cons_append, hraw, hbehind]

/-- A run of digits in front of a text. -/
theorem lexemes_digits {c : Char} {cs rest : List Char} (hdigits : ∀ d ∈ c :: cs, d.isDigit = true)
    (hrest : EndsWord rest) :
    lexemes (c :: cs ++ rest) = (.int, String.ofList (c :: cs)) :: lexemes rest := by
  have hc := hdigits c List.mem_cons_self
  have hstop : ∀ d ∈ rest.head?, d.isDigit = false := by
    intro d hd
    have hd := hrest d hd
    simp only [isWordChar, Char.isAlphanum, Bool.or_eq_false_iff] at hd
    exact hd.1.2
  rw [List.cons_append, lexemes_read (isBlank_eq_false_of_isWordChar (isWordChar_of_isDigit hc)),
    Lexeme.read_of_digits hdigits hstop]
  rfl

/-- The body of a written literal ends at its closing quote. -/
theorem stringBody_escape (text rest : List Char) :
    stringBody (Text.escape text ++ '"' :: rest) = (Text.escape text, '"' :: rest) := by
  induction text with
  | nil => rfl
  | cons c text ih =>
      rw [Text.escape, List.flatMap_cons, List.append_assoc]
      change stringBody (Text.escapeChar c ++ (Text.escape text ++ '"' :: rest))
        = (Text.escapeChar c ++ Text.escape text, '"' :: rest)
      -- What is escaped starts with a backslash, and the reader takes two characters at once.
      unfold Text.escapeChar
      split
      · simp [stringBody, ih]
      · simp [stringBody, ih]
      · simp [stringBody, ih]
      · simp [stringBody, ih]
      · simp [stringBody, ih]
      · next hquote hslash _ _ _ =>
          rw [List.singleton_append, List.singleton_append, stringBody, if_neg hquote, ih]
          · intro heq
            exact absurd heq hslash
          · intro d rest' heq
            exact absurd heq hslash

/-- A literal is read up to the quote that ends its body. -/
theorem Lexeme.read_of_body {body rest : List Char}
    (h : stringBody (body ++ '"' :: rest) = (body, '"' :: rest)) :
    read '"' (body ++ '"' :: rest) = ⟨.string, '"' :: body ++ ['"'], rest⟩ := by
  have hstring : read '"' (body ++ '"' :: rest) = string (body ++ '"' :: rest) := rfl
  rw [hstring, string, h]
  rfl

/-- A written string literal in front of a text. -/
theorem lexemes_quoted (text : String) (rest : List Char) :
    lexemes ((Text.quoted text).toList ++ rest) = (.string, text) :: lexemes rest := by
  have hchars : (Text.quoted text).toList ++ rest
      = '"' :: (Text.escape text.toList ++ '"' :: rest) := by
    simp [Text.quoted]
  rw [hchars, lexemes_read (by decide), Lexeme.read_of_body (stringBody_escape _ _)]
  have hliteral : (⟨.string, '"' :: Text.escape text.toList ++ ['"'], rest⟩ : Lexeme).literal
      = text := by
    simp [Lexeme.literal, Text.unescape_escape]
  rw [Lexeme.core, hliteral]

/-- What the characters that are a token by themselves are not. -/
theorem punctuation?_class {c : Char} {kind : TokenKind} (h : punctuation? c = some kind) :
    isBlank c = false ∧ isWordStart c = false ∧ c.isDigit = false ∧ c ≠ '"' ∧
      kind ≠ .string ∧ kind ≠ .illegal := by
  unfold punctuation? at h
  split at h <;> cases h <;> decide

/-- A character that is a token by itself is read alone, unless it is
`=` or `!` and an `=` stands behind it. -/
theorem Lexeme.read_of_symbol {c : Char} {kind : TokenKind} (hkind : punctuation? c = some kind)
    {rest : List Char} (hrest : (c ≠ '=' ∧ c ≠ '!') ∨ ∀ d ∈ rest.head?, d ≠ '=') :
    read c rest = ⟨kind, [c], rest⟩ := by
  obtain ⟨-, hstart, hdigit, hquote, -⟩ := punctuation?_class hkind
  rw [read, hstart, hdigit, if_neg Bool.false_ne_true, if_neg Bool.false_ne_true,
    if_neg hquote]
  unfold symbol
  split
  -- `==` and `!=` do not stand here.
  · exact hrest.elim (fun h => absurd rfl h.1) fun h => absurd rfl (h '=' rfl)
  · exact hrest.elim (fun h => absurd rfl h.2) fun h => absurd rfl (h '=' rfl)
  · rw [hkind]
    rfl

/-- A character that is a token by itself, in front of a text. Behind
`=` and `!` stands no `=`. -/
theorem lexemes_symbol {c : Char} {kind : TokenKind} (hkind : punctuation? c = some kind)
    {rest : List Char} (hrest : (c ≠ '=' ∧ c ≠ '!') ∨ ∀ d ∈ rest.head?, d ≠ '=') :
    lexemes (c :: rest) = (kind, String.ofList [c]) :: lexemes rest := by
  obtain ⟨hblank, -, -, -, hne, -⟩ := punctuation?_class hkind
  rw [lexemes_read hblank, Lexeme.read_of_symbol hkind hrest, Lexeme.core_of_ne_string hne]

/-! ### Names and numbers -/

/-- The characters of a single-character token make neither a word nor
a number. -/
theorem Lexeme.symbol_kind_ne (c : Char) (text : List Char) :
    (symbol c text).kind ≠ .ident ∧ (symbol c text).kind ≠ .int := by
  unfold symbol
  split
  · exact ⟨nofun, nofun⟩
  · exact ⟨nofun, nofun⟩
  · cases hkind : punctuation? c with
    | none => exact ⟨nofun, nofun⟩
    | some kind =>
        show kind ≠ .ident ∧ kind ≠ .int
        unfold punctuation? at hkind
        split at hkind <;> cases hkind <;> decide

/-- What a quote starts is neither a name nor an integer, closed or not. -/
theorem Lexeme.string_kind_ne (text : List Char) :
    (string text).kind ≠ .ident ∧ (string text).kind ≠ .int := by
  unfold string
  split <;> exact ⟨nofun, nofun⟩

/-- Identifiers are words. -/
theorem Lexeme.read_of_ident {c : Char} {text : List Char} (h : (read c text).kind = .ident) :
    isWordStart c = true ∧ read c text = word (c :: text) := by
  unfold read at h ⊢
  split at h
  · next hstart => exact ⟨hstart, if_pos hstart⟩
  · split at h
    · cases h
    · split at h
      · exact absurd h (string_kind_ne text).1
      · exact absurd h (symbol_kind_ne c text).1

/-- Integers are runs of digits. -/
theorem Lexeme.read_of_int {c : Char} {text : List Char} (h : (read c text).kind = .int) :
    c.isDigit = true ∧ read c text = digits (c :: text) := by
  unfold read at h ⊢
  split at h
  · exact absurd h (TokenKind.ofWord_ne (by decide) _)
  · next hstart =>
      split at h
      · next hdigit => exact ⟨hdigit, by rw [if_neg hstart, if_pos hdigit]⟩
      · split at h
        · exact absurd h (string_kind_ne text).2
        · exact absurd h (symbol_kind_ne c text).2

/-- The identifiers of a text are words that are no keywords. -/
theorem word_of_mem_lexemes {name : String} {text : List Char}
    (h : (.ident, name) ∈ lexemes text) :
    ∃ c cs, name = String.ofList (c :: cs) ∧ isWordStart c = true ∧
      (∀ d ∈ cs, isWordChar d = true) ∧ TokenKind.ofWord name = .ident := by
  fun_induction lexemes text with
  | case1 => cases h
  | case2 c text hblank ih => exact ih h
  | case3 c text hblank ih =>
      rcases List.mem_cons.mp h with hcore | hmem
      · have hkind : (Lexeme.read c text).kind = .ident := congrArg Prod.fst hcore.symm
        obtain ⟨hstart, hread⟩ := Lexeme.read_of_ident hkind
        rw [Lexeme.core_of_ne_string (by rw [hkind]; decide), hread] at hcore
        obtain ⟨hof, rfl⟩ := Prod.mk.inj hcore
        -- The lexeme is the first character and all word characters behind it.
        have hraw : (c :: text).takeWhile isWordChar = c :: text.takeWhile isWordChar :=
          List.takeWhile_cons_of_pos (isWordChar_of_isWordStart hstart)
        refine ⟨c, text.takeWhile isWordChar, congrArg String.ofList hraw, hstart, ?_, hof.symm⟩
        exact List.all_eq_true.mp List.all_takeWhile
      · exact ih hmem

/-- The integers of a text are written with digits only. -/
theorem digits_of_mem_lexemes {literal : String} {text : List Char}
    (h : (.int, literal) ∈ lexemes text) :
    literal.toList ≠ [] ∧ ∀ d ∈ literal.toList, d.isDigit = true := by
  fun_induction lexemes text with
  | case1 => cases h
  | case2 c text hblank ih => exact ih h
  | case3 c text hblank ih =>
      rcases List.mem_cons.mp h with hcore | hmem
      · have hkind : (Lexeme.read c text).kind = .int := congrArg Prod.fst hcore.symm
        obtain ⟨hdigit, hread⟩ := Lexeme.read_of_int hkind
        rw [Lexeme.core_of_ne_string (by rw [hkind]; decide), hread] at hcore
        obtain ⟨-, rfl⟩ := Prod.mk.inj hcore
        rw [String.toList_ofList]
        refine ⟨?_, List.all_eq_true.mp List.all_takeWhile⟩
        -- There is a digit at least: the one that the lexeme starts with.
        show (c :: text).takeWhile Char.isDigit ≠ []
        rw [List.takeWhile_cons_of_pos hdigit]
        exact List.cons_ne_nil _ _
      · exact ih hmem

/-- A text that the scanner reads as one identifier, and nothing
else. -/
def IsName (name : String) : Prop :=
  (tokenize name).map Token.core = [(.ident, name), (.eof, "")]

/-- Names are the words that are no keywords. -/
theorem isName_iff {name : String} :
    IsName name ↔
      ∃ c cs, name = String.ofList (c :: cs) ∧ isWordStart c = true ∧
        (∀ d ∈ cs, isWordChar d = true) ∧ TokenKind.ofWord name = .ident := by
  rw [IsName, tokenize_map_core]
  constructor
  · intro h
    have happend : lexemes name.toList ++ [(.eof, "")] = [(.ident, name)] ++ [(.eof, "")] := h
    -- The name is the only lexeme of its own text.
    have hmem : (.ident, name) ∈ lexemes name.toList := by
      rw [List.append_cancel_right happend]
      exact List.mem_singleton_self _
    exact word_of_mem_lexemes hmem
  · rintro ⟨c, cs, rfl, hc, hcs, hof⟩
    have hlex := lexemes_word hc hcs endsWord_nil
    rw [List.append_nil, hof, lexemes_nil] at hlex
    rw [String.toList_ofList, hlex]
    rfl

/-- Whether a text is a name can be told from its characters. -/
instance (name : String) : Decidable (IsName name) :=
  decidable_of_iff
    ((name.toList.head?.any isWordStart && name.toList.all isWordChar
      && TokenKind.ofWord name == .ident) = true) <| by
    rw [isName_iff, Bool.and_eq_true, Bool.and_eq_true, beq_iff_eq, List.all_eq_true]
    constructor
    · rintro ⟨⟨hhead, hall⟩, hof⟩
      cases hname : name.toList with
      | nil =>
          rw [hname] at hhead
          cases hhead
      | cons c cs =>
          rw [hname] at hhead hall
          refine ⟨c, cs, ?_, hhead, fun d hd => hall d (List.mem_cons_of_mem _ hd), hof⟩
          rw [← hname, String.ofList_toList]
    · rintro ⟨c, cs, rfl, hc, hcs, hof⟩
      rw [String.toList_ofList]
      exact ⟨⟨hc, List.forall_mem_cons.mpr ⟨isWordChar_of_isWordStart hc, hcs⟩⟩, hof⟩

/-- A name in front of a text. -/
theorem lexemes_name {name : String} (h : IsName name) {rest : List Char} (hrest : EndsWord rest) :
    lexemes (name.toList ++ rest) = (.ident, name) :: lexemes rest := by
  obtain ⟨c, cs, rfl, hc, hcs, hof⟩ := isName_iff.mp h
  rw [String.toList_ofList, lexemes_word hc hcs hrest, hof]

/-- A token of a source text is one of its lexemes, or the end of the
text. -/
theorem core_mem_lexemes {source : String} {t : Token} (ht : t ∈ tokenize source)
    (hkind : t.kind ≠ .eof) : t.core ∈ lexemes source.toList := by
  have hmem := List.mem_map_of_mem (f := Token.core) ht
  rw [tokenize_map_core, List.mem_append, List.mem_singleton] at hmem
  refine hmem.resolve_right fun heof => hkind ?_
  exact congrArg Prod.fst heof

/-- The identifiers of a source text are names. -/
theorem isName_of_mem_tokenize {source : String} {t : Token} (ht : t ∈ tokenize source)
    (hkind : t.kind = .ident) : IsName t.literal := by
  have hmem := core_mem_lexemes ht (by rw [hkind]; decide)
  rw [Token.core, hkind] at hmem
  exact isName_iff.mpr (word_of_mem_lexemes hmem)

/-- The integers of a source text are written with digits only. -/
theorem digits_of_mem_tokenize {source : String} {t : Token} (ht : t ∈ tokenize source)
    (hkind : t.kind = .int) : t.literal.toList ≠ [] ∧ ∀ d ∈ t.literal.toList, d.isDigit = true := by
  have hmem := core_mem_lexemes ht (by rw [hkind]; decide)
  rw [Token.core, hkind] at hmem
  exact digits_of_mem_lexemes hmem

/-- What reads like a name is an identifier or a string. -/
theorem kind_of_name_mem_lexemes {kind : TokenKind} {name : String} {text : List Char}
    (h : (kind, name) ∈ lexemes text) (hname : IsName name) : kind = .ident ∨ kind = .string := by
  fun_induction lexemes text with
  | case1 => cases h
  | case2 c text hblank ih => exact ih h
  | case3 c text hblank ih =>
      rcases List.mem_cons.mp h with hcore | hmem
      · by_cases hkind : (Lexeme.read c text).kind = .string
        · exact .inr ((congrArg Prod.fst hcore).trans hkind)
        · rw [Lexeme.core_of_ne_string hkind] at hcore
          obtain ⟨rfl, rfl⟩ := Prod.mk.inj hcore
          obtain ⟨d, ds, hraw, hd, -, hof⟩ := isName_iff.mp hname
          -- The lexeme starts as the name does, so it is a word.
          have happend := Lexeme.read_append c text
          rw [String.ofList_injective hraw] at happend
          obtain ⟨rfl, -⟩ := List.cons.inj happend
          have hword : (Lexeme.read d text).kind
              = TokenKind.ofWord (String.ofList (Lexeme.read d text).raw) := by
            rw [Lexeme.read, if_pos hd]
            rfl
          exact .inl (hword.trans hof)
      · exact ih hmem

/-- The same for the tokens of a source text. -/
theorem kind_of_name_mem_tokenize {source : String} {t : Token} (ht : t ∈ tokenize source)
    (heof : t.kind ≠ .eof) (hname : IsName t.literal) : t.kind = .ident ∨ t.kind = .string := by
  have hmem : (t.kind, t.literal) ∈ lexemes source.toList := core_mem_lexemes ht heof
  exact kind_of_name_mem_lexemes hmem hname

end QuoteScript
