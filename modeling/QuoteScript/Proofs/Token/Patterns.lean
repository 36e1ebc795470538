import QuoteScript.Proofs.Token.Lexemes
import Mathlib.Computability.Language
import Mathlib.Data.List.TakeWhile

/-!
# `QuoteScript.Proofs.Token.Patterns`: the patterns of the tokens

What a token may be written like is a regular language, one for each
kind, and what separates tokens is one more. A scanner that is given
these languages has to take the longest text that any of them matches.
`Lexeme.read` takes it in one pass and looks at no pattern, so the two
have to be compared.

* `TokenKind.pattern`: the texts that make a token of a kind.
* `Pattern.Matches`: the texts that any pattern matches.
* `Lexeme.raw_read_mem_pattern`: a lexeme that is no illegal token is
  matched by the pattern of its kind.
* `Lexeme.covers_of_matches`: whatever is matched where a lexeme starts,
  the lexeme is no illegal token and goes at least as far.
* `Lexeme.kind_read_eq_iff`: a lexeme is a keyword if and only if it is
  written like it.
-/

set_option autoImplicit false

namespace QuoteScript

open Computability

/-! ### Languages -/

namespace Pattern

/-- One character of a class. -/
def oneOf (p : Char → Prop) : Language Char :=
  {text | ∃ c, p c ∧ text = [c]}

/-- A text as it stands. -/
def exactly (text : String) : Language Char :=
  {text.toList}

/-- An ASCII letter or an underscore. -/
def Letter (c : Char) : Prop :=
  ('a' ≤ c ∧ c ≤ 'z') ∨ ('A' ≤ c ∧ c ≤ 'Z') ∨ c = '_'

/-- An ASCII digit. -/
def Digit (c : Char) : Prop :=
  '0' ≤ c ∧ c ≤ '9'

/-- Space, tab, carriage return, line feed and form feed. -/
def Blank (c : Char) : Prop :=
  c ∈ [' ', '\t', '\r', '\n', '\x0c']

/-- `[ \t\r\n\f]+` -/
def blanks : Language Char :=
  oneOf Blank * (oneOf Blank)∗

/-- `[a-zA-Z_][a-zA-Z0-9_]*` -/
def word : Language Char :=
  oneOf Letter * (oneOf fun c => Letter c ∨ Digit c)∗

/-- `[0-9]+` -/
def digits : Language Char :=
  oneOf Digit * (oneOf Digit)∗

/-- `[^"\\]|\\.`, where the point is any character but a line feed. -/
def bodyItem : Language Char :=
  oneOf (fun c => c ≠ '"' ∧ c ≠ '\\') + exactly "\\" * oneOf (· ≠ '\n')

/-- `"([^"\\]|\\.)*"` -/
def string : Language Char :=
  exactly "\"" * bodyItem∗ * exactly "\""

end Pattern

/-- The texts that make a token of a kind. Nothing makes an illegal
token or the end of the text. -/
def TokenKind.pattern : TokenKind → Language Char
  | illegal | eof => 0
  | ident => Pattern.word
  | int => Pattern.digits
  | string => Pattern.string
  | kind => Pattern.exactly kind.text

/-- What any pattern matches, the one for what separates tokens
included. -/
def Pattern.Matches (text : List Char) : Prop :=
  text ∈ Pattern.blanks ∨ ∃ kind : TokenKind, text ∈ kind.pattern

/-! ### Membership -/

namespace Pattern

/-- Only the text itself matches a fixed text. -/
theorem mem_exactly {text : List Char} {s : String} : text ∈ exactly s ↔ text = s.toList :=
  Iff.rfl

/-- A run of characters of a class. -/
theorem mem_kstar_oneOf {p : Char → Prop} {text : List Char} :
    text ∈ (oneOf p)∗ ↔ ∀ c ∈ text, p c := by
  rw [Language.mem_kstar]
  constructor
  · rintro ⟨pieces, rfl, hpieces⟩ c hc
    obtain ⟨piece, hpiece, hc⟩ := List.mem_flatten.mp hc
    obtain ⟨d, hd, rfl⟩ := hpieces piece hpiece
    rw [List.mem_singleton.mp hc]
    exact hd
  · intro hall
    -- The text is cut into its characters.
    refine ⟨text.map ([·]), ?_, fun piece hpiece => ?_⟩
    · rw [← List.flatMap_def, List.flatMap_singleton']
    · obtain ⟨c, hc, rfl⟩ := List.mem_map.mp hpiece
      exact ⟨c, hall c hc, rfl⟩

/-- A character of one class, and a run of characters of another. -/
theorem mem_oneOf_mul_kstar {p q : Char → Prop} {text : List Char} :
    text ∈ oneOf p * (oneOf q)∗ ↔ ∃ c cs, text = c :: cs ∧ p c ∧ ∀ d ∈ cs, q d := by
  rw [Language.mem_mul]
  constructor
  · rintro ⟨_, ⟨c, hc, rfl⟩, cs, hcs, rfl⟩
    exact ⟨c, cs, rfl, hc, mem_kstar_oneOf.mp hcs⟩
  · rintro ⟨c, cs, rfl, hc, hcs⟩
    exact ⟨[c], ⟨c, hc, rfl⟩, cs, mem_kstar_oneOf.mpr hcs, rfl⟩

/-- A string literal is a body between quotes. -/
theorem mem_string {text : List Char} :
    text ∈ string ↔ ∃ body ∈ bodyItem∗, text = '"' :: body ++ ['"'] := by
  unfold string
  rw [Language.mem_mul]
  constructor
  · rintro ⟨_, hopen, _, hclose, rfl⟩
    obtain ⟨_, hquote, body, hbody, rfl⟩ := Language.mem_mul.mp hopen
    rw [mem_exactly.mp hquote, mem_exactly.mp hclose]
    exact ⟨body, hbody, rfl⟩
  · rintro ⟨body, hbody, rfl⟩
    exact ⟨'"' :: body, Language.mem_mul.mpr ⟨_, rfl, body, hbody, rfl⟩, _, rfl, rfl⟩

/-- One more item in front of a body. -/
theorem append_mem_kstar_bodyItem {item body : List Char} (hitem : item ∈ bodyItem)
    (hbody : body ∈ bodyItem∗) : item ++ body ∈ bodyItem∗ := by
  obtain ⟨items, rfl, hitems⟩ := Language.mem_kstar.mp hbody
  exact Language.mem_kstar.mpr
    ⟨item :: items, rfl, List.forall_mem_cons.mpr ⟨hitem, hitems⟩⟩

end Pattern

/-! ### Classes -/

/-- What is skipped between lexemes is what the pattern calls a blank. -/
theorem isBlank_iff {c : Char} : isBlank c = true ↔ Pattern.Blank c := by
  simp [isBlank, Pattern.Blank, or_assoc]

/-- What is read as a digit is what the pattern calls one. -/
theorem isDigit_iff {c : Char} : c.isDigit = true ↔ Pattern.Digit c := by
  simp [Char.isDigit, Pattern.Digit, Char.le_def]

/-- What may start a word is what the pattern calls a letter. -/
theorem isWordStart_iff {c : Char} : isWordStart c = true ↔ Pattern.Letter c := by
  unfold isWordStart Char.isAlpha Char.isUpper Char.isLower Pattern.Letter
  simp only [Char.le_def, Bool.or_eq_true, Bool.and_eq_true, decide_eq_true_eq, beq_iff_eq,
    ge_iff_le]
  tauto

/-- What may go on in a word is what the pattern calls a letter or a
digit. -/
theorem isWordChar_iff {c : Char} :
    isWordChar c = true ↔ Pattern.Letter c ∨ Pattern.Digit c := by
  rw [← isWordStart_iff, ← isDigit_iff]
  simp only [isWordChar, isWordStart, Char.isAlphanum, Bool.or_eq_true]
  tauto

/-! ### String bodies -/

/-- The body of a literal is made of items. -/
theorem stringBody_mem (text : List Char) : (stringBody text).1 ∈ Pattern.bodyItem∗ := by
  fun_induction stringBody text with
  | case1 | case2 | case3 | case5 => exact Language.nil_mem_kstar _
  | case4 c rest hline ih =>
      have hitem : ['\\', c] ∈ Pattern.bodyItem :=
        (Language.mem_add _ _ _).mpr
          (.inr (Language.mem_mul.mpr ⟨_, rfl, [c], ⟨c, hline, rfl⟩, rfl⟩))
      exact Pattern.append_mem_kstar_bodyItem hitem ih
  | case6 c rest hlast hslash hquote ih =>
      have hitem : [c] ∈ Pattern.bodyItem :=
        (Language.mem_add _ _ _).mpr (.inl ⟨c, ⟨hquote, ?_⟩, rfl⟩)
      · exact Pattern.append_mem_kstar_bodyItem hitem ih
      · -- A backslash is read by the cases above, last in a text or not.
        rintro rfl
        cases rest with
        | nil => exact hlast rfl rfl
        | cons d rest => exact hslash d rest rfl rfl

/-- A body that a quote follows ends there. -/
theorem stringBody_of_mem {body : List Char} (h : body ∈ Pattern.bodyItem∗) (rest : List Char) :
    stringBody (body ++ '"' :: rest) = (body, '"' :: rest) := by
  obtain ⟨items, rfl, hitems⟩ := Language.mem_kstar.mp h
  clear h
  induction items with
  | nil => rfl
  | cons item items ih =>
      obtain ⟨hitem, hitems⟩ := List.forall_mem_cons.mp hitems
      have ih := ih hitems
      -- An item is a plain character, or a backslash with what it escapes.
      rcases (Language.mem_add _ _ _).mp hitem with ⟨c, ⟨hquote, hslash⟩, rfl⟩ | hescape
      · rw [List.flatten_cons, List.append_assoc, List.singleton_append, List.singleton_append,
          stringBody, if_neg hquote, ih]
        · exact fun heq => absurd heq hslash
        · exact fun d rest' heq => absurd heq hslash
      · obtain ⟨_, hslash, _, ⟨c, hline, rfl⟩, rfl⟩ := Language.mem_mul.mp hescape
        rw [Pattern.mem_exactly.mp hslash]
        show stringBody ('\\' :: c :: (items.flatten ++ '"' :: rest)) = _
        rw [stringBody, if_neg hline, ih]
        rfl

/-! ### Kinds -/

/-- A word that is no identifier is spelled like its keyword. -/
theorem TokenKind.ofWord_spelling (word : String) :
    ofWord word = ident ∨ ofWord word ∈ keywords ∧ (ofWord word).text = word := by
  unfold ofWord
  cases hfind : keywords.find? fun kind => kind.text == word with
  | none => exact .inl rfl
  | some kind =>
      have htext := List.find?_some hfind
      exact .inr ⟨List.mem_of_find?_eq_some hfind, beq_iff_eq.mp htext⟩

/-- What is spelled like a keyword is that keyword. -/
theorem TokenKind.ofWord_text {kind : TokenKind} (h : kind ∈ keywords) :
    ofWord kind.text = kind := by
  simp only [keywords, List.mem_cons, List.not_mem_nil, or_false] at h
  rcases h with rfl | rfl | rfl | rfl | rfl | rfl | rfl | rfl <;> rfl

/-- The pattern of a keyword is the keyword. -/
theorem TokenKind.pattern_of_keyword {kind : TokenKind} (h : kind ∈ keywords) :
    kind.pattern = Pattern.exactly kind.text := by
  simp only [keywords, List.mem_cons, List.not_mem_nil, or_false] at h
  rcases h with rfl | rfl | rfl | rfl | rfl | rfl | rfl | rfl <;> rfl

/-- The pattern of an operator or a delimiter is its character. -/
theorem TokenKind.pattern_of_punctuation {c : Char} {kind : TokenKind}
    (h : punctuation? c = some kind) : kind.pattern = Pattern.exactly (String.ofList [c]) := by
  unfold punctuation? at h
  split at h <;> cases h <;> rfl

/-- The kinds that have one spelling, of one character. -/
theorem TokenKind.exists_punctuation {kind : TokenKind}
    (h : kind ∉ [illegal, eof, ident, int, string, equalEqual, bangEqual] ++ keywords) :
    ∃ c, punctuation? c = some kind := by
  have hsearch :
      "=+-!*/<>,;:()\x7b\x7d[]".toList.any (fun c => punctuation? c = some kind) = true := by
    revert h
    cases kind <;> decide
  obtain ⟨c, -, hc⟩ := List.any_eq_true.mp hsearch
  exact ⟨c, of_decide_eq_true hc⟩

/-- Every keyword is a word. -/
theorem TokenKind.text_mem_word {kind : TokenKind} (h : kind ∈ keywords) :
    kind.text.toList ∈ Pattern.word := by
  have hword : ∃ c cs, kind.text.toList = c :: cs ∧ isWordStart c = true ∧
      cs.all isWordChar = true := by
    simp only [keywords, List.mem_cons, List.not_mem_nil, or_false] at h
    rcases h with rfl | rfl | rfl | rfl | rfl | rfl | rfl | rfl <;> exact ⟨_, _, rfl, by decide⟩
  obtain ⟨c, cs, htext, hc, hcs⟩ := hword
  exact Pattern.mem_oneOf_mul_kstar.mpr ⟨c, cs, htext, isWordStart_iff.mp hc,
    fun d hd => isWordChar_iff.mp (List.all_eq_true.mp hcs d hd)⟩

/-! ### What a lexeme is made of -/

namespace Lexeme

/-- The word at the front of a text is matched as a word. -/
theorem raw_word_mem {c : Char} (h : isWordStart c = true) (text : List Char) :
    (word (c :: text)).raw ∈ Pattern.word := by
  have hraw : (word (c :: text)).raw = c :: text.takeWhile isWordChar :=
    List.takeWhile_cons_of_pos (isWordChar_of_isWordStart h)
  exact Pattern.mem_oneOf_mul_kstar.mpr ⟨c, _, hraw, isWordStart_iff.mp h,
    fun d hd => isWordChar_iff.mp (List.mem_takeWhile_imp hd)⟩

/-- A word matches the pattern of its kind: that of names, or its own
text if it is a keyword. -/
theorem raw_word_mem_pattern {c : Char} (h : isWordStart c = true) (text : List Char) :
    (word (c :: text)).raw ∈ (word (c :: text)).kind.pattern := by
  have hkind : (word (c :: text)).kind
      = TokenKind.ofWord (String.ofList (word (c :: text)).raw) := rfl
  rcases TokenKind.ofWord_spelling (String.ofList (word (c :: text)).raw) with hname | ⟨hkey, htext⟩
  · rw [hkind, hname]
    exact raw_word_mem h text
  · rw [hkind, TokenKind.pattern_of_keyword hkey, htext, Pattern.mem_exactly, String.toList_ofList]

/-- A run of digits matches the pattern of integers. -/
theorem raw_digits_mem_pattern {c : Char} (h : c.isDigit = true) (text : List Char) :
    (digits (c :: text)).raw ∈ (digits (c :: text)).kind.pattern := by
  have hraw : (digits (c :: text)).raw = c :: text.takeWhile Char.isDigit :=
    List.takeWhile_cons_of_pos h
  exact Pattern.mem_oneOf_mul_kstar.mpr ⟨c, _, hraw, isDigit_iff.mp h,
    fun d hd => isDigit_iff.mp (List.mem_takeWhile_imp hd)⟩

/-- A string that is closed matches the pattern of strings. -/
theorem raw_string_mem_pattern {text : List Char} (h : (string text).kind ≠ .illegal) :
    (string text).raw ∈ (string text).kind.pattern := by
  have hbody := stringBody_mem text
  revert h
  unfold string
  split
  · next body rest heq =>
      rw [heq] at hbody
      exact fun _ => Pattern.mem_string.mpr ⟨body, hbody, rfl⟩
  · exact fun h => absurd rfl h

/-- A symbol that is one matches the pattern of its kind. -/
theorem raw_symbol_mem_pattern {c : Char} {text : List Char}
    (h : (symbol c text).kind ≠ .illegal) :
    (symbol c text).raw ∈ (symbol c text).kind.pattern := by
  revert h
  unfold symbol
  split
  · exact fun _ => Pattern.mem_exactly.mpr (show ['=', '='] = "==".toList by decide)
  · exact fun _ => Pattern.mem_exactly.mpr (show ['!', '='] = "!=".toList by decide)
  -- A single character, if it is one of the punctuation at all.
  · cases hkind : punctuation? c with
    | none => exact fun h => absurd rfl h
    | some kind =>
        intro _
        show [c] ∈ kind.pattern
        rw [TokenKind.pattern_of_punctuation hkind, Pattern.mem_exactly, String.toList_ofList]

/-- A lexeme that is no illegal token is matched by the pattern of its
kind. -/
theorem raw_read_mem_pattern {c : Char} {text : List Char} (h : (read c text).kind ≠ .illegal) :
    (read c text).raw ∈ (read c text).kind.pattern := by
  -- The hypothesis is needed for strings and symbols only.
  unfold read at h ⊢
  split
  · next hstart => exact raw_word_mem_pattern hstart text
  · next hstart =>
      rw [if_neg hstart] at h
      split
      · next hdigit => exact raw_digits_mem_pattern hdigit text
      · next hdigit =>
          rw [if_neg hdigit] at h
          split
          · next hquote => exact raw_string_mem_pattern (by rwa [if_pos hquote] at h)
          · next hquote => exact raw_symbol_mem_pattern (by rwa [if_neg hquote] at h)

/-! ### How far a lexeme goes -/

/-- The lexeme is no illegal token and goes at least as far as `run`. -/
def Covers (lexeme : Lexeme) (run : List Char) : Prop :=
  lexeme.kind ≠ .illegal ∧ run <+: lexeme.raw

/-- A run of characters of a class in front of a text is part of the
longest one. -/
theorem prefix_takeWhile {p : Char → Bool} {run text : List Char} (hrun : ∀ c ∈ run, p c = true)
    (h : run <+: text) : run <+: text.takeWhile p := by
  obtain ⟨rest, rfl⟩ := h
  rw [List.takeWhile_append_of_pos hrun]
  exact List.prefix_append _ _

variable {c : Char} {text run : List Char}

/-- What matches the pattern of names is no longer than the word that is
read. -/
theorem covers_word (h : run ∈ Pattern.word) (hrun : run <+: c :: text) :
    (read c text).Covers run := by
  obtain ⟨d, ds, rfl, hd, hds⟩ := Pattern.mem_oneOf_mul_kstar.mp h
  obtain ⟨rfl, -⟩ := List.cons_prefix_cons.mp hrun
  have hstart := isWordStart_iff.mpr hd
  rw [read, if_pos hstart]
  refine ⟨TokenKind.ofWord_ne (by decide) _, prefix_takeWhile ?_ hrun⟩
  exact List.forall_mem_cons.mpr
    ⟨isWordChar_of_isWordStart hstart, fun e he => isWordChar_iff.mpr (hds e he)⟩

/-- What matches the pattern of integers is no longer than the digits
that are read. -/
theorem covers_digits (h : run ∈ Pattern.digits) (hrun : run <+: c :: text) :
    (read c text).Covers run := by
  obtain ⟨d, ds, rfl, hd, hds⟩ := Pattern.mem_oneOf_mul_kstar.mp h
  obtain ⟨rfl, -⟩ := List.cons_prefix_cons.mp hrun
  have hdigit := isDigit_iff.mpr hd
  have hstart := isWordStart_eq_false_of_isDigit hdigit
  rw [read, if_neg (by rw [hstart]; exact Bool.false_ne_true), if_pos hdigit]
  refine ⟨TokenKind.noConfusion, prefix_takeWhile ?_ hrun⟩
  exact List.forall_mem_cons.mpr ⟨hdigit, fun e he => isDigit_iff.mpr (hds e he)⟩

/-- What matches the pattern of strings is the string that is read. -/
theorem covers_string (h : run ∈ Pattern.string) (hrun : run <+: c :: text) :
    (read c text).Covers run := by
  obtain ⟨body, hbody, rfl⟩ := Pattern.mem_string.mp h
  obtain ⟨rfl, rest, htext⟩ := List.cons_prefix_cons.mp hrun
  obtain rfl : body ++ '"' :: rest = text := by
    rw [← htext, List.append_eq, List.append_assoc, List.singleton_append]
  rw [read_of_body (stringBody_of_mem hbody rest)]
  exact ⟨nofun, List.prefix_rfl⟩

/-- A character that is an operator or a delimiter starts no illegal
token. -/
theorem covers_punctuation {kind : TokenKind} (hkind : punctuation? c = some kind) :
    (read c text).Covers [c] := by
  obtain ⟨-, hstart, hdigit, hquote, -, hlegal⟩ := punctuation?_class hkind
  rw [read, hstart, hdigit, if_neg Bool.false_ne_true, if_neg Bool.false_ne_true, if_neg hquote]
  unfold symbol
  split
  · exact ⟨TokenKind.noConfusion, ['='], rfl⟩
  · exact ⟨TokenKind.noConfusion, ['='], rfl⟩
  · rw [hkind]
    exact ⟨hlegal, List.prefix_rfl⟩

/-- The same for the pattern of its kind. -/
theorem covers_character {kind : TokenKind} (hkind : ∃ d, punctuation? d = some kind)
    (h : run ∈ kind.pattern) (hrun : run <+: c :: text) : (read c text).Covers run := by
  obtain ⟨d, hkind⟩ := hkind
  rw [TokenKind.pattern_of_punctuation hkind, Pattern.mem_exactly, String.toList_ofList] at h
  subst h
  obtain ⟨rfl, -⟩ := List.cons_prefix_cons.mp hrun
  exact covers_punctuation hkind

/-- A keyword is no longer than the word that is read. -/
theorem covers_keyword {kind : TokenKind} (hkind : kind ∈ TokenKind.keywords)
    (h : run ∈ kind.pattern) (hrun : run <+: c :: text) : (read c text).Covers run := by
  rw [TokenKind.pattern_of_keyword hkind, Pattern.mem_exactly] at h
  exact covers_word (h ▸ TokenKind.text_mem_word hkind) hrun

/-- `==` and `!=` are read as one token each. -/
theorem covers_pair {d : Char} {kind : TokenKind}
    (hread : ∀ rest, read d ('=' :: rest) = ⟨kind, [d, '='], rest⟩) (hkind : kind ≠ .illegal)
    (h : run ∈ Pattern.exactly (String.ofList [d, '='])) (hrun : run <+: c :: text) :
    (read c text).Covers run := by
  rw [Pattern.mem_exactly, String.toList_ofList] at h
  subst h
  obtain ⟨rfl, htext⟩ := List.cons_prefix_cons.mp hrun
  obtain ⟨rest, rfl⟩ := htext
  rw [List.singleton_append, hread]
  exact ⟨hkind, List.prefix_rfl⟩

/-- Whatever the kind, what matches its pattern is no longer than the
lexeme that is read. -/
theorem covers_pattern {kind : TokenKind} (h : run ∈ kind.pattern) (hrun : run <+: c :: text) :
    (read c text).Covers run := by
  cases kind with
  | illegal | eof => exact absurd h (Language.notMem_zero run)
  | ident => exact covers_word h hrun
  | int => exact covers_digits h hrun
  | string => exact covers_string h hrun
  | equalEqual => exact covers_pair (d := '=') (fun _ => rfl) nofun h hrun
  | bangEqual => exact covers_pair (d := '!') (fun _ => rfl) nofun h hrun
  | fnWord | macroWord | letWord | trueWord | falseWord | ifWord | elseWord | returnWord =>
      exact covers_keyword (by decide) h hrun
  -- All other kinds are written with one character.
  | _ =>
      refine covers_character (TokenKind.exists_punctuation ?_) h hrun
      decide

/-- Whatever any pattern matches where a lexeme starts, the lexeme is no
illegal token and goes at least as far. -/
theorem covers_of_matches (hc : isBlank c = false) (h : Pattern.Matches run)
    (hrun : run <+: c :: text) : (read c text).Covers run := by
  rcases h with hblanks | ⟨kind, hkind⟩
  · -- No lexeme starts with a blank.
    obtain ⟨d, ds, rfl, hd, -⟩ := Pattern.mem_oneOf_mul_kstar.mp hblanks
    obtain ⟨rfl, -⟩ := List.cons_prefix_cons.mp hrun
    rw [isBlank_iff.mpr hd] at hc
    cases hc
  · exact covers_pattern hkind hrun

/-- A lexeme is a keyword if and only if it is written like it. -/
theorem kind_read_eq_iff {kind : TokenKind} (hkind : kind ∈ TokenKind.keywords) :
    (read c text).kind = kind ↔ (read c text).raw = kind.text.toList := by
  constructor
  · rintro rfl
    have hlegal : (read c text).kind ≠ .illegal :=
      fun hillegal => absurd hkind (by rw [hillegal]; decide)
    have hmem := raw_read_mem_pattern hlegal
    rwa [TokenKind.pattern_of_keyword hkind, Pattern.mem_exactly] at hmem
  · intro hraw
    -- What starts like a keyword is read as a word.
    obtain ⟨d, ds, htext, hd, -⟩ := Pattern.mem_oneOf_mul_kstar.mp (TokenKind.text_mem_word hkind)
    have happend := read_append c text
    rw [hraw, htext, List.cons_append] at happend
    obtain ⟨rfl, -⟩ := List.cons.inj happend
    have hword : (read d text).kind = TokenKind.ofWord (String.ofList (read d text).raw) := by
      rw [read, if_pos (isWordStart_iff.mpr hd)]
      rfl
    rw [hword, hraw, String.ofList_toList]
    exact TokenKind.ofWord_text hkind

end Lexeme

end QuoteScript
