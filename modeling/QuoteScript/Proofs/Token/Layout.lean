import QuoteScript.Proofs.Token.Tiling

/-!
# `QuoteScript.Proofs.Token.Layout`: blanks between tokens

Where the blanks of a text stand, and how many there are, is its layout.
Blanks may be put in front of a token, behind it and between two blanks,
but not inside of a token: a text in quotes has its own blanks, and a
word with a blank in it is two words.

A lexeme is read up to a character that does not go on with it, and no
blank goes on with anything. Only an illegal token is different. An open
literal takes what is behind it, so blanks there would become part of
it.

* `Layout`: the blanks that are put into a text, by the offset at which
  they are put.
* `Lexeme.read_of_behind`: a lexeme does not depend on what is behind
  it.
* `Layout.tokenize_core`: the kinds and literals of the tokens stay.
-/

set_option autoImplicit false

namespace QuoteScript

open Text (byteSize byteSize_append)

/-- Blanks that are put into a text, by the offset at which they are
put. No token starts in front of them and ends behind them. -/
structure Layout (source : String) where
  blanks : Nat → List Char
  isBlank (offset : Nat) : ∀ c ∈ blanks offset, isBlank c = true
  outside (offset : Nat) : blanks offset ≠ [] → ∀ t ∈ tokenize source,
    ¬ (t.span.start < offset ∧ offset < t.span.stop)

/-- Puts blanks in front of every character of a text and at its end,
where the text starts at an offset. -/
def putBlanks (blanks : Nat → List Char) : Nat → List Char → List Char
  | offset, [] => blanks offset
  | offset, c :: text => blanks offset ++ c :: putBlanks blanks (offset + c.utf8Size) text

/-- The text with its new layout. -/
def Layout.apply {source : String} (layout : Layout source) : String :=
  String.ofList (putBlanks layout.blanks 0 source.toList)

/-- The same blanks at each of some offsets. -/
def Layout.ofOffsets {source : String} (run : List Char) (offsets : List Nat)
    (hrun : ∀ c ∈ run, QuoteScript.isBlank c = true)
    (houtside : ∀ offset ∈ offsets, ∀ t ∈ tokenize source,
      ¬ (t.span.start < offset ∧ offset < t.span.stop)) : Layout source where
  blanks offset := if offset ∈ offsets then run else []
  isBlank offset c hc := by
    split at hc
    · exact hrun c hc
    · cases hc
  outside offset hne := by
    by_cases hmem : offset ∈ offsets
    · exact houtside offset hmem
    · exact absurd (if_neg hmem) hne

/-! ### Lexemes -/

/-- A text starts with a blank, or like another text, or it is empty. -/
def StartsLike (text text' : List Char) : Prop :=
  ∀ d ∈ text'.head?, isBlank d = true ∨ d ∈ text.head?

/-- A class of characters that no blank and not the first character of
a text is in. -/
theorem StartsLike.head {p : Char → Bool} {text text' : List Char} (h : StartsLike text text')
    (hblank : ∀ d, isBlank d = true → p d = false) (htext : ∀ d ∈ text.head?, p d = false) :
    ∀ d ∈ text'.head?, p d = false :=
  fun d hd => (h d hd).elim (hblank d) (htext d)

/-- The first character behind the longest run of a class. -/
theorem head?_dropWhile_eq_false (p : Char → Bool) (text : List Char) :
    ∀ d ∈ (text.dropWhile p).head?, p d = false := by
  intro d hd
  have hhead := List.head?_dropWhile_not p text
  rwa [Option.mem_def.mp hd] at hhead

/-- No blank is in a class that has none of the five blanks. -/
theorem eq_false_of_isBlank {p : Char → Bool}
    (h : [' ', '\t', '\r', '\n', '\x0c'].any p = false) (d : Char) (hd : isBlank d = true) :
    p d = false :=
  Bool.eq_false_of_not_eq_true (List.any_eq_false.mp h d (isBlank_iff.mp hd))

namespace Lexeme

variable {c : Char} {text rest : List Char}

/-- A word is read again in front of another text that starts like what
was behind it. -/
theorem word_of_behind (hc : isWordStart c = true) (hrest : StartsLike (read c text).rest rest) :
    ∃ cs, (read c text).raw = c :: cs ∧
      read c (cs ++ rest) = ⟨(read c text).kind, (read c text).raw, rest⟩ := by
  have hrun : ∀ d ∈ text.takeWhile isWordChar, isWordChar d = true :=
    fun d hd => List.mem_takeWhile_imp hd
  have hread := read_of_word hc hrun (head?_dropWhile_eq_false isWordChar text)
  rw [List.takeWhile_append_dropWhile] at hread
  rw [hread] at hrest ⊢
  have hends : EndsWord rest := hrest.head (eq_false_of_isBlank (by decide))
    (head?_dropWhile_eq_false isWordChar text)
  exact ⟨_, rfl, read_of_word hc hrun hends⟩

/-- Digits are read again in front of another text that starts like what
was behind them. -/
theorem digits_of_behind (hc : c.isDigit = true) (hrest : StartsLike (read c text).rest rest) :
    ∃ cs, (read c text).raw = c :: cs ∧
      read c (cs ++ rest) = ⟨(read c text).kind, (read c text).raw, rest⟩ := by
  have hrun : ∀ d ∈ c :: text.takeWhile Char.isDigit, d.isDigit = true :=
    List.forall_mem_cons.mpr ⟨hc, fun d hd => List.mem_takeWhile_imp hd⟩
  have hread := read_of_digits hrun (head?_dropWhile_eq_false Char.isDigit text)
  rw [List.takeWhile_append_dropWhile] at hread
  rw [hread] at hrest ⊢
  have hends := hrest.head (p := Char.isDigit) (eq_false_of_isBlank (by decide))
    (head?_dropWhile_eq_false Char.isDigit text)
  exact ⟨_, rfl, read_of_digits hrun hends⟩

/-- A literal that is closed. -/
theorem string_of_behind (hkind : (read '"' text).kind ≠ .illegal) :
    ∃ cs, (read '"' text).raw = '"' :: cs ∧
      read '"' (cs ++ rest) = ⟨(read '"' text).kind, (read '"' text).raw, rest⟩ := by
  -- Where a string ends does not depend on what is behind its last quote.
  have hbody := stringBody_mem text
  have hstring : read '"' text = string text := rfl
  rw [hstring] at hkind ⊢
  revert hkind
  unfold string
  split
  · next body behind heq =>
      intro _
      rw [heq] at hbody
      refine ⟨body ++ ['"'], rfl, ?_⟩
      rw [List.append_assoc]
      exact read_of_body (stringBody_of_mem hbody rest)
  · exact fun h => absurd rfl h

/-- Behind `=` and `!` the next character matters. -/
theorem symbol_of_behind (hkind : (symbol c text).kind ≠ .illegal)
    (hread : ∀ text, read c text = symbol c text) (hrest : StartsLike (symbol c text).rest rest) :
    ∃ cs, (symbol c text).raw = c :: cs ∧
      read c (cs ++ rest) = ⟨(symbol c text).kind, (symbol c text).raw, rest⟩ := by
  revert hkind hrest
  unfold symbol
  split
  · exact fun _ _ => ⟨['='], rfl, rfl⟩
  · exact fun _ _ => ⟨['='], rfl, rfl⟩
  · next hequal hbang =>
      intro hkind hrest
      cases hpunctuation : punctuation? c with
      | none => rw [hpunctuation] at hkind; exact absurd rfl hkind
      | some kind =>
          refine ⟨[], rfl, ?_⟩
          rw [List.nil_append, Option.getD_some]
          refine read_of_symbol hpunctuation ?_
          -- Only these two go on, and with nothing but an `=`.
          by_cases hc : c = '=' ∨ c = '!'
          · have htext : ∀ d ∈ text.head?, (d == '=') = false := by
              intro d hd
              obtain ⟨tail, rfl⟩ := List.head?_eq_some_iff.mp hd
              refine beq_false_of_ne ?_
              rintro rfl
              exact hc.elim (hequal tail · rfl) (hbang tail · rfl)
            have hhead := hrest.head (p := (· == '=')) (eq_false_of_isBlank (by decide)) htext
            exact .inr fun d hd => ne_of_beq_false (hhead d hd)
          · exact .inl (not_or.mp hc)

/-- A lexeme that is no illegal token is read off its own characters. It
stays if something else stands behind it that starts with a blank, or in
the same way. -/
theorem read_of_behind (hkind : (read c text).kind ≠ .illegal)
    (hrest : StartsLike (read c text).rest rest) :
    ∃ cs, (read c text).raw = c :: cs ∧
      read c (cs ++ rest) = ⟨(read c text).kind, (read c text).raw, rest⟩ := by
  -- The first character decides how the lexeme is read, in both texts.
  by_cases hstart : isWordStart c = true
  · exact word_of_behind hstart hrest
  · by_cases hdigit : c.isDigit = true
    · exact digits_of_behind hdigit hrest
    · by_cases hquote : c = '"'
      · subst hquote
        exact string_of_behind hkind
      · have hsymbol (text : List Char) : read c text = symbol c text := by
          rw [read, if_neg hstart, if_neg hdigit, if_neg hquote]
        rw [hsymbol] at hkind hrest ⊢
        exact symbol_of_behind hkind hsymbol hrest

end Lexeme

/-! ### Texts -/

section Texts

variable {blanks : Nat → List Char} (hblanks : ∀ offset, ∀ c ∈ blanks offset, isBlank c = true)

/-- Blanks in front of a text mean nothing. -/
theorem lexemes_append_of_blank {front : List Char} (h : ∀ c ∈ front, isBlank c = true)
    (text : List Char) : lexemes (front ++ text) = lexemes text := by
  induction front with
  | nil => rfl
  | cons c front ih =>
      obtain ⟨hc, hfront⟩ := List.forall_mem_cons.mp h
      rw [List.cons_append, lexemes_blank hc, ih hfront]

/-- Nothing is put into a run of characters where no blanks are due. -/
theorem putBlanks_append {run : List Char} (rest : List Char) (offset : Nat)
    (hnone : ∀ n, offset ≤ n → n < offset + byteSize run → blanks n = []) :
    putBlanks blanks offset (run ++ rest)
      = run ++ putBlanks blanks (offset + byteSize run) rest := by
  induction run generalizing offset with
  | nil => rfl
  | cons c run ih =>
      have hsize : byteSize (c :: run) = c.utf8Size + byteSize run := rfl
      have hpos := c.utf8Size_pos
      rw [hsize] at hnone ⊢
      rw [List.cons_append, putBlanks, hnone offset (Nat.le_refl _) (by omega),
        ih _ fun n hle hlt => hnone n (by omega) (by omega), Nat.add_assoc]
      rfl

include hblanks

/-- A text with blanks put into it starts like the text, or with a
blank. -/
theorem startsLike_putBlanks (offset : Nat) (text : List Char) :
    StartsLike text (putBlanks blanks offset text) := by
  intro d hd
  cases text with
  | nil => exact .inl (hblanks offset d (List.mem_of_mem_head? hd))
  | cons c text =>
      rw [putBlanks] at hd
      -- Either there are blanks in front of the first character, or it comes first.
      cases hfront : blanks offset with
      | nil =>
          rw [hfront] at hd
          exact .inr hd
      | cons e front =>
          rw [hfront] at hd
          cases hd
          exact .inl (hblanks offset d (hfront ▸ List.mem_cons_self))

/-- Among blanks there are only blanks afterwards. -/
theorem putBlanks_of_blank (offset : Nat) {text : List Char} (h : ∀ c ∈ text, isBlank c = true) :
    ∀ c ∈ putBlanks blanks offset text, isBlank c = true := by
  induction text generalizing offset with
  | nil => exact hblanks offset
  | cons d text ih =>
      obtain ⟨hd, htext⟩ := List.forall_mem_cons.mp h
      exact List.forall_mem_append.mpr ⟨hblanks offset,
        List.forall_mem_cons.mpr ⟨hd, ih _ htext⟩⟩

/-- Blanks in front of a text stay blanks in front of it. -/
theorem putBlanks_blank_append (offset : Nat) {front : List Char}
    (h : ∀ c ∈ front, isBlank c = true) (text : List Char) :
    ∃ front', (∀ c ∈ front', isBlank c = true) ∧
      putBlanks blanks offset (front ++ text)
        = front' ++ putBlanks blanks (offset + byteSize front) text := by
  induction front generalizing offset with
  | nil => exact ⟨[], nofun, rfl⟩
  | cons c front ih =>
      obtain ⟨hc, hfront⟩ := List.forall_mem_cons.mp h
      obtain ⟨front', hfront', heq⟩ := ih (offset + c.utf8Size) hfront
      -- Each blank in front gets the blanks that are put there before it.
      refine ⟨blanks offset ++ c :: front', List.forall_mem_append.mpr
        ⟨hblanks offset, List.forall_mem_cons.mpr ⟨hc, hfront'⟩⟩, ?_⟩
      rw [List.cons_append, putBlanks, heq, Nat.add_assoc, List.append_assoc]
      rfl

/-- Blanks that are put between the lexemes of a text mean nothing. -/
theorem Tiling.lexemes_putBlanks {offset : Nat} {text : List Char} {ts : List Token}
    (h : Tiling offset text ts) (hlegal : ∀ t ∈ ts, t.kind ≠ .illegal)
    (houtside : ∀ n, blanks n ≠ [] → ∀ t ∈ ts, ¬ (t.span.start < n ∧ n < t.span.stop)) :
    lexemes (putBlanks blanks offset text) = lexemes text := by
  induction h with
  | @last offset text hall =>
      have hput := putBlanks_of_blank hblanks offset hall
      rw [← List.append_nil (putBlanks blanks offset text), lexemes_append_of_blank hput,
        ← List.append_nil text, lexemes_append_of_blank hall]
  | @next offset front c text ts hfront hc hrest ih =>
      obtain ⟨hkind, hlegal⟩ := List.forall_mem_cons.mp hlegal
      have ih := ih hlegal fun n hn t ht => houtside n hn t (List.mem_cons_of_mem _ ht)
      obtain ⟨front', hfront', hput⟩ := putBlanks_blank_append hblanks offset hfront (c :: text)
      obtain ⟨cs, hraw, hread⟩ := Lexeme.read_of_behind hkind
        (startsLike_putBlanks hblanks (offset + byteSize front + (Lexeme.read c text).size) _)
      have hsize : (Lexeme.read c text).size = c.utf8Size + byteSize cs := by
        show byteSize (Lexeme.read c text).raw = _
        rw [hraw]
        rfl
      have hcore (rest : List Char) : Lexeme.core ⟨(Lexeme.read c text).kind,
          (Lexeme.read c text).raw, rest⟩ = (Lexeme.read c text).core := rfl
      -- No blanks are put into the lexeme.
      have hnone (n : Nat) (hle : offset + byteSize front + c.utf8Size ≤ n)
          (hlt : n < offset + byteSize front + c.utf8Size + byteSize cs) : blanks n = [] := by
        by_contra hne
        refine houtside n hne _ List.mem_cons_self ⟨?_, ?_⟩
        · have hpos := c.utf8Size_pos
          show offset + byteSize front < n
          omega
        · show n < offset + byteSize front + (Lexeme.read c text).size
          omega
      have happend := Lexeme.read_append c text
      rw [hraw, List.cons_append] at happend
      obtain ⟨-, htext⟩ := List.cons.inj happend
      rw [hput, lexemes_append_of_blank hfront', putBlanks, lexemes_append_of_blank (hblanks _),
        ← htext, putBlanks_append _ _ hnone, htext, Nat.add_assoc _ c.utf8Size, ← hsize,
        lexemes_read hc, hread, hcore, ih, lexemes_append_of_blank hfront, lexemes_read hc]

end Texts

namespace Layout

variable {source : String}

/-- A new layout changes no kind and no literal. -/
theorem tokenize_core (layout : Layout source)
    (hlegal : ∀ t ∈ tokenize source, t.kind ≠ .illegal) :
    (tokenize layout.apply).map Token.core = (tokenize source).map Token.core := by
  obtain ⟨htiling, -⟩ := Scanner.drain_tiling (s := .ofString source) rfl
  rw [tokenize_map_core, tokenize_map_core, apply, String.toList_ofList]
  exact congrArg (· ++ _)
    (htiling.lexemes_putBlanks layout.isBlank hlegal layout.outside)

end Layout

end QuoteScript
