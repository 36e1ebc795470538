import Mathlib.Data.List.Infix
import QuoteScript.Proofs.Grammar.Derivation

/-!
# `QuoteScript.Proofs.Grammar.Braces`: braces that open and close

Whether a reader can be inside of a block or a dict is told by the braces
in front of it. Lists of tokens are read from their front, but what is
known of a broken one is how it ends. So the braces are counted from each
token on to the end of the list: as many of them close there as open, or
more.

* `openings`, `closings`: how many braces open and close among tokens.
* `Balanced`: every brace is closed.
* `Derives.balanced`: the grammar closes every brace that it opens.
-/

set_option autoImplicit false

namespace QuoteScript

/-! ### Counting braces -/

/-- How many braces open among the tokens. -/
def openings (ts : List Token) : Nat :=
  ts.countP (·.kind = .leftBrace)

/-- How many braces close among the tokens. -/
def closings (ts : List Token) : Nat :=
  ts.countP (·.kind = .rightBrace)

section Braces

variable {t : Token} (ts : List Token)

/-- A token that opens no brace does not count. -/
theorem openings_cons_of_ne (h : t.kind ≠ .leftBrace) : openings (t :: ts) = openings ts := by
  simp [openings, h]

/-- Nor does one that closes none. -/
theorem closings_cons_of_ne (h : t.kind ≠ .rightBrace) : closings (t :: ts) = closings ts := by
  simp [closings, h]

/-- An opening brace counts once. -/
theorem openings_cons_leftBrace (h : t.kind = .leftBrace) :
    openings (t :: ts) = openings ts + 1 := by
  simp [openings, h]

/-- So does a closing one. -/
theorem closings_cons_rightBrace (h : t.kind = .rightBrace) :
    closings (t :: ts) = closings ts + 1 := by
  simp [closings, h]

/-- Opening braces are counted token by token. -/
theorem openings_append (us : List Token) : openings (ts ++ us) = openings ts + openings us :=
  List.countP_append

/-- So are closing ones. -/
theorem closings_append (us : List Token) : closings (ts ++ us) = closings ts + closings us :=
  List.countP_append

/-- More tokens have no fewer opening braces. -/
theorem openings_le_cons (t : Token) : openings ts ≤ openings (t :: ts) := by
  simp [openings, List.countP_cons]

end Braces

/-! ### Balanced braces -/

/-- As many braces open as close, and from each token on at least as many
close as open. -/
structure Balanced (ts : List Token) : Prop where
  suffix : ∀ us, us <:+ ts → openings us ≤ closings us
  eq : openings ts = closings ts

namespace Balanced

variable {t : Token} {ts us : List Token}

/-- No tokens are balanced. -/
theorem nil : Balanced [] where
  suffix us hus := by
    rw [List.suffix_nil.mp hus]
    decide
  eq := rfl

/-- Balanced tokens one after the other are balanced. -/
theorem append (hts : Balanced ts) (hus : Balanced us) : Balanced (ts ++ us) where
  suffix vs hvs := by
    have hbehind : us <:+ ts ++ us := List.suffix_append ts us
    rcases List.suffix_or_suffix_of_suffix hvs hbehind with h | ⟨ws, rfl⟩
    · exact hus.suffix vs h
    · -- The suffix starts among the first tokens.
      have hws : ws <:+ ts := by
        obtain ⟨xs, hxs⟩ := hvs
        rw [← List.append_assoc] at hxs
        exact ⟨xs, List.append_cancel_right hxs⟩
      have hle := hts.suffix ws hws
      rw [openings_append, closings_append, hus.eq]
      omega
  eq := by rw [openings_append, closings_append, hts.eq, hus.eq]

/-- A token that is no brace. -/
theorem cons {kind : TokenKind} (h : Balanced ts) (hkind : t.kind = kind)
    (hopening : kind ≠ .leftBrace) (hclosing : kind ≠ .rightBrace) : Balanced (t :: ts) := by
  have hopenings := openings_cons_of_ne ts (hkind ▸ hopening)
  have hclosings := closings_cons_of_ne ts (hkind ▸ hclosing)
  refine ⟨fun us hus => ?_, by rw [hopenings, hclosings, h.eq]⟩
  -- A suffix is the whole list or lies behind the first token.
  rcases List.suffix_cons_iff.mp hus with rfl | hus
  · rw [hopenings, hclosings, h.eq]
  · exact h.suffix us hus

/-- So is a token that is no brace. -/
theorem singleton {kind : TokenKind} (hkind : t.kind = kind) (hopening : kind ≠ .leftBrace)
    (hclosing : kind ≠ .rightBrace) : Balanced [t] :=
  nil.cons hkind hopening hclosing

/-- What stands between braces. -/
theorem braces {lb rb : Token} (h : Balanced ts) (hlb : lb.kind = .leftBrace)
    (hrb : rb.kind = .rightBrace) : Balanced (lb :: ts ++ [rb]) := by
  have hopenings : openings [rb] = 0 := by simp [openings, hrb]
  have hclosings : closings [rb] = 1 := by simp [closings, hrb]
  have hopening := openings_cons_leftBrace (ts ++ [rb]) hlb
  have hclosing := closings_cons_of_ne (ts ++ [rb]) (t := lb) (by rw [hlb]; decide)
  have heq := h.eq
  have hall : openings (lb :: (ts ++ [rb])) = closings (lb :: (ts ++ [rb])) := by
    rw [openings_append] at hopening
    rw [closings_append] at hclosing
    omega
  -- A suffix is all of the tokens, or one of those inside with the closing brace behind it.
  refine ⟨fun us hus => ?_, hall⟩
  rcases List.suffix_cons_iff.mp hus with rfl | hus
  · exact Nat.le_of_eq hall
  · rcases List.suffix_concat_iff.mp hus with rfl | ⟨vs, rfl, hvs⟩
    · decide
    · have hle := h.suffix vs hvs
      rw [openings_append, closings_append]
      omega

end Balanced

/-- The braces of what the grammar derives are balanced. -/
theorem Derives.balanced {ended : Bool} {phrase : Phrase} {ts : List Token}
    (h : Derives ended phrase ts) : Balanced ts := by
  induction h with
  -- Braces are written by dicts and by blocks only, and each of these closes its own.
  | tighter _ ih | expr _ ih => exact ih
  | @binary op _ _ _ _ _ ht _ _ ihl ihr =>
      exact ihl.append (ihr.cons ht (by cases op <;> decide) (by cases op <;> decide))
  | @unary op _ _ _ ht _ ih => exact ih.cons ht (by cases op <;> decide) (by cases op <;> decide)
  | call hlp hrp _ _ ihf ihargs =>
      exact (ihf.append (ihargs.cons hlp (by decide) (by decide))).append
        (.singleton hrp (by decide) (by decide))
  | index hlb hrb _ _ ihe ihi =>
      exact (ihe.append (ihi.cons hlb (by decide) (by decide))).append
        (.singleton hrb (by decide) (by decide))
  | ident ht | int ht _ | str ht | trueWord ht | falseWord ht =>
      exact .singleton ht (by decide) (by decide)
  | group hlp hrp _ ih | array hlp hrp _ ih =>
      exact (ih.cons hlp (by decide) (by decide)).append (.singleton hrp (by decide) (by decide))
  | dict hlb hrb _ ih | block hlb hrb _ ih => exact ih.braces hlb hrb
  | cond ht _ _ _ ihc ihb iha => exact ((ihc.cons ht (by decide) (by decide)).append ihb).append iha
  | @lambda _ _ _ kind _ _ _ _ ht hlp hrp _ _ ihns ihb =>
      exact ((ihns.cons hlp (by decide) (by decide)).cons ht (by cases kind <;> decide)
        (by cases kind <;> decide)).append (ihb.cons hrp (by decide) (by decide))
  | noItems | noMoreItems | noPairs | noParams | noMoreParams | noBranch | noStmts => exact .nil
  | items _ _ ih ihrest => exact ih.append ihrest
  | moreItems hcomma _ _ ih ihrest => exact (ih.cons hcomma (by decide) (by decide)).append ihrest
  | lastPair hcolon _ _ ihk ihv => exact ihk.append (ihv.cons hcolon (by decide) (by decide))
  | pairs hcolon hcomma _ _ _ ihk ihv ihrest =>
      exact (ihk.append (ihv.cons hcolon (by decide) (by decide))).append
        (ihrest.cons hcomma (by decide) (by decide))
  | params ht _ ih => exact ih.cons ht (by decide) (by decide)
  | moreParams hcomma ht _ ih =>
      exact (ih.cons ht (by decide) (by decide)).cons hcomma (by decide) (by decide)
  | branch ht _ ih => exact ih.cons ht (by decide) (by decide)
  | letIn ht hname hassign _ ih =>
      exact ((ih.cons hassign (by decide) (by decide)).cons hname (by decide) (by decide)).cons ht
        (by decide) (by decide)
  | ret ht _ ih => exact ih.cons ht (by decide) (by decide)
  | semicolon hsemi _ _ ih ihrest => exact ih.append (ihrest.cons hsemi (by decide) (by decide))
  | noSemicolon _ _ _ ih ihrest => exact ih.append ihrest

end QuoteScript
