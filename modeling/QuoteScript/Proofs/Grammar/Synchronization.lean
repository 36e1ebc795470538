import Mathlib.Data.List.TakeWhile
import QuoteScript.Proofs.Grammar.Braces
import QuoteScript.Proofs.Grammar.Ending
import QuoteScript.Proofs.Grammar.Locality

/-!
# `QuoteScript.Proofs.Grammar.Synchronization`: semicolons outside of braces

Behind a semicolon that stands outside of all braces, reading starts
anew, whatever stands in front of it. The readers may have been led
anywhere by broken tokens: into a dict, a group or the parameters of a
function. But no reader ever is inside of more braces than the tokens
open, and a reader that is outside of all braces takes no semicolon as a
part of an expression. So the reader that comes to this semicolon is a
reader of statements, at the top level.

The tokens in front are read as they are if nothing stands behind them.
The two readings are aligned up to the semicolon: what a reader sees
there is the same in both.

* `Closes`: tokens that close so many braces, and end with a semicolon.
* `Alignment.inFront`: the alignment up to the semicolon.
* `statements_append`: the loop over statements, of a program or of a
  block.
* `statements_behind`: what is read behind other tokens.
* `parseTokens_append`: whole lists of tokens.
-/

set_option autoImplicit false

namespace QuoteScript

open Reader

/-! ### Up to a semicolon outside of all braces -/

/-- No token is the end of the text, the last one is a semicolon, and
from each token on at least as many braces close as open. From the first
token on, they are `d` more. -/
structure Closes (d : Nat) (ts : List Token) : Prop where
  eof : ∀ t ∈ ts, t.kind ≠ .eof
  last : ∀ t, ts.getLast? = some t → t.kind = .semicolon
  braces : ∀ us, us <:+ ts → openings us ≤ closings us
  depth : d + openings ts ≤ closings ts

namespace Closes

variable {d d' : Nat} {t : Token} {ts us : List Token}

/-- The tokens from some place on, at the depth there. -/
theorem suffix (h : Closes d ts) (hus : us <:+ ts) (hdepth : d' + openings us ≤ closings us) :
    Closes d' us where
  eof t ht := h.eof t (hus.mem ht)
  last t ht := by
    refine h.last t ?_
    obtain ⟨vs, rfl⟩ := hus
    rw [List.getLast?_append, ht]
    rfl
  braces vs hvs := h.braces vs (hvs.trans hus)
  depth := hdepth

/-- Outside of all braces. -/
theorem suffix_zero (h : Closes d ts) (hus : us <:+ ts) : Closes 0 us :=
  h.suffix hus (by rw [Nat.zero_add]; exact h.braces us hus)

/-- The tokens behind the first one. -/
theorem tail (h : Closes d (t :: ts)) (hdepth : d' + openings ts ≤ closings ts) : Closes d' ts :=
  h.suffix (List.suffix_cons t ts) hdepth

/-- The last token is a semicolon, so behind any other token there is
one more. -/
theorem tail_ne_nil (h : Closes d (t :: ts)) (ht : t.kind ≠ .semicolon) : ts ≠ [] := by
  rintro rfl
  exact ht (h.last t rfl)

/-- Inside of a brace there is one more token. -/
theorem ne_nil (h : Closes (d + 1) ts) : ts ≠ [] := by
  rintro rfl
  have hdepth := h.depth
  simp [openings, closings] at hdepth

/-- A program ends with its last token. -/
theorem eq_nil_of_ends (h : Closes d ts) {final : Token}
    (hends : endsStatements false (⟨ts, final⟩ : Cursor).current.kind = true) : ts = [] := by
  cases ts with
  | nil => rfl
  | cons t ts =>
      have heof := h.eof t List.mem_cons_self
      simp [endsStatements, heof] at hends

/-- There is a semicolon among them, the last one. -/
theorem exists_semicolon (h : Closes d ts) (hne : ts ≠ []) : ∃ t ∈ ts, t.kind = .semicolon :=
  ⟨_, List.getLast_mem hne, h.last _ (List.getLast?_eq_some_getLast hne)⟩

end Closes

/-! ### Broken statements -/

/-- What is behind a broken statement is found in front of the tokens
behind, if there is a semicolon. -/
theorem behindBroken_append (inBlock : Bool) {ts : List Token}
    (h : ∃ t ∈ ts, t.kind = .semicolon) (behind : List Token) :
    behindBroken inBlock (ts ++ behind) = behindBroken inBlock ts ++ behind := by
  induction ts with
  | nil => simp at h
  | cons t ts ih =>
      rw [List.cons_append, behindBroken, behindBroken]
      by_cases hkind : t.kind = .semicolon
      -- Recovery stops at a semicolon, and there is one in front of what is appended.
      · rw [if_pos hkind, if_pos hkind]
      · rw [if_neg hkind, if_neg hkind]
        split
        · rfl
        · refine ih ?_
          simpa [hkind] using h

/-- In a block, no brace that closes is skipped. -/
theorem depth_behindBroken {d : Nat} {ts : List Token} (h : d + openings ts ≤ closings ts) :
    d + openings (behindBroken true ts) ≤ closings (behindBroken true ts) := by
  induction ts with
  | nil => exact h
  | cons t ts ih =>
      rw [behindBroken]
      -- Recovery skips opening braces, perhaps, but stops at a closing one.
      have hopenings := openings_le_cons ts t
      by_cases hkind : t.kind = .semicolon
      · have hclosings := closings_cons_of_ne ts (t := t) (by rw [hkind]; decide)
        rw [if_pos hkind]
        omega
      · rw [if_neg hkind]
        by_cases hends : endsStatements true t.kind
        · rw [if_pos hends]
          exact h
        · have hbrace : t.kind ≠ .rightBrace := by
            rintro hbrace
            rw [hbrace] at hends
            exact hends rfl
          have hclosings := closings_cons_of_ne ts hbrace
          rw [if_neg hends]
          exact ih (by omega)

/-! ### Alignments -/

/-- A place looks the same as itself. -/
def Alignment.same : Alignment where
  holds _ c c' := c' = c
  current h := .of_eq (congrArg Cursor.current h)
  loosen h := h
  plain h _ := congrArg Cursor.advance h
  opening h _ := congrArg Cursor.advance h
  closing h _ := congrArg Cursor.advance h
  semicolon h _ := congrArg Cursor.advance h
  recover h := congrArg (Cursor.recovered true) h

/-- What the loop over statements reads does not depend on the steps that
it is given, as long as they are enough. -/
theorem statements_unique {inBlock : Bool} {n n' steps steps' : Nat} {c c₁ c₁' : Cursor}
    {ss ss' : List Stmt} {found found' : List Diagnostic}
    (hrun : statements inBlock (statement (readExpr n)) steps c = .done ss c₁ found)
    (hrun' : statements inBlock (statement (readExpr n')) steps' c = .done ss' c₁' found') :
    ss' = ss ∧ c₁' = c₁ ∧ found' = found := by
  have hrecover (c c' : Cursor) (h : Alignment.same.holds 0 c c') :
      Alignment.same.holds 0 (c.recovered inBlock) (c'.recovered inBlock) :=
    congrArg (Cursor.recovered inBlock) h
  have hsame := statements_aligned (readExpr_aligned .same n n')
    (fun _ _ h _ => congrArg Cursor.advance h) hrecover steps steps' (rfl : c = c)
  rw [hrun, hrun'] at hsame
  cases hsame with
  | done h => exact ⟨rfl, h.1, rfl⟩

/-- The same tokens in front, up to a semicolon outside of all braces.
On one side there are more behind. -/
inductive InFront (behind : List Token) (final final' : Token) (d : Nat) : Cursor → Cursor → Prop
    where
  | mk {ts : List Token} (hne : ts ≠ []) (h : Closes d ts) :
      InFront behind final final' d ⟨ts, final⟩ ⟨ts ++ behind, final'⟩

namespace InFront

variable {behind : List Token} {final final' : Token} {d d' : Nat} {c c' : Cursor}

/-- A token that is no semicolon is followed by another one in front. -/
theorem advance (h : InFront behind final final' d c c') (hkind : c.current.kind ≠ .semicolon)
    (hdepth : ∀ t ts, t.kind = c.current.kind → d + openings (t :: ts) ≤ closings (t :: ts) →
      d' + openings ts ≤ closings ts) :
    InFront behind final final' d' c.advance c'.advance := by
  obtain @⟨ts, hne, h⟩ := h
  cases ts with
  | nil => exact absurd rfl hne
  | cons t ts => exact .mk (h.tail_ne_nil hkind) (h.tail (hdepth t ts rfl h.depth))

/-- The place behind a statement is in front of the tokens behind, or
where they start. -/
theorem behind_statement {A : Alignment} (hA : A.holds = InFront behind final final')
    (h : A.Ended d c c') :
    ∃ ts, Closes 0 ts ∧ c.advance = ⟨ts, final⟩ ∧ c'.advance = ⟨ts ++ behind, final'⟩ := by
  cases h with
  | behind h =>
      have hahead := h.ahead
      rw [hA] at hahead
      generalize c.advance = c₁, c'.advance = c₁' at hahead
      obtain ⟨-, hts⟩ := hahead
      exact ⟨_, hts.suffix_zero List.suffix_rfl, rfl, rfl⟩
  -- Behind the semicolon there may be no tokens left in front of the others.
  | semicolon h hkind =>
      clear hkind
      rw [hA] at h
      obtain @⟨ts, hne, hts⟩ := h
      cases ts with
      | nil => exact absurd rfl hne
      | cons t ts => exact ⟨ts, hts.suffix_zero (List.suffix_cons t ts), rfl, rfl⟩

/-- The same for the place behind a broken statement. -/
theorem behind_broken (inBlock : Bool) (h : InFront behind final final' d c c') :
    ∃ ts, Closes 0 ts ∧ c.recovered inBlock = ⟨ts, final⟩ ∧
      c'.recovered inBlock = ⟨ts ++ behind, final'⟩ := by
  obtain @⟨ts, hne, hts⟩ := h
  refine ⟨_, hts.suffix_zero (behindBroken_suffix inBlock ts), rfl, ?_⟩
  rw [Cursor.recovered, behindBroken_append inBlock (hts.exists_semicolon hne)]

end InFront

/-- Up to a semicolon outside of all braces, readers see the same
whatever is behind it. -/
def Alignment.inFront (behind : List Token) (final final' : Token) : Alignment where
  holds := InFront behind final final'
  current := by
    rintro d _ _ @⟨ts, hne, h⟩
    cases ts with
    | nil => exact absurd rfl hne
    | cons t ts => exact .refl t
  loosen := by
    rintro d _ _ ⟨hne, h⟩
    have hdepth := h.depth
    exact .mk hne (h.suffix List.suffix_rfl (by omega))
  plain h hplain := by
    obtain ⟨-, hsemicolon, hopening, hclosing⟩ := TokenKind.isPlain_iff.mp hplain
    refine h.advance hsemicolon fun t ts ht hdepth => ?_
    rw [openings_cons_of_ne ts (ht ▸ hopening), closings_cons_of_ne ts (ht ▸ hclosing)] at hdepth
    exact hdepth
  opening h hkind := by
    refine h.advance (fun hsemicolon => by rw [hsemicolon] at hkind; cases hkind)
      fun t ts ht hdepth => ?_
    rw [hkind] at ht
    have hclosings := closings_cons_of_ne ts (t := t) (by rw [ht]; decide)
    have hopenings := openings_cons_leftBrace ts ht
    omega
  closing h hkind := by
    refine h.advance (fun hsemicolon => by rw [hsemicolon] at hkind; cases hkind)
      fun t ts ht hdepth => ?_
    rw [hkind] at ht
    have hclosings := closings_cons_rightBrace ts ht
    have hopenings := openings_cons_of_ne ts (t := t) (by rw [ht]; decide)
    omega
  semicolon := by
    rintro d _ _ @⟨ts, hne, h⟩ hkind
    cases ts with
    | nil => exact absurd rfl hne
    | cons t ts =>
        have ht : t.kind = .semicolon := hkind
        have hdepth := h.depth
        rw [openings_cons_of_ne ts (by rw [ht]; decide),
          closings_cons_of_ne ts (by rw [ht]; decide)] at hdepth
        have htail := h.tail hdepth
        exact .mk htail.ne_nil htail
  recover := by
    rintro d _ _ @⟨ts, hne, h⟩
    have hrest : Closes (d + 1) (behindBroken true ts) :=
      h.suffix (behindBroken_suffix true ts) (depth_behindBroken h.depth)
    rw [Cursor.recovered, Cursor.recovered,
      behindBroken_append true (h.exists_semicolon hne) behind]
    exact .mk hrest.ne_nil hrest

/-! ### The loop over statements -/

/-- One turn of the loop over statements, and what the other turns
read. -/
inductive Turn (inBlock : Bool) (stmt : Reader Stmt) (steps : Nat) (c : Cursor) :
    List Stmt → Cursor → List Diagnostic → Prop where
  | statement {s : Stmt} {c₁ c₂ : Cursor} {found found₁ : List Diagnostic} {ss : List Stmt}
      (hstmt : stmt c = .done s c₁ found)
      (hrest : statements inBlock stmt steps c₁.advance = .done ss c₂ found₁) :
      Turn inBlock stmt steps c (s :: ss) c₂ (found ++ found₁)
  | broken {c₁ c₂ : Cursor} {found found₁ : List Diagnostic} {ss : List Stmt}
      (hstmt : stmt c = .failed c₁ found)
      (hrest : statements inBlock stmt steps (c₁.recovered inBlock) = .done ss c₂ found₁) :
      Turn inBlock stmt steps c ss c₂ (found ++ found₁)

section Loop

variable {inBlock : Bool} {stmt : Reader Stmt} {c c' : Cursor} {ss : List Stmt}
  {found : List Diagnostic}

/-- A loop that is done, and has not been at once, has made a turn. -/
theorem Turn.of_statements {steps : Nat}
    (h : statements inBlock stmt (steps + 1) c = .done ss c' found)
    (hends : endsStatements inBlock c.current.kind = false) :
    Turn inBlock stmt steps c ss c' found := by
  rw [statements_run, hends] at h
  simp only [Bool.false_eq_true, if_false] at h
  cases hstmt : stmt c with
  | exhausted => rw [hstmt] at h; cases h
  | done s c₁ found₁ =>
      rw [hstmt] at h
      dsimp only at h
      rw [bind_run] at h
      cases hrest : statements inBlock stmt steps c₁.advance with
      | done rest c₂ found₂ =>
          rw [hrest] at h
          dsimp only [pure_run, after] at h
          cases h
          rw [List.append_nil]
          -- The statement, and then the turns that the loop takes behind it.
          exact .statement hstmt hrest
      | failed c₂ found₂ => rw [hrest] at h; cases h
      | exhausted => rw [hrest] at h; cases h
  | failed c₁ found₁ =>
      rw [hstmt] at h
      dsimp only at h
      cases hrest : statements inBlock stmt steps (c₁.recovered inBlock) with
      | done rest c₂ found₂ =>
          rw [hrest] at h
          cases h
          exact .broken hstmt hrest
      | failed c₂ found₂ => rw [hrest] at h; cases h
      | exhausted => rw [hrest] at h; cases h

/-- The same for a number of steps of which nothing is known. -/
theorem turn_of_statements {steps : Nat} (h : statements inBlock stmt steps c = .done ss c' found)
    (hends : endsStatements inBlock c.current.kind = false) :
    ∃ k, Turn inBlock stmt k c ss c' found := by
  cases steps with
  | zero => cases h
  | succ k => exact ⟨k, .of_statements h hends⟩

/-- A turn, and what the other turns read, make a run of the loop. -/
theorem Turn.statements {steps : Nat} (h : Turn inBlock stmt steps c ss c' found)
    (hends : endsStatements inBlock c.current.kind = false) :
    statements inBlock stmt (steps + 1) c = .done ss c' found := by
  rw [statements_run, hends]
  simp only [Bool.false_eq_true, if_false]
  cases h with
  | statement hs hrest =>
      rw [hs]
      dsimp only
      rw [bind_run, hrest]
      simp [after]
  | broken hs hrest =>
      rw [hs]
      dsimp only
      rw [hrest]
      rfl

/-- The loop recovers whenever a statement fails, so it never fails
itself. -/
theorem statements_ne_failed (steps : Nat) (c c' : Cursor) (found : List Diagnostic) :
    statements inBlock stmt steps c ≠ .failed c' found := by
  induction steps generalizing c c' found with
  | zero => exact nofun
  | succ steps ih =>
      rw [statements_run]
      split
      · exact nofun
      · cases stmt c with
        | exhausted => exact nofun
        | done s c₁ found₁ =>
            dsimp only
            rw [bind_run]
            cases hrest : statements inBlock stmt steps c₁.advance with
            | failed c₂ found₂ => exact absurd hrest (ih _ _ _)
            | _ => exact nofun
        -- A statement that fails is recovered from: the loop itself goes on.
        | failed c₁ found₁ =>
            dsimp only
            cases hrest : statements inBlock stmt steps (c₁.recovered inBlock) with
            | failed c₂ found₂ => exact absurd hrest (ih _ _ _)
            | _ => exact nofun

/-- The loop is done if it is given more steps than there are tokens
ahead. -/
theorem statements_done {n steps : Nat} (hc : c.Closed) (hn : c.ahead.length < n)
    (hsteps : c.ahead.length < steps) :
    ∃ ss c' found, statements inBlock (statement (readExpr n)) steps c = .done ss c' found := by
  have hends := statements_endsFrom (readExpr_endsFrom n) inBlock steps hc hn hsteps
  cases hrun : statements inBlock (statement (readExpr n)) steps c with
  | done ss c' found => exact ⟨ss, c', found, rfl⟩
  | failed c' found => exact absurd hrun (statements_ne_failed _ _ _ _)
  | exhausted =>
      rw [hrun] at hends
      exact hends.elim

/-- A loop that starts where the list of statements ends is done at
once. -/
theorem statements_of_ends {steps : Nat} (hends : endsStatements inBlock c.current.kind = true)
    (h : statements inBlock stmt steps c = .done ss c' found) :
    ss = [] ∧ c' = c ∧ found = [] := by
  cases steps with
  | zero => cases h
  | succ steps =>
      rw [statements_run, if_pos hends] at h
      cases h
      exact ⟨rfl, rfl, rfl⟩

/-- A loop that is done stands where the list of statements ends. -/
theorem ends_of_statements {steps : Nat} (h : statements inBlock stmt steps c = .done ss c' found) :
    endsStatements inBlock c'.current.kind = true := by
  induction steps generalizing c ss found with
  | zero => cases h
  | succ steps ih =>
      cases hends : endsStatements inBlock c.current.kind with
      | true =>
          obtain ⟨-, rfl, -⟩ := statements_of_ends hends h
          exact hends
      | false =>
          cases Turn.of_statements h hends with
          | statement _ hrest | broken _ hrest => exact ih hrest

/-- Where no token is left, every list of statements ends. -/
theorem endsStatements_nil (inBlock : Bool) {final : Token} (hfinal : final.kind = .eof) :
    endsStatements inBlock (⟨[], final⟩ : Cursor).current.kind = true := by
  show endsStatements inBlock final.kind = true
  rw [hfinal]
  rfl

end Loop

/-- The statements in front of a semicolon outside of all braces are
read as if nothing stood behind it. Where their list ends, it is read on
as if nothing stood in front. -/
theorem statements_append {inBlock : Bool} {n n' : Nat} {final final' : Token}
    (hfinal : final.kind = .eof) {behind : List Token} {steps steps' : Nat} {ts : List Token}
    (hts : Closes 0 ts) {ss ss' : List Stmt} {c c' : Cursor} {found found' : List Diagnostic}
    (hrun : statements inBlock (statement (readExpr n)) steps ⟨ts, final⟩ = .done ss c found)
    (hrun' : statements inBlock (statement (readExpr n')) steps' ⟨ts ++ behind, final'⟩
      = .done ss' c' found') :
    ∃ us, Closes 0 us ∧ c = ⟨us, final⟩ ∧ ∃ steps₂ ss₂ found₂,
      statements inBlock (statement (readExpr n')) steps₂ ⟨us ++ behind, final'⟩
        = .done ss₂ c' found₂ ∧
      ss' = ss ++ ss₂ ∧ found' = found ++ found₂ := by
  induction steps generalizing steps' ts ss ss' found found' with
  | zero => cases hrun
  | succ steps ih =>
      cases hends : endsStatements inBlock (⟨ts, final⟩ : Cursor).current.kind with
      | true =>
          -- The list of statements ends at once.
          obtain ⟨rfl, rfl, rfl⟩ := statements_of_ends hends hrun
          exact ⟨ts, hts, rfl, steps', ss', found', hrun', rfl, rfl⟩
      | false =>
          have hne : ts ≠ [] := by
            rintro rfl
            rw [endsStatements_nil inBlock hfinal] at hends
            cases hends
          obtain ⟨t, ts, rfl⟩ := List.exists_cons_of_ne_nil hne
          have hturn := Turn.of_statements hrun hends
          obtain ⟨k', hturn'⟩ := turn_of_statements hrun' hends
          have hstmt := statement_aligned
            (readExpr_aligned (.inFront behind final final') n n')
            (InFront.mk (List.cons_ne_nil t ts) hts) (hts.eof t List.mem_cons_self)
          cases hturn with
          | statement hs hrest =>
              cases hturn' with
              | statement hs' hrest' =>
                  rw [hs, hs'] at hstmt
                  cases hstmt with
                  | done hended =>
                      obtain ⟨ts₁, hts₁, h₁, h₁'⟩ := InFront.behind_statement rfl hended
                      rw [h₁] at hrest
                      rw [h₁'] at hrest'
                      obtain ⟨us, hus, hc, steps₂, ss₂, found₂, hbehind, rfl, rfl⟩ :=
                        ih hts₁ hrest hrest'
                      exact ⟨us, hus, hc, steps₂, ss₂, found₂, hbehind, rfl,
                        (List.append_assoc _ _ _).symm⟩
              | broken hs' _ =>
                  rw [hs, hs'] at hstmt
                  cases hstmt
          | broken hs hrest =>
              cases hturn' with
              | statement hs' _ =>
                  rw [hs, hs'] at hstmt
                  cases hstmt
              | broken hs' hrest' =>
                  rw [hs, hs'] at hstmt
                  cases hstmt with
                  | failed hfailed =>
                      obtain ⟨ts₁, hts₁, h₁, h₁'⟩ := InFront.behind_broken inBlock hfailed
                      rw [h₁] at hrest
                      rw [h₁'] at hrest'
                      obtain ⟨us, hus, hc, steps₂, ss₂, found₂, hbehind, rfl, rfl⟩ :=
                        ih hts₁ hrest hrest'
                      exact ⟨us, hus, hc, steps₂, ss₂, found₂, hbehind, rfl,
                        (List.append_assoc _ _ _).symm⟩

/-! ### Lists of tokens -/

/-- A list of tokens is read to its end. -/
theorem parseTokens_run (tokens : List Token) :
    ∃ c, Reader.program (tokens.length + 1) (Cursor.ofTokens tokens)
      = .done (parseTokens tokens).program c (parseTokens tokens).errors := by
  have hlength : (Cursor.ofTokens tokens).ahead.length < tokens.length + 1 :=
    Nat.lt_succ_of_le (List.takeWhile_sublist _).length_le
  obtain ⟨program, c, errors, hrun⟩ : ∃ program c errors,
      Reader.program (tokens.length + 1) (Cursor.ofTokens tokens) = .done program c errors :=
    statements_done (Cursor.closed_ofTokens tokens) hlength hlength
  unfold parseTokens
  rw [hrun]
  exact ⟨c, rfl⟩

/-- No text ends in front of the first end-of-text token. -/
theorem ofTokens_append {ts : List Token} (hts : ∀ t ∈ ts, t.kind ≠ .eof) (us : List Token) :
    Cursor.ofTokens (ts ++ us)
      = ⟨ts ++ (Cursor.ofTokens us).ahead, Cursor.finalOf (ts ++ us)⟩ := by
  have htake : (ts ++ us).takeWhile (·.kind != .eof) = ts ++ us.takeWhile (·.kind != .eof) :=
    List.takeWhile_append_of_pos fun t ht => bne_iff_ne.mpr (hts t ht)
  rw [Cursor.ofTokens, htake]
  rfl

/-- Tokens without an end-of-text token are all read. -/
theorem ofTokens_eq {tokens : List Token} (h : ∀ t ∈ tokens, t.kind ≠ .eof) :
    Cursor.ofTokens tokens = ⟨tokens, Cursor.finalOf tokens⟩ := by
  have happend := ofTokens_append h []
  have hnone : (Cursor.ofTokens []).ahead = [] := rfl
  rwa [hnone, List.append_nil] at happend

/-- The end of a text is where its last token ends. -/
theorem finalOf_append (ts : List Token) {us : List Token} (hts : ∀ t ∈ ts, t.kind ≠ .eof)
    (hus : us ≠ []) : Cursor.finalOf (ts ++ us) = Cursor.finalOf us := by
  have hnone : ts.find? (·.kind == .eof) = none := by simpa [List.find?_eq_none] using hts
  rw [Cursor.finalOf, Cursor.finalOf, List.find?_append, hnone, Option.none_or,
    List.getLast?_append_of_ne_nil ts hus]

/-- What stands behind other tokens is read as if nothing stood in
front. -/
theorem statements_behind {ts us : List Token} (hts : ∀ t ∈ ts, t.kind ≠ .eof) {n steps : Nat}
    {ss : List Stmt} {c : Cursor} {found : List Diagnostic}
    (hrun : statements false (statement (readExpr n)) steps
      ⟨(Cursor.ofTokens us).ahead, Cursor.finalOf (ts ++ us)⟩ = .done ss c found) :
    ss = (parseTokens us).program ∧ found = (parseTokens us).errors := by
  by_cases hnil : us = []
  · subst hnil
    have hahead : (Cursor.ofTokens []).ahead = [] := rfl
    have hfinal : (Cursor.finalOf (ts ++ [])).kind = .eof := Cursor.closed_ofTokens (ts ++ [])
    rw [hahead] at hrun
    obtain ⟨rfl, -, rfl⟩ := statements_of_ends (endsStatements_nil false hfinal) hrun
    exact ⟨rfl, rfl⟩
  · rw [finalOf_append ts hts hnil] at hrun
    -- The reader has other steps left than one that starts here.
    obtain ⟨c', hrun'⟩ := parseTokens_run us
    obtain ⟨hprogram, -, herrors⟩ := statements_unique hrun' hrun
    exact ⟨hprogram, herrors⟩

/-- If the first statement of a text ends at a semicolon, whatever is
behind it, then what is behind it is read as if nothing stood in
front. -/
theorem parseTokens_statement {ts : List Token} {semi : Token} {s : Stmt}
    {found : List Diagnostic} (hts : ∀ t ∈ ts, t.kind ≠ .eof) (hsemi : semi.kind = .semicolon)
    (hstmt : ∀ n rest final, final.kind = .eof → (ts ++ semi :: rest).length < n →
      statement (readExpr n) ⟨ts ++ semi :: rest, final⟩
        = .done s ⟨semi :: rest, final⟩ found) (rest : List Token) :
    parseTokens (ts ++ semi :: rest)
      = ⟨s :: (parseTokens rest).program, found ++ (parseTokens rest).errors⟩ := by
  have hfront : ∀ t ∈ ts ++ [semi], t.kind ≠ .eof := by
    refine List.forall_mem_append.mpr ⟨hts, fun t ht => ?_⟩
    rw [List.mem_singleton.mp ht, hsemi]
    decide
  have hsplit (us : List Token) : ts ++ semi :: us = ts ++ [semi] ++ us := by simp
  obtain ⟨c, hrun⟩ := parseTokens_run (ts ++ semi :: rest)
  have hclosed := Cursor.closed_ofTokens (ts ++ semi :: rest)
  rw [hsplit rest, ofTokens_append hfront, ← hsplit, ← hsplit] at hrun hclosed
  have hlength : (ts ++ semi :: (Cursor.ofTokens rest).ahead).length
      < (ts ++ semi :: rest).length + 1 := by
    have hle := (List.takeWhile_sublist (l := rest) (·.kind != .eof)).length_le
    simp only [Cursor.ofTokens, List.length_append, List.length_cons]
    omega
  have hends : endsStatements false (Cursor.current ⟨ts ++ semi :: (Cursor.ofTokens rest).ahead,
      Cursor.finalOf (ts ++ semi :: rest)⟩).kind = false := by
    cases ts with
    | nil => simp [endsStatements, hsemi]
    | cons t ts => simp [endsStatements, hts t List.mem_cons_self]
  -- The first turn reads the statement, and the loop goes on behind its semicolon.
  have hfirst := hstmt _ _ _ hclosed hlength
  obtain ⟨k, hturn⟩ := turn_of_statements hrun hends
  generalize hparsed : parseTokens (ts ++ semi :: rest) = parsed at hturn
  obtain ⟨program, errors⟩ := parsed
  cases hturn with
  | broken hs _ => rw [hfirst] at hs; cases hs
  | statement hs hrest =>
      rw [hfirst] at hs
      cases hs
      rw [hsplit] at hrest
      obtain ⟨rfl, rfl⟩ := statements_behind hfront hrest
      rfl

/-- Tokens with as many braces that open as braces that close, and with
a semicolon at their end. -/
theorem closes_zero {ts : List Token} (heof : ∀ t ∈ ts, t.kind ≠ .eof)
    (hbraces : ∀ us, us <+: ts → closings us ≤ openings us) (hbalanced : openings ts = closings ts)
    (hlast : ∀ t, ts.getLast? = some t → t.kind = .semicolon) : Closes 0 ts := by
  refine ⟨heof, hlast, ?_, by rw [Nat.zero_add, hbalanced]⟩
  rintro us ⟨vs, rfl⟩
  have hprefix := hbraces vs (List.prefix_append vs us)
  rw [openings_append, closings_append] at hbalanced
  omega

/-- A semicolon outside of all braces is a point of synchronisation.
Take tokens whose braces are balanced, and whose last token is a
semicolon; otherwise they may be as broken as they like. Reading them
and any other tokens behind them gives the statements and the errors of
both, each read on its own, one after the other. -/
theorem parseTokens_append {ts us : List Token} (hts : ∀ t ∈ ts, t.kind ≠ .eof)
    (hus : ∀ t ∈ us, t.kind ≠ .eof) (hbraces : ∀ vs, vs <+: ts → closings vs ≤ openings vs)
    (hbalanced : openings ts = closings ts)
    (hlast : ∀ t, ts.getLast? = some t → t.kind = .semicolon) :
    (parseTokens (ts ++ us)).program = (parseTokens ts).program ++ (parseTokens us).program ∧
      (parseTokens (ts ++ us)).errors = (parseTokens ts).errors ++ (parseTokens us).errors := by
  obtain ⟨c, hrun⟩ := parseTokens_run ts
  obtain ⟨c', hrun'⟩ := parseTokens_run (ts ++ us)
  rw [ofTokens_eq hts] at hrun
  rw [ofTokens_eq (List.forall_mem_append.mpr ⟨hts, hus⟩)] at hrun'
  obtain ⟨vs, hvs, rfl, steps₂, ss₂, found₂, hbehind, hprogram, herrors⟩ :=
    statements_append (Cursor.closed_ofTokens ts) (closes_zero hts hbraces hbalanced hlast) hrun
      hrun'
  -- The first loop has read all of its tokens, so the second one starts on the others.
  obtain rfl := hvs.eq_nil_of_ends (ends_of_statements hrun)
  obtain ⟨rfl, rfl⟩ := statements_behind hts (by rw [ofTokens_eq hus]; exact hbehind)
  exact ⟨hprogram, herrors⟩

/-- In front, an `if` is broken off in a group inside of its condition,
a brace opens and closes where none is due, and so does a dict. Behind,
there is an operator without its operand, and a name. -/
theorem parseTokens_append_broken :
    let token (kind : TokenKind) : Token := .fixed kind {}
    let ts := [token .ifWord, token .leftParen, token .leftBrace, token .semicolon,
      token .rightBrace, token .comma, token .semicolon]
    let us := [token .trueWord, token .semicolon, token .asterisk, token .semicolon,
      token .falseWord]
    (parseTokens (ts ++ us)).program = (parseTokens ts).program ++ (parseTokens us).program ∧
      (parseTokens ts).errors.length = 2 ∧ (parseTokens us).errors.length = 1 ∧
      (parseTokens us).program.length = 2 := by
  intro token ts us
  have hbraces : ∀ vs ∈ ts.inits, closings vs ≤ openings vs := by decide
  have happend := @parseTokens_append ts us (by decide) (by decide)
    (fun vs hvs => hbraces vs ((List.mem_inits vs ts).mpr hvs)) (by decide) (by
      intro t ht
      cases ht
      rfl)
  exact ⟨happend.1, by decide, by decide, by decide⟩

end QuoteScript
