/-!
# `QuoteScript.Text.Decimal`: 64-bit integers in decimal

The integers of the language are signed 64-bit words. They are
written in decimal, with a minus sign in front of a negative one and
without leading zeros.

Reading takes an optional sign, plus or minus, and at least one ASCII
digit; leading zeros are allowed. A number outside the range of a
64-bit word is refused, never wrapped.

* `writeInt` writes an integer, `readInt?` reads one.
* `readInt?_writeInt`: what is written reads back as the integer it
  was written from.
-/

set_option autoImplicit false

namespace QuoteScript.Text

/-- A number written with ASCII digits only, at least one of them. -/
def readDigits? (text : List Char) : Option Nat :=
  if !text.isEmpty && text.all Char.isDigit then some (Nat.ofDigitChars 10 text 0) else none

/-- The 64-bit word of value `i`, if there is one. -/
def word? (i : Int) : Option Int64 :=
  if Int64.minValue.toInt ≤ i ∧ i ≤ Int64.maxValue.toInt then some (Int64.ofInt i) else none

/-- Reads a decimal integer with an optional sign. -/
def readInt? (text : String) : Option Int64 :=
  match text.toList with
  | '-' :: digits => (readDigits? digits).bind fun n => word? (-(n : Int))
  | '+' :: digits => (readDigits? digits).bind fun n => word? n
  | digits => (readDigits? digits).bind fun n => word? n

/-- Writes an integer in decimal. -/
def writeInt (n : Int64) : String :=
  match n.toInt with
  | .ofNat m => m.repr
  | .negSucc m => "-" ++ (m + 1).repr

/-! ### Reading back -/

/-- The digits of a number are read as that number. -/
theorem readDigits?_toDigits (m : Nat) : readDigits? (Nat.toDigits 10 m) = some m := by
  have hdigits : (Nat.toDigits 10 m).all Char.isDigit = true :=
    List.all_eq_true.mpr fun c hc => Nat.isDigit_of_mem_toDigits (by decide) (by decide) hc
  have hne : (Nat.toDigits 10 m).isEmpty = false := by
    rw [List.isEmpty_eq_false_iff]
    exact Nat.toDigits_ne_nil
  simp [readDigits?, hdigits, hne]

/-- Without a sign in front, reading is reading digits. -/
theorem readInt?_of_digit {c : Char} {rest : List Char} (hc : c.isDigit = true) :
    readInt? (String.ofList (c :: rest))
      = (readDigits? (c :: rest)).bind fun n => word? n := by
  unfold readInt?
  rw [String.toList_ofList]
  split
  · next heq => cases heq; exact absurd hc (by decide)
  · next heq => cases heq; exact absurd hc (by decide)
  · rfl

/-- The value of a word is the value of a word. -/
theorem word?_toInt (n : Int64) : word? n.toInt = some n := by
  rw [word?, if_pos ⟨Int64.minValue_le_toInt n, Int64.toInt_le n⟩, Int64.ofInt_toInt]

/-- What is written reads back as the integer it was written from. -/
theorem readInt?_writeInt (n : Int64) : readInt? (writeInt n) = some n := by
  have hword := word?_toInt n
  unfold writeInt
  split
  · next m hm =>
      rw [hm] at hword
      have hread := readDigits?_toDigits m
      rw [Nat.repr_eq_ofList_toDigits]
      cases hdigits : Nat.toDigits 10 m with
      | nil => exact absurd hdigits Nat.toDigits_ne_nil
      | cons c rest =>
          have hc : c.isDigit = true :=
            Nat.isDigit_of_mem_toDigits (by decide) (by decide)
              (hdigits ▸ List.mem_cons_self : c ∈ Nat.toDigits 10 m)
          rw [readInt?_of_digit hc, ← hdigits, hread]
          exact hword
  · next m hm =>
      rw [hm] at hword
      have hminus : readInt? ("-" ++ (m + 1).repr)
          = (readDigits? (Nat.toDigits 10 (m + 1))).bind fun n => word? (-(n : Int)) := by
        simp only [readInt?, Nat.repr_eq_ofList_toDigits, String.toList_append,
          String.toList_ofList]
        rfl
      have hnegative : -((m + 1 : Nat) : Int) = Int.negSucc m := rfl
      rw [hminus, readDigits?_toDigits, Option.bind_some, hnegative]
      exact hword

end QuoteScript.Text
