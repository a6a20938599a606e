import MipsAsm.Json.Record

/-!
# Numbers in base ten

A number has no form of its own in JSON: it is a literal, and what is read depends on what is asked
for.  What the program writes as a number is digits of base ten with at most a minus sign in front,
and here is that each way to ask for an integer gives that integer back.

* `Json.digitsValue?_toDigits` — the digits of a natural number.
* `Json.uint32?_decimal` — a word.
* `Json.integer?_decimal`, `Json.integer?_signedDecimal` — an integer.
-/

set_option autoImplicit false

namespace MipsAsm
namespace Json

/-- **Reading the digits of a number in base ten gives the number.** -/
theorem digitsValue?_toDigits (n : Nat) : digitsValue? (Nat.toDigits 10 n) = some n := by
  have hdigits : (Nat.toDigits 10 n).any (fun c ↦ c < '0' || '9' < c) = false := by
    rw [List.any_eq_false]
    intro c hc
    have hdigit := Nat.isDigit_of_mem_toDigits (by decide) (by decide) hc
    rw [Char.isDigit_iff_toNat] at hdigit
    simp only [Bool.or_eq_true, decide_eq_true_eq, not_or, Char.not_lt, Char.le_def,
      UInt32.le_iff_toNat_le]
    exact hdigit
  have hvalue : (Nat.toDigits 10 n).foldl (fun m c ↦ m * 10 + (c.toNat - '0'.toNat)) 0 = n := by
    have hread := Nat.ofDigitChars_ten_toDigits (n := n)
    rw [Nat.ofDigitChars_eq_foldl] at hread
    simpa only [Nat.mul_comm 10] using hread
  have hne : (Nat.toDigits 10 n).isEmpty = false := by
    rw [List.isEmpty_eq_false_iff]
    exact Nat.toDigits_ne_nil
  rw [digitsValue?, hne, hdigits, hvalue]
  rfl

/-- A word in base ten is read back. -/
theorem uint32?_decimal (w : UInt32) : uint32? (Text.decimal w.toNat) = some w := by
  rw [uint32?, Text.decimal, String.toList_ofList, digitsValue?_toDigits]
  simp only [w.toNat_lt, ↓reduceIte, UInt32.ofNat_toNat]

/-- What is read as a natural number is digits only. -/
theorem isDigit_of_digitsValue? {ds : List Char} {n : Nat} (h : digitsValue? ds = some n) {c : Char}
    (hc : c ∈ ds) : '0' ≤ c ∧ c ≤ '9' := by
  rw [digitsValue?] at h
  split at h
  · cases h
  · rename_i hbad
    rw [Bool.or_eq_true, not_or, List.any_eq_true] at hbad
    have hfits : ¬((c < '0' || '9' < c) = true) := fun hout ↦ hbad.2 ⟨c, hc, hout⟩
    simpa using hfits

/-- A number in base ten is read back as an integer. -/
theorem integer?_decimal (n : Nat) : integer? (Text.decimal n) = some (n : Int) := by
  have hread := digitsValue?_toDigits n
  rw [integer?, Text.decimal, String.toList_ofList]
  split
  · rename_i ds hsign
    have hdigit := isDigit_of_digitsValue? hread (hsign ▸ List.mem_cons_self)
    exact absurd hdigit.1 (by decide)
  · rw [hread]
    rfl

/-- An integer is read back, also if it is negative. -/
theorem integer?_signedDecimal (i : Int) : integer? (Text.signedDecimal i) = some i := by
  cases i with
  | ofNat n => exact integer?_decimal n
  | negSucc n =>
    have hsign : (Text.signedDecimal (.negSucc n)).toList = '-' :: Nat.toDigits 10 (n + 1) := by
      simp only [Text.signedDecimal, Text.decimal, String.toList_append, String.toList_ofList]
      rfl
    rw [integer?, hsign]
    simp only [digitsValue?_toDigits]
    rfl

end Json
end MipsAsm
