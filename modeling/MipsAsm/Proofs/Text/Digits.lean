import MipsAsm.Literal

/-!
# Numbers written out and read back

A number is written in base sixteen in two ways: a word with all of its eight digits, in small
letters, and an address with as many digits as it has, in capitals.  What reads a literal reads back
both.  The first is followed from the highest digit down, since the digits are shifts of the word,
and the second from the lowest digit up, since that is how the digits of a number are made.

* `Text.hexWordDigits_mem` — the digits of a word are lowercase digits of base sixteen.
* `Literal.readDigits_hexWordDigits` — reading the eight digits of a word gives the word.
* `Literal.readDigits_hexUpper` — reading the capital digits of a number gives the number.
-/

set_option autoImplicit false

namespace MipsAsm

/-- The lowercase digits of base sixteen. -/
def Text.lowerHexDigits : List Char := "0123456789abcdef".toList

theorem Text.digitChar_mem {d : Nat} (hd : d < 16) : Nat.digitChar d ∈ lowerHexDigits := by
  have hall : ∀ d < 16, Nat.digitChar d ∈ lowerHexDigits := by decide
  exact hall d hd

theorem Text.length_hexWordDigits (w : UInt32) : (hexWordDigits w).length = 8 := rfl

theorem Text.hexWordDigits_mem {w : UInt32} {c : Char} (hc : c ∈ hexWordDigits w) :
    c ∈ lowerHexDigits := by
  obtain ⟨shift, -, rfl⟩ := List.mem_map.mp hc
  exact digitChar_mem (Nat.mod_lt _ (by decide))

namespace Literal

theorem digitValue?_digitChar {d : Nat} (hd : d < 16) :
    digitValue? 16 (Nat.digitChar d) = some d := by
  have hall : ∀ d < 16, digitValue? 16 (Nat.digitChar d) = some d := by decide
  exact hall d hd

/-- Reading the next digit of a number after those above it. -/
theorem readDigits_shift {n : Nat} (hn : n < UInt32.size) (shift : Nat) (rest : List Char) :
    readDigits 16 (n >>> (shift + 4)) (Nat.digitChar ((n >>> shift) % 16) :: rest) =
      readDigits 16 (n >>> shift) rest := by
  have hvalue : (n >>> (shift + 4)) * 16 + (n >>> shift) % 16 = n >>> shift := by
    rw [Nat.shiftRight_add, Nat.shiftRight_eq_div_pow (n >>> shift) 4]
    omega
  have hlt : n >>> shift < 0x10000000000000000 := by
    have hle := Nat.shiftRight_le n shift
    have hsize : UInt32.size = 4294967296 := rfl
    omega
  rw [readDigits, digitValue?_digitChar (Nat.mod_lt _ (by decide))]
  simp only [hvalue, hlt, ↓reduceIte]

/-- **Reading the digits of a word gives the word.** -/
theorem readDigits_hexWordDigits (w : UInt32) :
    readDigits 16 0 (Text.hexWordDigits w) = .ok w.toNat := by
  have hlt : w.toNat < UInt32.size := w.toNat_lt
  have hnone : w.toNat >>> (28 + 4) = 0 := by
    rw [Nat.shiftRight_eq_div_pow]
    exact Nat.div_eq_of_lt hlt
  have hall : w.toNat >>> 0 = w.toNat := rfl
  have hread : readDigits 16 (w.toNat >>> (28 + 4)) (Text.hexWordDigits w) = .ok w.toNat := by
    rw [Text.hexWordDigits]
    repeat rw [List.map_cons]
    rw [readDigits_shift hlt 28, readDigits_shift hlt 24, readDigits_shift hlt 20,
      readDigits_shift hlt 16, readDigits_shift hlt 12, readDigits_shift hlt 8,
      readDigits_shift hlt 4, readDigits_shift hlt 0, hall, List.map_nil, readDigits]
  rwa [hnone] at hread

/-- A last digit is read after those before it. -/
theorem readDigits_concat {base acc n d : Nat} {cs : List Char} {c : Char}
    (hcs : readDigits base acc cs = .ok n) (hc : digitValue? base c = some d)
    (hlt : n * base + d < 0x10000000000000000) :
    readDigits base acc (cs ++ [c]) = .ok (n * base + d) := by
  induction cs generalizing acc with
  | nil =>
    rw [readDigits] at hcs
    cases hcs
    rw [List.nil_append, readDigits, hc]
    simp only [hlt, ↓reduceIte, readDigits]
  | cons c' cs ih =>
    rw [readDigits] at hcs
    rw [List.cons_append, readDigits]
    split at hcs
    · cases hcs
    · split at hcs
      · rename_i hfits
        rw [if_pos hfits]
        exact ih hcs
      · cases hcs

theorem digitValue?_toUpper_digitChar {d : Nat} (hd : d < 16) :
    digitValue? 16 (Nat.digitChar d).toUpper = some d := by
  have hall : ∀ d < 16, digitValue? 16 (Nat.digitChar d).toUpper = some d := by decide
  exact hall d hd

/-- **Reading the capital digits of a number gives the number.** -/
theorem readDigits_hexUpper {n : Nat} (hn : n < 0x10000000000000000) :
    readDigits 16 0 (Text.hexUpper n).toList = .ok n := by
  rw [Text.hexUpper, String.toList_ofList]
  induction n using Nat.strongRecOn with
  | ind n ih =>
    by_cases hone : n < 16
    · rw [Nat.toDigits_of_lt_base hone, List.map_singleton, readDigits,
        digitValue?_toUpper_digitChar hone]
      simp only [Nat.zero_mul, Nat.zero_add, hn, ↓reduceIte, readDigits]
    · have hlast : digitValue? 16 (Nat.digitChar (n % 16)).toUpper = some (n % 16) :=
        digitValue?_toUpper_digitChar (Nat.mod_lt n (by decide))
      have hvalue : n / 16 * 16 + n % 16 = n := Nat.div_add_mod' n 16
      rw [Nat.toDigits_of_base_le (by decide) (Nat.not_lt.mp hone), List.map_append]
      have hread := readDigits_concat (ih (n / 16) (by omega) (by omega)) hlast (by omega)
      rwa [hvalue] at hread

end Literal
end MipsAsm
