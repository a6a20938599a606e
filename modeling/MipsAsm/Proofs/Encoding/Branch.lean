import Mathlib.Algebra.Group.Int.Defs
import Mathlib.Algebra.Group.Nat.Defs
import MipsAsm.Encoding

/-!
# The reach of a branch

A branch holds the distance to its label in words, counted from the instruction after it, as a
signed number of sixteen bits.  All the arithmetic is that of 32-bit words, so a branch may cross
the end of the address space.

* `canBranch_iff` — the test of the encoder as two bounds on the signed distance in bytes.
* `toInt_branchOffset`, `branchOffset_bounds` — the distance in words as an integer, and that it
  fits into sixteen bits.
* `add_branchOffset` — following the distance from a branch leads to the label, if the two are a
  whole number of words apart.
-/

set_option autoImplicit false

namespace MipsAsm

/-! ## Words as integers

The distance is computed with signed words, and cut to sixteen bits at the end.  Each of these steps
is a remainder, once it is put in terms of integers. -/

theorem toNat_ofInt (v : Int) : ((UInt32.ofInt v).toNat : Int) = v % 2 ^ 32 := by
  rw [UInt32.ofInt, UInt32.toNat_ofNat']
  omega

theorem toNat_toUInt32 (d : Int32) : (d.toUInt32.toNat : Int) = d.toInt % 2 ^ 32 := by
  have h : d.toInt = (d.toUInt32.toNat : Int).bmod (2 ^ 32) := BitVec.toInt_eq_toNat_bmod _
  have hlt := d.toUInt32.toNat_lt
  have hmod : d.toInt % 2 ^ 32 = (d.toUInt32.toNat : Int) % 2 ^ 32 := by
    rw [h]
    exact Int.bmod_emod
  omega

theorem ofInt_toInt (d : Int32) : UInt32.ofInt d.toInt = d.toUInt32 := by
  apply UInt32.toNat_inj.mp
  have h := (toNat_ofInt d.toInt).trans (toNat_toUInt32 d).symm
  omega

/-- The low sixteen bits of a word as a signed number. -/
theorem toInt_low (w : UInt32) : w.toUInt16.toInt16.toInt = (w.toNat : Int).bmod (2 ^ 16) := by
  have h : w.toUInt16.toInt16.toInt = (w.toUInt16.toNat : Int).bmod (2 ^ 16) :=
    BitVec.toInt_eq_toNat_bmod _
  rw [h, UInt32.toNat_toUInt16, Int.natCast_emod]
  exact Int.emod_bmod _ _

/-! ## Distances

The two bounds of the test keep every step of the computation within 32 bits, so nothing overflows
and the distance in words is the quotient of integers. -/

/-- The signed distance in bytes from `src` to `dest`. -/
def byteDistance (src dest : UInt32) : Int := (dest - src).toInt32.toInt

theorem ofInt_byteDistance (src dest : UInt32) :
    UInt32.ofInt (byteDistance src dest) = dest - src := by
  rw [byteDistance, ofInt_toInt]
  rfl

theorem canBranch_iff {src dest : UInt32} :
    canBranch src dest = true ↔
      -131068 ≤ byteDistance src dest ∧ byteDistance src dest ≤ 131072 := by
  have h0 : (0 : Int32).toInt = 0 := by decide
  have h1 : (131072 : Int32).toInt = 131072 := by decide
  have h2 : (-131068 : Int32).toInt = -131068 := by decide
  simp only [canBranch, byteDistance, Bool.or_eq_true, Bool.and_eq_true, decide_eq_true_eq,
    Int32.le_iff_toInt_le, Int32.lt_iff_toInt_lt, h0, h1, h2]
  omega

/-- Within the reach of a branch no step of the computation of its distance overflows. -/
theorem toInt_branchOffset {src dest : UInt32} (h : canBranch src dest = true) :
    (branchOffset src dest).toInt = (byteDistance src dest - 4).tdiv 4 := by
  have hreach := canBranch_iff.mp h
  have h4 : (4 : Int32).toInt = 4 := by decide
  have hsub : ((dest - src).toInt32 - 4).toInt = byteDistance src dest - 4 := by
    rw [Int32.toInt_sub, h4]
    exact Int.bmod_eq_of_le (by rw [byteDistance] at hreach; omega)
      (by rw [byteDistance] at hreach; omega)
  rw [branchOffset, Int32.toInt_div_of_ne_right _ _ (by decide), hsub, h4]

/-- The distance fits into sixteen bits. -/
theorem branchOffset_bounds {src dest : UInt32} (h : canBranch src dest = true) :
    -32768 ≤ (branchOffset src dest).toInt ∧ (branchOffset src dest).toInt ≤ 32767 := by
  have hreach := canBranch_iff.mp h
  rw [toInt_branchOffset h]
  rcases Int.le_total 0 (byteDistance src dest - 4) with hpos | hneg
  · rw [Int.tdiv_eq_ediv_of_nonneg hpos]
    omega
  · have hflip : (byteDistance src dest - 4).tdiv 4 = -((4 - byteDistance src dest) / 4) := by
      rw [← Int.tdiv_eq_ediv_of_nonneg (by omega), ← Int.neg_tdiv]
      congr 1
      omega
    rw [hflip]
    omega

/-- **Following the distance leads to the label.** -/
theorem add_branchOffset {src dest : UInt32} (h : canBranch src dest = true)
    (hwords : (dest - src).toNat % 4 = 0) :
    src + 4 + UInt32.ofInt (4 * (branchOffset src dest).toInt) = dest := by
  have hdvd : (4 : Int) ∣ byteDistance src dest := by
    have hmod : byteDistance src dest % 2 ^ 32 = (dest - src).toNat := by
      rw [← ofInt_byteDistance, toNat_ofInt]
    omega
  have hexact : 4 * (byteDistance src dest - 4).tdiv 4 = byteDistance src dest - 4 :=
    Int.mul_tdiv_cancel' (by omega)
  rw [toInt_branchOffset h, hexact, Int.sub_eq_add_neg, UInt32.ofInt_add, ofInt_byteDistance]
  have h4 : UInt32.ofInt (-4) = -4 := by decide
  rw [h4, ← UInt32.sub_eq_add_neg, UInt32.add_assoc, UInt32.add_comm 4, UInt32.sub_add_cancel,
    UInt32.add_comm, UInt32.sub_add_cancel]

end MipsAsm
