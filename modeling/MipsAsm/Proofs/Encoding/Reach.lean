import MipsAsm.Proofs.Encoding.Decoding

/-!
# Which addresses a branch reaches

The test of the encoder is written with two bounds that look lopsided: up to 2 ^ 17 bytes forward,
but only 2 ^ 17 - 4 bytes backward.  Distances count from the instruction after the branch, and from
there the two bounds are those of a signed number of sixteen bits.  So the test is exact: it accepts
an address if and only if some such number leads there.

* `byteDistance_eq_iff` — the signed distance in bytes is the one number of 32 bits that leads from
  one address to the other.
* `mul_branchOffset` — the division by four leaves nothing over between multiples of four.
* `canBranch_of_offset` — the test accepts whatever a number of sixteen bits leads to.
* `signed_extract_place_imm` — a number of sixteen bits is read back from the immediate field.
* `branch_test_is_exact` — the result.
-/

set_option autoImplicit false

namespace MipsAsm

variable {src dest : UInt32}

/-! ## Distances as numbers

The signed distance of 32 bits is the only number in its range that leads from one address to the
other.  So a number that leads there and is known to be small is the distance. -/

theorem toInt_toInt32_ofInt {d : Int} (hlower : -2147483648 ≤ d) (hupper : d < 2147483648) :
    (UInt32.ofInt d).toInt32.toInt = d := by
  have hnat := toNat_ofInt d
  have hsigned : (UInt32.ofInt d).toInt32.toInt = ((UInt32.ofInt d).toNat : Int).bmod (2 ^ 32) :=
    BitVec.toInt_eq_toNat_bmod _
  have hself : d.bmod (2 ^ 32) = d := Int.bmod_eq_of_le (by omega) (by omega)
  rw [hsigned, hnat]
  exact (Int.emod_bmod d _).trans hself

/-- The signed distance in bytes is the one number of 32 bits that leads from `src` to `dest`. -/
theorem byteDistance_eq_iff {d : Int} (hlower : -2147483648 ≤ d) (hupper : d < 2147483648) :
    byteDistance src dest = d ↔ dest = src + UInt32.ofInt d := by
  constructor
  · intro h
    rw [← h, ofInt_byteDistance, UInt32.add_comm, UInt32.sub_add_cancel]
  · intro h
    have hsub : dest - src = UInt32.ofInt d := by rw [h, UInt32.add_comm, UInt32.add_sub_cancel]
    rw [byteDistance, hsub, toInt_toInt32_ofInt hlower hupper]

theorem sub_mod_four (hsrc : src % 4 = 0) (hdest : dest % 4 = 0) : (dest - src).toNat % 4 = 0 := by
  have h4 : (4 : UInt32).toNat = 4 := rfl
  have hsrc' := congrArg UInt32.toNat hsrc
  have hdest' := congrArg UInt32.toNat hdest
  rw [UInt32.toNat_mod, h4, UInt32.toNat_zero] at hsrc' hdest'
  rw [UInt32.toNat_sub]
  omega

/-- Between multiples of four the distance in words is exact. -/
theorem mul_branchOffset (h : canBranch src dest = true) (hsrc : src % 4 = 0)
    (hdest : dest % 4 = 0) : 4 * (branchOffset src dest).toInt = byteDistance src dest - 4 := by
  have hbounds := branchOffset_bounds h
  have hlands := add_branchOffset h (sub_mod_four hsrc hdest)
  have hdistance : byteDistance src dest = 4 + 4 * (branchOffset src dest).toInt := by
    refine (byteDistance_eq_iff (by omega) (by omega)).mpr ?_
    rw [UInt32.ofInt_add, ← UInt32.add_assoc]
    exact hlands.symm
  omega

/-! ## Numbers that lead to a label

The other direction of the test: from a number of sixteen bits that leads to the label, the distance
in bytes, and from that the two bounds. -/

section Offset

variable {off : Int16} (hoff : dest = src + 4 + UInt32.ofInt (4 * off.toInt))
include hoff

theorem byteDistance_of_offset : byteDistance src dest = 4 + 4 * off.toInt := by
  have hlower := off.le_toInt
  have hupper := off.toInt_lt
  refine (byteDistance_eq_iff (by omega) (by omega)).mpr ?_
  rw [UInt32.ofInt_add, ← UInt32.add_assoc]
  exact hoff

/-- The two bounds of the test are those of a number of sixteen bits. -/
theorem canBranch_of_offset : canBranch src dest = true := by
  have hlower := off.le_toInt
  have hupper := off.toInt_lt
  rw [canBranch_iff, byteDistance_of_offset hoff]
  omega

end Offset

/-! ## The immediate field

What is in the field is read back as a signed number, which is how the machine will read it. -/

/-- A number of sixteen bits is read back from the immediate field. -/
theorem signed_extract_place_imm {d : Int32} (hlower : -32768 ≤ d.toInt)
    (hupper : d.toInt ≤ 32767) :
    (Field.imm.extract (Field.imm.place d.toUInt32)).toUInt16.toInt16.toInt = d.toInt := by
  have hread : _ = d.toUInt32.toNat % 2 ^ 16 := Field.imm.toNat_extract_place d.toUInt32
  have hword := toNat_toUInt32 d
  rw [toInt_low, hread, Int.natCast_emod]
  show ((d.toUInt32.toNat : Int) % 2 ^ 16).bmod (2 ^ 16) = d.toInt
  have hself : d.toInt.bmod (2 ^ 16) = d.toInt := Int.bmod_eq_of_le (by omega) (by omega)
  rw [hword, Int.emod_emod_of_dvd _ (by decide)]
  exact (Int.emod_bmod d.toInt _).trans hself

/-! ## The result -/

/-- **The test for branches is exact.**  Between addresses that are multiples of four, a branch can
be made if and only if some signed number of sixteen bits, counted in words from the instruction
after the branch, leads to the label.  There is one such number then, and it is the distance that
the encoder computes: the subtraction does not overflow, the division leaves nothing over, and
placing the result in the immediate field and reading it with its sign gives the number back. -/
theorem branch_test_is_exact (src dest : UInt32) (hsrc : src % 4 = 0) (hdest : dest % 4 = 0) :
    (canBranch src dest = true ↔ ∃ off : Int16, dest = src + 4 + UInt32.ofInt (4 * off.toInt)) ∧
    ∀ off : Int16, dest = src + 4 + UInt32.ofInt (4 * off.toInt) →
      (branchOffset src dest).toInt = off.toInt ∧
      ((dest - src).toInt32 - 4).toInt = (dest - src).toInt32.toInt - 4 ∧
      ((dest - src).toInt32 - 4).toInt = 4 * (branchOffset src dest).toInt ∧
      (Field.imm.extract (Field.imm.place (branchOffset src dest).toUInt32)).toUInt16.toInt16 =
        off := by
  refine ⟨⟨?_, ?_⟩, ?_⟩
  · intro h
    have hbounds := branchOffset_bounds h
    refine ⟨Int16.ofInt (branchOffset src dest).toInt, ?_⟩
    rw [Int16.toInt_ofInt_of_le (by omega) (by omega)]
    exact (add_branchOffset h (sub_mod_four hsrc hdest)).symm
  · rintro ⟨off, hoff⟩
    exact canBranch_of_offset hoff
  · intro off hoff
    have hlower := off.le_toInt
    have hupper := off.toInt_lt
    have hbytes : (dest - src).toInt32.toInt = 4 + 4 * off.toInt := byteDistance_of_offset hoff
    have hexact : 4 * (branchOffset src dest).toInt = (dest - src).toInt32.toInt - 4 :=
      mul_branchOffset (canBranch_of_offset hoff) hsrc hdest
    have hoffset : (branchOffset src dest).toInt = off.toInt := by omega
    have hsub : ((dest - src).toInt32 - 4).toInt = (dest - src).toInt32.toInt - 4 := by
      have h4 : (4 : Int32).toInt = 4 := by decide
      rw [Int32.toInt_sub, hbytes, h4]
      exact Int.bmod_eq_of_le (by omega) (by omega)
    refine ⟨hoffset, hsub, hsub.trans hexact.symm, Int16.toInt_inj.mp ?_⟩
    rw [signed_extract_place_imm (by omega) (by omega), hoffset]

/-- The furthest branch forward, over the end of the address space, the furthest one backward, and
the first address that is too far. -/
theorem branch_test_is_exact_at_the_edges :
    canBranch 0xffffff00 0x1ff00 = true ∧ (branchOffset 0xffffff00 0x1ff00).toInt = 32767 ∧
      canBranch 0 0xfffe0004 = true ∧ (branchOffset 0 0xfffe0004).toInt = -32768 ∧
      ¬∃ off : Int16, 0x20004 = 0 + 4 + UInt32.ofInt (4 * off.toInt) := by
  have hforward := branch_test_is_exact 0xffffff00 0x1ff00 (by decide) (by decide)
  have hbackward := branch_test_is_exact 0 0xfffe0004 (by decide) (by decide)
  have hbeyond := branch_test_is_exact 0 0x20004 (by decide) (by decide)
  refine ⟨hforward.1.mpr ⟨32767, by decide⟩, (hforward.2 32767 (by decide)).1,
    hbackward.1.mpr ⟨-32768, by decide⟩, (hbackward.2 (-32768) (by decide)).1, ?_⟩
  rw [← hbeyond.1]
  decide

end MipsAsm
