import Mathlib.Algebra.Group.Nat.Defs
import MipsAsm.Word.Field

/-!
# Fields that do not meet

A word is built by placing values in fields and read by extracting fields.  The two undo each other
as long as the fields of the word do not meet, and this file shows it bit by bit.

* `Field.Apart f g` — no bit belongs to both fields.  `Field.Disjoint f g` says it of the ends of
  the fields, which is the same unless one of them is empty.
* `getLsbD_place`, `getLsbD_extract`, `getLsbD_compose` — the bits of what the operations give, for
  fields of any shift and width.
* `toNat_extract_place`, `toNat_extract_compose` — a field is read back from a placed value, and
  from a word of fields that are apart, as the value put there, cut to the width of the field.
* `extract_compose_of_apart` — a field that meets none of the fields of a word is read as zero.
* `compose_perm` — the order in which fields are placed does not matter.
-/

set_option autoImplicit false

namespace MipsAsm

/-! ## Bits

Two words are equal if they have the same bits, and for each operation there is an equation for its
bits.  With these, facts about words become facts about the ends of fields.  Shifts by 32 or more
give zero, so no bound on the shift or the width of a field is needed. -/

/-- Words with the same bits are equal. -/
theorem eq_of_getLsbD_eq {v w : UInt32}
    (h : ∀ i, i < 32 → v.toBitVec.getLsbD i = w.toBitVec.getLsbD i) : v = w :=
  UInt32.eq_of_toBitVec_eq (BitVec.eq_of_getLsbD_eq h)

theorem getLsbD_of_ge (w : UInt32) {i : Nat} (h : 32 ≤ i) : w.toBitVec.getLsbD i = false :=
  BitVec.getLsbD_of_ge _ _ h

theorem getLsbD_shiftUp (w : UInt32) (n i : Nat) :
    (shiftUp w n).toBitVec.getLsbD i =
      (decide (i < 32) && decide (n ≤ i) && w.toBitVec.getLsbD (i - n)) := by
  rw [shiftUp]
  split
  · rw [BitVec.getLsbD_shiftLeft]
    by_cases hn : n ≤ i
    · simp [hn, Nat.not_lt.mpr hn]
    · simp [hn, Nat.lt_of_not_le hn]
  · rename_i hn
    by_cases hi : i < 32
    · simp [show ¬n ≤ i by omega]
    · simp [hi]

theorem getLsbD_shiftDown (w : UInt32) (n i : Nat) :
    (shiftDown w n).toBitVec.getLsbD i = w.toBitVec.getLsbD (n + i) := by
  rw [shiftDown]
  split
  · rw [BitVec.getLsbD_ushiftRight]
  · rename_i hn
    rw [getLsbD_of_ge w (by omega)]
    simp

namespace Field

theorem toNat_ones (f : Field) : f.ones.toNat = 2 ^ min f.width 32 - 1 := by
  rw [ones, shiftUp]
  split
  · rename_i hw
    have hlt : 2 ^ f.width < 2 ^ 32 := Nat.pow_lt_pow_right (by decide) hw
    have hone : (⟨(1 : UInt32).toBitVec <<< f.width⟩ : UInt32).toNat = 2 ^ f.width := by
      change ((1#32) <<< f.width).toNat = 2 ^ f.width
      rw [BitVec.toNat_shiftLeft]
      simpa [Nat.shiftLeft_eq] using Nat.mod_eq_of_lt hlt
    have hle : (1 : UInt32) ≤ ⟨(1 : UInt32).toBitVec <<< f.width⟩ := by
      rw [UInt32.le_iff_toNat_le, hone]
      exact Nat.one_le_two_pow
    rw [UInt32.toNat_sub_of_le _ _ hle, hone, Nat.min_eq_left (Nat.le_of_lt hw)]
    rfl
  · rename_i hw
    rw [Nat.min_eq_right (Nat.le_of_not_lt hw)]
    rfl

theorem getLsbD_ones (f : Field) (i : Nat) :
    f.ones.toBitVec.getLsbD i = (decide (i < f.width) && decide (i < 32)) := by
  rw [← BitVec.testBit_toNat, UInt32.toNat_toBitVec, toNat_ones, Nat.testBit_two_pow_sub_one,
    ← Bool.decide_and]
  exact decide_eq_decide.mpr Nat.lt_min

/-- The bits of a placed value are those of the value, moved to the field, and no others. -/
theorem getLsbD_place (f : Field) (v : UInt32) (i : Nat) :
    (f.place v).toBitVec.getLsbD i =
      (decide (i < 32) && decide (f.shift ≤ i) && decide (i < f.shift + f.width)
        && v.toBitVec.getLsbD (i - f.shift)) := by
  rw [place, getLsbD_shiftUp, UInt32.toBitVec_and, BitVec.getLsbD_and, getLsbD_ones]
  by_cases hi : i < 32
  · by_cases hs : f.shift ≤ i
    · have hiff : i - f.shift < f.width ↔ i < f.shift + f.width := by omega
      simp [hi, hs, hiff, show i - f.shift < 32 by omega, Bool.and_comm]
    · simp [hs]
  · simp [hi]

/-- The bits of an extracted field are those of the word in the range of the field. -/
theorem getLsbD_extract (f : Field) (w : UInt32) (i : Nat) :
    (f.extract w).toBitVec.getLsbD i =
      (decide (i < f.width) && w.toBitVec.getLsbD (f.shift + i)) := by
  rw [extract, getLsbD_shiftDown, UInt32.toBitVec_and, BitVec.getLsbD_and, mask, getLsbD_shiftUp,
    getLsbD_ones]
  by_cases hi : f.shift + i < 32
  · simp [hi, show i < 32 by omega, Bool.and_comm]
  · rw [getLsbD_of_ge w (by omega)]
    simp

/-- **A placed value is read back**, cut to the bits of the field that a word has. -/
theorem toNat_extract_place (f : Field) (v : UInt32) :
    (f.extract (f.place v)).toNat =
      if f.shift < 32 then v.toNat % 2 ^ min f.width (32 - f.shift) else 0 := by
  refine Nat.eq_of_testBit_eq fun i ↦ ?_
  rw [← UInt32.toNat_toBitVec, BitVec.testBit_toNat, getLsbD_extract, getLsbD_place]
  split
  · rename_i hs
    have hiff : i < min f.width (32 - f.shift) ↔ i < f.width ∧ f.shift + i < 32 := by omega
    rw [Nat.testBit_mod_two_pow, ← UInt32.toNat_toBitVec v, BitVec.testBit_toNat]
    by_cases hi : i < f.width
    · simp [hiff, hi]
    · simp [hiff, hi]
  · simp [show ¬f.shift + i < 32 by omega]

/-- A bit belongs to a field. -/
def Covers (f : Field) (i : Nat) : Prop := f.shift ≤ i ∧ i < f.shift + f.width

instance (f : Field) : DecidablePred f.Covers := fun _ ↦ inferInstanceAs (Decidable (_ ∧ _))

/-- No bit belongs to both of two fields. -/
def Apart (f g : Field) : Prop := ∀ i, f.Covers i → ¬g.Covers i

theorem Apart.symm {f g : Field} (h : f.Apart g) : g.Apart f := fun i hg hf ↦ h i hf hg

/-- One of two fields ends before the other starts. -/
def Disjoint (f g : Field) : Prop := f.shift + f.width ≤ g.shift ∨ g.shift + g.width ≤ f.shift

instance (f g : Field) : Decidable (Disjoint f g) := inferInstanceAs (Decidable (_ ∨ _))

/-- Fields are apart if one ends before the other starts, or if one of them is empty. -/
theorem apart_iff {f g : Field} : f.Apart g ↔ f.Disjoint g ∨ f.width = 0 ∨ g.width = 0 := by
  constructor
  · intro h
    -- otherwise the later one of the two starts in the other
    have hstart := h (max f.shift g.shift)
    simp only [Covers, Disjoint] at hstart ⊢
    omega
  · rintro h i ⟨hf, hf'⟩ ⟨hg, hg'⟩
    rw [Disjoint] at h
    omega

instance (f g : Field) : Decidable (f.Apart g) := decidable_of_iff _ apart_iff.symm

theorem Disjoint.apart {f g : Field} (h : Disjoint f g) : f.Apart g := apart_iff.mpr (.inl h)

/-- A placed value has no bit outside its field. -/
theorem getLsbD_place_of_not_covers {f : Field} {i : Nat} (h : ¬f.Covers i) (v : UInt32) :
    (f.place v).toBitVec.getLsbD i = false := by
  rw [getLsbD_place]
  by_cases hs : f.shift ≤ i
  · simp [show ¬i < f.shift + f.width from fun hi ↦ h ⟨hs, hi⟩]
  · simp [hs]

end Field

/-! ## Words of several fields

A bit of a composed word is set if it is set in one of the placed values.  If the fields are apart,
at most one of them can have it. -/

theorem foldl_place (word : UInt32) (values : List (Field × UInt32)) :
    values.foldl (fun word fv ↦ word ||| fv.1.place fv.2) word = word ||| compose values := by
  induction values generalizing word with
  | nil => simp [compose]
  | cons fv values ih =>
    rw [compose, List.foldl_cons, List.foldl_cons, ih, ih, UInt32.zero_or, UInt32.or_assoc]

theorem compose_cons (f : Field) (v : UInt32) (values : List (Field × UInt32)) :
    compose ((f, v) :: values) = f.place v ||| compose values := by
  rw [compose, List.foldl_cons, foldl_place, UInt32.zero_or]

/-- A bit of a composed word is set if it is set in one of the placed values. -/
theorem getLsbD_compose (values : List (Field × UInt32)) (i : Nat) :
    (compose values).toBitVec.getLsbD i =
      values.any fun fv ↦ (fv.1.place fv.2).toBitVec.getLsbD i := by
  induction values with
  | nil => simp [compose]
  | cons fv values ih =>
    rw [compose_cons, UInt32.toBitVec_or, BitVec.getLsbD_or, ih, List.any_cons]

/-- **The order of the fields does not matter.** -/
theorem compose_perm {values values' : List (Field × UInt32)} (h : values.Perm values') :
    compose values = compose values' := by
  refine eq_of_getLsbD_eq fun i _ ↦ ?_
  rw [getLsbD_compose, getLsbD_compose, h.any_eq]

namespace Field

/-- **A word has no bit outside its fields.** -/
theorem getLsbD_compose_of_not_covers {values : List (Field × UInt32)} {i : Nat}
    (h : ∀ fv ∈ values, ¬fv.1.Covers i) : (compose values).toBitVec.getLsbD i = false := by
  rw [getLsbD_compose, List.any_eq_false]
  intro fv hfv
  simp [getLsbD_place_of_not_covers (h fv hfv)]

/-- A word has no bit in a field that is apart from its fields. -/
theorem getLsbD_compose_of_apart {f : Field} {values : List (Field × UInt32)}
    (h : ∀ fv ∈ values, f.Apart fv.1) {i : Nat} (hi : i < f.width) :
    (compose values).toBitVec.getLsbD (f.shift + i) = false :=
  getLsbD_compose_of_not_covers fun fv hfv ↦ h fv hfv (f.shift + i) ⟨by omega, by omega⟩

/-- **A field that is apart from the fields of a word is read as zero.** -/
theorem extract_compose_of_apart {f : Field} {values : List (Field × UInt32)}
    (h : ∀ fv ∈ values, f.Apart fv.1) : f.extract (compose values) = 0 := by
  refine eq_of_getLsbD_eq fun i _ ↦ ?_
  rw [getLsbD_extract]
  by_cases hi : i < f.width
  · rw [getLsbD_compose_of_apart h hi]
    simp
  · simp [hi]

/-- **A field is read back from a word of fields that are apart**, cut to its width. -/
theorem toNat_extract_compose {f : Field} {v : UInt32} {values : List (Field × UInt32)}
    (hfits : f.shift + f.width ≤ 32) (hmem : (f, v) ∈ values)
    (hapart : values.Pairwise fun a b ↦ a.1.Apart b.1) :
    (f.extract (compose values)).toNat = v.toNat % 2 ^ f.width := by
  obtain ⟨before, after, rfl⟩ := List.append_of_mem hmem
  have hothers : ∀ fv ∈ before ++ after, f.Apart fv.1 := by
    rw [List.pairwise_append, List.pairwise_cons] at hapart
    intro fv hfv
    rcases List.mem_append.mp hfv with hfv | hfv
    · exact (hapart.2.2 fv hfv _ List.mem_cons_self).symm
    · exact hapart.2.1.1 fv hfv
  -- bring the field to the front, where the other fields cannot reach it
  rw [compose_perm List.perm_middle]
  refine Nat.eq_of_testBit_eq fun i ↦ ?_
  rw [Nat.testBit_mod_two_pow, ← UInt32.toNat_toBitVec, ← UInt32.toNat_toBitVec,
    BitVec.testBit_toNat, BitVec.testBit_toNat, getLsbD_extract, compose_cons, UInt32.toBitVec_or,
    BitVec.getLsbD_or]
  by_cases hi : i < f.width
  · rw [getLsbD_compose_of_apart hothers hi, Bool.or_false, getLsbD_place]
    simp [hi, show f.shift + i < 32 by omega]
  · simp [hi]

end Field
end MipsAsm
