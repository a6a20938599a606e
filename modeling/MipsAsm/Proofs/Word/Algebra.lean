import Mathlib.Algebra.GroupWithZero.Nat
import MipsAsm.Proofs.Encoding.Decoding

/-!
# The algebra of fields

A word is composed by the bitwise or of values that are placed in fields.  As long as the fields are
apart, the or is a sum: no two placed values have a bit in common, so that nothing is carried.  In
the other direction, a word is composed of what is read from it as soon as the fields leave no bit
out, whether or not they are apart.

* `toNat_compose` — a word of fields that are apart is the sum of the placed values.
* `compose_extract` — a word is composed of what is read from it.
* `Family.layout_perm` — the layout of a family has the fields that its words are built from.
* `fields_compose_and_read_back` — the result.
-/

set_option autoImplicit false

namespace MipsAsm

/-! ## Words as sums

An or of numbers without a common bit is their sum.  By induction over the fields, each placed value
has no bit in common with the word of the others. -/

/-- A value has no bit in common with a word whose fields are apart from its own. -/
theorem Field.place_and_compose {f : Field} {values : List (Field × UInt32)}
    (h : ∀ fv ∈ values, f.Apart fv.1) (v : UInt32) :
    (f.place v).toBitVec &&& (compose values).toBitVec = 0#32 := by
  refine BitVec.eq_of_getLsbD_eq fun i _ ↦ ?_
  rw [BitVec.getLsbD_and, BitVec.getLsbD_zero]
  by_cases hi : f.Covers i
  · rw [getLsbD_compose_of_not_covers fun fv hfv ↦ h fv hfv i hi, Bool.and_false]
  · rw [getLsbD_place_of_not_covers hi, Bool.false_and]

/-- **A word of fields that are apart is the sum of the placed values**, with nothing carried and
nothing lost. -/
theorem toNat_compose {values : List (Field × UInt32)}
    (h : values.Pairwise fun a b ↦ a.1.Apart b.1) :
    (compose values).toNat = (values.map fun fv ↦ (fv.1.place fv.2).toNat).sum := by
  induction values with
  | nil => rfl
  | cons fv values ih =>
    obtain ⟨hfirst, hrest⟩ := List.pairwise_cons.mp h
    have hnone := Field.place_and_compose hfirst fv.2
    rw [compose_cons, List.map_cons, List.sum_cons, ← ih hrest, ← UInt32.toNat_toBitVec,
      UInt32.toBitVec_or, ← BitVec.add_eq_or_of_and_eq_zero _ _ hnone,
      BitVec.toNat_add_of_and_eq_zero hnone, UInt32.toNat_toBitVec, UInt32.toNat_toBitVec]

/-! ## Words from what is read

The fields of a format leave no bit out, so nothing is lost when a word is taken apart. -/

/-- **A word is composed of what is read from it**, if each bit belongs to one of the fields. -/
theorem compose_extract (fields : List Field) (h : ∀ i < 32, ∃ f ∈ fields, f.Covers i)
    (w : UInt32) : compose (fields.map fun f ↦ (f, f.extract w)) = w := by
  refine eq_of_getLsbD_eq fun i hi ↦ ?_
  rw [getLsbD_compose, List.any_map, Bool.eq_iff_iff, List.any_eq_true]
  simp only [Function.comp_apply, Field.getLsbD_place, Field.getLsbD_extract, Bool.and_eq_true,
    decide_eq_true_eq]
  constructor
  · rintro ⟨f, -, ⟨⟨-, hs⟩, -⟩, -, hbit⟩
    rwa [Nat.add_sub_cancel' hs] at hbit
  · intro hbit
    obtain ⟨f, hf, hs, hlt⟩ := h i hi
    exact ⟨f, hf, ⟨⟨hi, hs⟩, hlt⟩, by omega, by rwa [Nat.add_sub_cancel' hs]⟩

/-- The fields of the register format. -/
def RType.fields : List Field :=
  [Field.opcode, Field.rs, Field.rt, Field.rd, Field.shamt, Field.funct]

/-- The fields of the immediate format. -/
def IType.fields : List Field := [Field.opcode, Field.rs, Field.rt, Field.imm]

/-- The fields of the jump format. -/
def JType.fields : List Field := [Field.opcode, Field.target]

/-- The values of a word in the register format. -/
def RType.values (r : RType) : List UInt32 := [r.opcode, r.rs, r.rt, r.rd, r.shamt, r.funct]

/-- The values of a word in the immediate format. -/
def IType.values (r : IType) : List UInt32 := [r.opcode, r.rs, r.rt, r.imm]

/-- The values of a word in the jump format. -/
def JType.values (r : JType) : List UInt32 := [r.opcode, r.target]

theorem compose_rtype (w : UInt32) : compose (RType.fields.zip (RType.ofWord w).values) = w :=
  compose_extract RType.fields (by decide) w

theorem compose_itype (w : UInt32) : compose (IType.fields.zip (IType.ofWord w).values) = w :=
  compose_extract IType.fields (by decide) w

theorem compose_jtype (w : UInt32) : compose (JType.fields.zip (JType.ofWord w).values) = w :=
  compose_extract JType.fields (by decide) w

/-! ## Layouts

The fields of a family have two orders, the one in which they stand in a word, and the one in which
the operands are written, with the code in front. -/

/-- The layout of a family has the fields that its words are built from, each once. -/
theorem Family.layout_perm (f : Family) : f.layout.Perm f.usedFields := by cases f <;> decide

/-! ## The result

For any fields at all, for those of each mnemonic, and for the three formats. -/

/-- **Fields compose and read back.**  Given fields that are apart and end within the word, and a
value for each of them, the word composed of them has each value in its field, cut to the width of
the field, and no bit outside of the fields; it is the sum of the placed values, and it does not
depend on the order of the fields.  The layouts of all mnemonics are such fields, and they are the
fields that the words of the mnemonic are built from.  What is read from a word in any of the three
formats gives the word again.  A field of any shift and width reads back as much of a placed value
as fits into it and into the word. -/
theorem fields_compose_and_read_back :
    (∀ (fields : List Field) (values : List UInt32), fields.length = values.length →
      fields.Pairwise Field.Apart → (∀ f ∈ fields, f.shift + f.width ≤ 32) →
      let word := compose (fields.zip values)
      (∀ (i : Nat) (f : Field) (v : UInt32), fields[i]? = some f → values[i]? = some v →
        (f.extract word).toNat = v.toNat % 2 ^ f.width) ∧
      (∀ i, (∀ f ∈ fields, ¬f.Covers i) → word.toBitVec.getLsbD i = false) ∧
      word.toNat = ((fields.zipWith Field.place values).map UInt32.toNat).sum ∧
      ∀ pairs : List (Field × UInt32), pairs.Perm (fields.zip values) → compose pairs = word) ∧
    (∀ m : Mnemonic,
      m.family.layout.Pairwise Field.Apart ∧
      (∀ f ∈ m.family.layout, f.shift + f.width ≤ 32) ∧
      m.family.layout.Perm m.family.usedFields) ∧
    (∀ w : UInt32,
      compose (RType.fields.zip (RType.ofWord w).values) = w ∧
      compose (IType.fields.zip (IType.ofWord w).values) = w ∧
      compose (JType.fields.zip (JType.ofWord w).values) = w) ∧
    ∀ (f : Field) (v : UInt32),
      (f.extract (f.place v)).toNat =
        if f.shift < 32 then v.toNat % 2 ^ min f.width (32 - f.shift) else 0 := by
  refine ⟨fun fields values hlength hapart hfits ↦ ?_, fun m ↦ ?_,
    fun w ↦ ⟨compose_rtype w, compose_itype w, compose_jtype w⟩, Field.toNat_extract_place⟩
  · have hfst : (fields.zip values).map Prod.fst = fields :=
      List.map_fst_zip (Nat.le_of_eq hlength)
    have hpairs : (fields.zip values).Pairwise fun a b ↦ a.1.Apart b.1 := by
      rw [← List.pairwise_map (f := Prod.fst), hfst]
      exact hapart
    refine ⟨fun i f v hf hv ↦ ?_, fun i hi ↦ ?_, ?_, fun pairs hperm ↦ compose_perm hperm⟩
    · have hmem : (f, v) ∈ fields.zip values :=
        List.mem_of_getElem? (List.getElem?_zip_eq_some.mpr ⟨hf, hv⟩)
      exact Field.toNat_extract_compose (hfits f (List.mem_of_getElem? hf)) hmem hpairs
    · refine Field.getLsbD_compose_of_not_covers fun fv hfv ↦ hi fv.1 ?_
      rw [← hfst]
      exact List.mem_map_of_mem hfv
    · rw [toNat_compose hpairs, ← List.map_uncurry_zip_eq_zipWith, List.map_map]
      rfl
  · have hperm := m.family.layout_perm
    refine ⟨?_, fun f hf ↦ m.family.usedFields_fit f (hperm.mem_iff.mp hf), hperm⟩
    exact (hperm.pairwise_iff fun h ↦ h.symm).mpr
      (m.family.usedFields_disjoint.imp Field.Disjoint.apart)

/-- A field in the middle of the word, an empty one inside of it and one that reaches the last bit:
values that are too large for their fields are cut, and the or of what is left is its sum. -/
theorem fields_compose_and_read_back_cut :
    let fields : List Field :=
      [{ name := "middle", shift := 8, width := 4 }, { name := "empty", shift := 9, width := 0 },
        { name := "top", shift := 28, width := 4 }]
    let values : List UInt32 := [0x1a5, 7, 0xff]
    fields.Pairwise Field.Apart ∧
      ((Field.extract { name := "top", shift := 28, width := 4 }
          (compose (fields.zip values))).toNat = 15) ∧
      (compose (fields.zip values)).toNat = 0xf0000500 := by
  intro fields values
  have hapart : fields.Pairwise Field.Apart := by decide
  obtain ⟨hread, -, hsum, -⟩ :=
    fields_compose_and_read_back.1 fields values rfl hapart (by decide)
  exact ⟨hapart, hread 2 _ 0xff rfl rfl, hsum⟩

end MipsAsm
