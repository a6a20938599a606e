import MipsAsm.Proofs.Assembly.Basic
import MipsAsm.Proofs.Encoding.Decoding

/-!
# Branches land on their labels

The first pass finds the address of a label by counting the instructions that the lines before it
stand for.  The second finds the address of a branch from its position in the listing, and puts the
distance between the two into sixteen bits of its word.  Both count in the same listing, so the
distance is a whole number of words, and following it leads to the label.

* `Instruction.encode_branch` — what the word of a branch holds.
* `branch_lands_on_label` — from any branch, its distance leads to the first instruction at or after
  the line that defines its label.
-/

set_option autoImplicit false

namespace MipsAsm

/-! ## The word of a branch

The distance is put into the immediate field modulo 2 ^ 16. It was found to be between -32768 and
32767 before, so the field, read as a signed number of sixteen bits, is the distance again. -/

theorem toNat_extract_imm (w : UInt32) : (Field.imm.extract w).toNat = w.toNat % 2 ^ 16 := by
  have hmask : Field.imm.mask = 65535 := by decide
  have hand : (w &&& 65535).toNat = w.toNat % 2 ^ 16 := by
    rw [UInt32.toNat_and]
    exact Nat.and_two_pow_sub_one_eq_mod w.toNat 16
  rw [Field.extract, hmask]
  exact hand

/-- The low sixteen bits of a word, read as a signed number, are the number its immediate field was
made from. -/
theorem toInt_low_of_extract_imm {w : UInt32} {v : Int}
    (h : Field.imm.extract w = UInt32.ofInt (v % 2 ^ 16)) (hlower : -32768 ≤ v)
    (hupper : v ≤ 32767) : w.toUInt16.toInt16.toInt = v := by
  have hnat : (w.toNat : Int) % 2 ^ 16 = v % 2 ^ 16 := by
    have himm := congrArg (fun u : UInt32 ↦ (u.toNat : Int)) h
    simp only [toNat_extract_imm, toNat_ofInt] at himm
    omega
  rw [toInt_low, Int.bmod_def]
  split <;> omega

namespace Instruction

theorem family_of_branch {i : Instruction} (hbranch : i.mnemonic = "beq" ∨ i.mnemonic = "bne")
    {m : Mnemonic} (hm : Mnemonic.ofName? i.mnemonic = some m) : m.family = .branch := by
  rcases hbranch with hbranch | hbranch
  · rw [hbranch] at hm
    obtain rfl : Mnemonic.beq = m := Option.some.inj hm
    rfl
  · rw [hbranch] at hm
    obtain rfl : Mnemonic.bne = m := Option.some.inj hm
    rfl

/-- **What the word of a branch holds:** the distance to a label that is defined and can be
reached. -/
theorem encode_branch {limit : Int} {i : Instruction} {address w : UInt32} {tables tables' : Tables}
    (hbranch : i.mnemonic = "beq" ∨ i.mnemonic = "bne")
    (h : i.encode limit address tables = (tables', .ok w)) :
    ∃ rs rt label dest, i.args = [rs, rt, label] ∧
      tables.symbols.bind (·.find? label) = some dest ∧ canBranch address dest = true ∧
      w.toUInt16.toInt16.toInt = (branchOffset address dest).toInt := by
  obtain ⟨m, xs, hcheck, hxs, hadmits, hw, -⟩ := encode_eq_ok h
  obtain ⟨hm, -, hlength, -⟩ := check_eq_ok_iff.mp hcheck
  have hholds := Family.holds_fields m.cut_code hadmits.length_eq.symm
  rw [← hw, family_of_branch hbranch hm] at hholds
  rw [family_of_branch hbranch hm] at hxs hadmits hlength
  obtain ⟨rs, rt, label, hargs⟩ := List.length_eq_three.mp hlength
  rw [hargs] at hxs
  obtain _ | ⟨-, _ | ⟨-, _ | ⟨htarget, _ | _⟩⟩⟩ := hadmits
  obtain ⟨d, rfl, hlower, hupper⟩ := Operand.admits_branchTarget htarget
  have hmeaning : Operand.branchTarget.meaning? tables.symbols address label =
      some (.distance d) := by
    simp only [Family.operands, Operand.meanings?, Option.bind_eq_bind, Option.bind_eq_some_iff,
      Option.pure_def, Option.some.injEq, List.cons.injEq] at hxs
    obtain ⟨_, -, _, ⟨_, -, _, ⟨_, hd, _, -, rfl⟩, rfl⟩, -, -, rfl, -⟩ := hxs
    exact hd
  obtain ⟨dest, hdest, hd⟩ := Option.map_eq_some_iff.mp hmeaning
  obtain ⟨hfind, hreach⟩ := Option.filter_eq_some_iff.mp hdest
  obtain rfl := Operand.Meaning.distance.inj hd
  refine ⟨rs, rt, label, dest, hargs, hfind, hreach, ?_⟩
  exact toInt_low_of_extract_imm (hholds.distance (.tail _ (.tail _ (.head _)))) hlower hupper

end Instruction

/-! ## From a branch to its label

The address after a branch and the address of a label both are the base address and four times a
position, modulo 2 ^ 32. Their difference is a multiple of four even if one of them is past the end
of the address space and the other is not, so nothing is lost where it is divided by four. -/

/-- Any two positions of a listing are a whole number of words apart. -/
theorem toNat_addressOf_sub (base : UInt32) (j k : Nat) :
    (Image.addressOf base j - Image.addressOf base k).toNat % 4 = 0 := by
  have hwords : Image.addressOf base j - Image.addressOf base k =
      4 * (UInt32.ofNat j - UInt32.ofNat k) := by
    rw [Image.addressOf, Image.addressOf]
    grind
  have h4 : (4 : UInt32).toNat = 4 := rfl
  rw [hwords, UInt32.toNat_mul, h4]
  omega

/-- **Branches land on their labels.**  Say the second pass encodes line `k` of the listing, a
branch, to `w`.  Then the signed distance in the low half of `w`, counted in words from the
instruction after the branch, leads to the address of the label.  That is the address of the line of
the listing before which stand exactly the lines that come from source lines before the one that
defines the label. -/
theorem branch_lands_on_label (o : Options) (source : String) (a : Assembly) (k : Nat)
    (i : Instruction) (w : UInt32) (h : assemble o source = some a)
    (hi : a.instructionAt? k = some i) (hbranch : i.mnemonic = "beq" ∨ i.mnemonic = "bne")
    (hw : a.Encodes o k w) :
    ∃ rs rt label dest number, i.args = [rs, rt, label] ∧
      a.labels.find? label = some dest ∧ a.scan.labelLine? label = some number ∧
      Image.addressOf o.base k + 4 + UInt32.ofInt (4 * w.toUInt16.toInt16.toInt) = dest ∧
      dest = Image.addressOf o.base (a.scan.origins.toList.countP (· < number)) ∧
      a.scan.origins.toList.countP (· < number) =
        (expandLines ((Text.splitLines source.toList).take number)).length ∧
      ∀ j n, a.scan.origins[j]? = some n →
        (n < number ↔ j < a.scan.origins.toList.countP (· < number)) := by
  have hdescribes := assemble_describes h
  obtain ⟨i', hi', hword⟩ := Option.bind_eq_some_iff.mp (Assembly.wordAt?_of_encodes h hw)
  obtain rfl := Option.some.inj (hi.symm.trans hi')
  have houtcome : Image.outcome o a.labels k i = .ok w := eq_ok_of_toOption_eq_some hword
  obtain ⟨rs, rt, label, dest, hargs, hfind, hreach, hlow⟩ :=
    Instruction.encode_branch hbranch (Prod.ext rfl houtcome)
  obtain ⟨number, hnumber, hlt, hdest⟩ := hdescribes.scan.labelLine?_of_find? hfind
  -- the label is defined on a line that was read, so that all lines before it were
  have hbefore : ((Text.splitLines source.toList).take a.scan.lines).take number =
      (Text.splitLines source.toList).take number := by
    rw [List.length_take] at hlt
    rw [List.take_take, Nat.min_eq_left (by omega)]
  have hcount : a.scan.origins.toList.countP (· < number) =
      (expandLines ((Text.splitLines source.toList).take number)).length := by
    rw [hdescribes.scan.origins, countP_expandLines, hbefore]
  refine ⟨rs, rt, label, dest, number, hargs, hfind, hnumber, ?_, ?_, hcount, ?_⟩
  · rw [hlow]
    refine add_branchOffset hreach ?_
    rw [hdest]
    exact toNat_addressOf_sub o.base _ k
  · rw [hdest, hbefore, hcount]
  · intro j n hn
    rw [← Array.getElem?_toList, hdescribes.scan.origins, List.getElem?_map] at hn
    obtain ⟨e, he, rfl⟩ := Option.map_eq_some_iff.mp hn
    rw [lt_iff_of_getElem?_expandLines he, hbefore, hcount]

/-- A branch from the last address over a pseudo-instruction of two words, to a label beyond it. -/
theorem branch_lands_on_label_past_the_last_address :
    ∃ a, assemble { base := 0xfffffffc } "beq $0, $t0, y\nli $t1, 100000\ny: jr $ra" = some a ∧
      a.instructionAt? 0 = some ⟨"beq", ["$0", "$t0", "y"]⟩ ∧
      a.Encodes { base := 0xfffffffc } 0 0x10080002 ∧
      a.labels.find? "y" = some 8 ∧
      0xfffffffc + 4 + UInt32.ofInt (4 * (0x10080002 : UInt32).toUInt16.toInt16.toInt) = 8 := by
  have hrun : ((assemble { base := 0xfffffffc }
      "beq $0, $t0, y\nli $t1, 100000\ny: jr $ra").bind fun a ↦
        (a.imageAfter { base := 0xfffffffc } 0).bind fun before ↦
          (a.imageAfter { base := 0xfffffffc } 1).map fun after ↦
            (a.instructionAt? 0, before.placements.size, after.placements.size, a.words[0]?,
              a.labels.find? "y")) =
      some (some ⟨"beq", ["$0", "$t0", "y"]⟩, 0, 1, some 0x10080002, some 8) := by
    decide +kernel
  obtain ⟨a, ha, hrun⟩ := Option.bind_eq_some_iff.mp hrun
  obtain ⟨before, hbefore, hrun⟩ := Option.bind_eq_some_iff.mp hrun
  obtain ⟨after, hafter, hrun⟩ := Option.map_eq_some_iff.mp hrun
  simp only [Prod.mk.injEq] at hrun
  obtain ⟨hi, hzero, hone, hword, hy⟩ := hrun
  have hencodes : a.Encodes { base := 0xfffffffc } 0 0x10080002 :=
    ⟨before, after, hbefore, hafter, by omega, by rw [hzero, hword]⟩
  obtain ⟨rs, rt, label, dest, number, hargs, hfind, -, hlands, -⟩ :=
    branch_lands_on_label _ _ a 0 _ _ ha hi (.inl rfl) hencodes
  obtain ⟨rfl, rfl, rfl⟩ : "$0" = rs ∧ "$t0" = rt ∧ "y" = label := by simpa using hargs
  obtain rfl := Option.some.inj (hy.symm.trans hfind)
  exact ⟨a, ha, hi, hencodes, hy, hlands⟩

end MipsAsm
