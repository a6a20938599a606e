import MipsAsm.Proofs.Assembly.Room
import MipsAsm.Proofs.Machine.Words

/-!
# What pseudo-instructions mean

The description of a pseudo-instruction says what it does to the registers and to the memory, and
not which instructions it stands for.  Here those instructions are executed, and what the machine is
afterwards is compared with the description: for `subu`, the difference of two registers, for `mod`
the remainder of a division, and for `push` and then `pop` the value of a register, moved over the
stack.

Each of the descriptions is taken at its word, and for some operands it would be wrong.  `subu`
computes in `$at`, so a source that is `$at` would be read after it was changed, while a destination
that is `$at` does no harm.  To push the stack pointer would store it after it was moved.  These
operands are excluded by name; apart from that, registers may coincide.

The memory may be of either byte order, and a division by zero may give anything.  Both are
parameters of the machine, and the results hold for all of them.

* `Pseudo.operations` — the operations that a pseudo-instruction with the given registers names.
* `Pseudo.operation?_of_expand` — they are those of the instructions that it stands for.
* `Machine.performAll_subu`, `Machine.performAll_mod`, `Machine.performAll_push_pop` — what the
  machine is after these operations.
* `pseudo_instructions_mean_what_they_say` — the result, about the words from a source line.
-/

set_option autoImplicit false

namespace MipsAsm

theorem Register.isToken_of_ofName? {name : String} {r : Register} (h : ofName? name = some r) :
    Line.IsToken name := by
  have hnames : ∀ entry ∈ names, Line.IsToken entry.1 := by decide
  obtain ⟨before, after, heq, -⟩ := List.lookup_eq_some_iff.mp h
  exact hnames (name, r) (by simp [heq])

theorem Register.empty_not_mem {args : List String} {rs : List Register}
    (h : List.Forall₂ (fun arg r ↦ ofName? arg = some r) args rs) : "" ∉ args := by
  induction h with
  | nil => exact List.not_mem_nil
  | cons hr _ ih =>
    intro hmem
    rcases List.mem_cons.mp hmem with rfl | hmem
    · cases hr
    · exact ih hmem

theorem Instruction.expand_of_pseudo (p : Pseudo) {args : List String} (h : "" ∉ args) :
    expand ⟨p.name, args⟩ = p.expand args := by
  have hname : p.name ≠ "" ∧ Pseudo.ofName? p.name = some p := by cases p <;> decide
  rw [expand, if_neg (not_or_intro hname.1 h), hname.2]

/-! ## Operations

The operands of a pseudo-instruction are texts until here.  Once each is the name of a register,
what it stands for is a list of operations with these registers, and the rest is about the machine.
`li` has an operand that is a number and is treated on its own. -/

open Register (zero temporary stackPointer)

/-- The operations that a pseudo-instruction with the given registers names, if it has no other
operands. -/
def Pseudo.operations : Pseudo → List Register → List Operation
  | .push, [r] =>
    [.addiu stackPointer stackPointer (UInt16.ofInt (-4)), .sw r stackPointer (UInt16.ofInt 0)]
  | .pop, [q] =>
    [.lw q stackPointer (UInt16.ofInt 0), .addiu stackPointer stackPointer (UInt16.ofInt 4)]
  | .mod, [rd, rs, rt] => [.div rs rt, .mfhi rd]
  | .subu, [rd, rs, rt] =>
    [.addiu temporary zero (UInt16.ofInt (-1)), .xor temporary temporary rt,
      .addiu temporary temporary (UInt16.ofInt 1), .addu rd rs temporary]
  | _, _ => []

/-- What is read back from an operand that is a register. -/
theorem Register.reread_of_ofName? {name : String} {r : Register} (h : ofName? name = some r) :
    (if name = Pseudo.stackTop then ["0", "$sp"] else [name]) = [name] := by
  rw [if_neg]
  rintro rfl
  cases h

/-- **The instructions that a pseudo-instruction stands for name its operations.** -/
theorem Pseudo.operation?_of_expand {p : Pseudo} (hp : p ≠ .li) {args : List String}
    {rs : List Register} (hargs : List.Forall₂ (fun arg r ↦ Register.ofName? arg = some r) args rs)
    {is : List Instruction} (h : p.expand args = .ok is) :
    (is.map fun i ↦ i.reread.operation?) = (p.operations rs).map some := by
  have hmnemonics : Mnemonic.ofName? "addiu" = some .addiu ∧ Mnemonic.ofName? "sw" = some .sw ∧
      Mnemonic.ofName? "lw" = some .lw ∧ Mnemonic.ofName? "div" = some .div ∧
      Mnemonic.ofName? "mfhi" = some .mfhi ∧ Mnemonic.ofName? "xor" = some .xor ∧
      Mnemonic.ofName? "addu" = some .addu := by
    decide
  have hregisters : Register.ofName? "$0" = some zero ∧ Register.ofName? "$at" = some temporary ∧
      Register.ofName? "$sp" = some stackPointer := by
    decide
  have hnumbers : (Literal.parse "-4" (-32768) 32767).toOption = some (-4) ∧
      (Literal.parse "0" (-32768) 32767).toOption = some 0 ∧
      (Literal.parse "4" (-32768) 32767).toOption = some 4 ∧
      (Literal.parse "-1" (-32768) 32767).toOption = some (-1) ∧
      (Literal.parse "1" (-32768) 32767).toOption = some 1 := by
    decide
  have htop : stackTop = "0($sp)" := rfl
  rw [expand.eq_def] at h
  split at h
  case h_1 => exact absurd rfl hp
  case h_2 | h_3 =>
    obtain rfl := Except.ok.inj h
    obtain _ | ⟨hr, _ | _⟩ := hargs
    have hback := Register.reread_of_ofName? hr
    rw [htop] at hback
    -- what is read back first, then the mnemonics, which give the operands to be looked up
    simp only [Instruction.reread, htop, hback, List.map_cons, List.map_nil, List.flatMap_cons,
      List.flatMap_nil, List.cons_append, List.nil_append, String.reduceEq, ↓reduceIte]
    simp only [Instruction.operation?, hmnemonics, Option.bind_eq_bind, Option.bind_some]
    simp only [Mnemonic.family, Family.operands, Operand.signedImmediate, Operand.meanings?,
      Operand.meaning?, hregisters, hnumbers, hr, Option.map_some, Option.bind_eq_bind,
      Option.bind_some, Option.pure_def]
    rfl
  case h_4 | h_5 =>
    obtain rfl := Except.ok.inj h
    obtain _ | ⟨hd, _ | ⟨hs, _ | ⟨ht, _ | _⟩⟩⟩ := hargs
    have hback := Register.reread_of_ofName? hd
    have hback' := Register.reread_of_ofName? hs
    have hback'' := Register.reread_of_ofName? ht
    rw [htop] at hback hback' hback''
    simp only [Instruction.reread, htop, hback, hback', hback'', List.map_cons, List.map_nil,
      List.flatMap_cons, List.flatMap_nil, List.cons_append, List.nil_append, String.reduceEq,
      ↓reduceIte]
    simp only [Instruction.operation?, hmnemonics, Option.bind_eq_bind, Option.bind_some]
    simp only [Mnemonic.family, Family.operands, Operand.signedImmediate, Operand.meanings?,
      Operand.meaning?, hregisters, hnumbers, hd, hs, ht, Option.map_some, Option.bind_eq_bind,
      Option.bind_some, Option.pure_def]
    rfl
  case h_6 => cases h

/-! ## What the operations do

Each result is one equation that says what the whole machine is afterwards, so that it also says
what was not changed.  The conditions on registers are those under which a later operation does not
read what an earlier one has written: a source of `subu` must not be `$at`, and a register that is
pushed or popped must not be the stack pointer. -/

/-- A number of sixteen bits keeps its value when it is read with its sign. -/
theorem Operation.signExtend_ofInt {v : Int} (hlower : -32768 ≤ v) (hupper : v ≤ 32767) :
    signExtend (UInt16.ofInt v) = UInt32.ofInt v := by
  have hsigned : (UInt16.ofInt v).toInt16.toInt = ((UInt16.ofInt v).toNat : Int).bmod (2 ^ 16) :=
    BitVec.toInt_eq_toNat_bmod _
  have hself : v.bmod (2 ^ 16) = v := Int.bmod_eq_of_le (by omega) (by omega)
  rw [signExtend, hsigned, toNat_ofInt_low]
  exact congrArg UInt32.ofInt ((Int.emod_bmod v _).trans hself)

/-- The bits of a number turned over, and one more, are its negative. -/
theorem xor_add_one (x : UInt32) : (0xffffffff ^^^ x) + 1 = -x := by
  apply UInt32.eq_of_toBitVec_eq
  rw [UInt32.toBitVec_add, UInt32.toBitVec_xor, UInt32.toBitVec_neg, BitVec.neg_eq_not_add,
    ← BitVec.allOnes_xor]
  rfl

namespace Machine

open Operation (perform signExtend)

variable (p : Processor) (m : Machine) {q r rd rs rt : Register}

/-- The difference is the sum with the negative, which is left in the temporary register. -/
theorem performAll_subu (hrs : rs ≠ temporary) (hrt : rt ≠ temporary) :
    m.performAll p (Pseudo.subu.operations [rd, rs, rt]) =
      (m.write temporary (-m.read rt)).write rd (m.read rs - m.read rt) := by
  have htemporary : temporary ≠ zero := by decide
  have hminus : signExtend (UInt16.ofInt (-1)) = 0xffffffff := by decide
  have hone : signExtend (UInt16.ofInt 1) = 1 := by decide
  have hfirst : perform p m (.addiu temporary zero (UInt16.ofInt (-1))) =
      m.write temporary 0xffffffff := by
    rw [perform, m.read_zero, UInt32.zero_add, hminus]
  have hsecond : perform p (m.write temporary 0xffffffff) (.xor temporary temporary rt) =
      m.write temporary (0xffffffff ^^^ m.read rt) := by
    rw [perform, read_write_self _ _ htemporary, read_write_of_ne _ _ hrt, write_write]
  have hthird : perform p (m.write temporary (0xffffffff ^^^ m.read rt))
      (.addiu temporary temporary (UInt16.ofInt 1)) = m.write temporary (-m.read rt) := by
    rw [perform, read_write_self _ _ htemporary, hone, xor_add_one, write_write]
  rw [Pseudo.operations, performAll_cons, hfirst, performAll_cons, hsecond, performAll_cons, hthird,
    performAll_cons, perform, read_write_self _ _ htemporary, read_write_of_ne _ _ hrs,
    ← UInt32.sub_eq_add_neg]
  rfl

/-- A remainder is moved from where the division leaves it. -/
theorem performAll_mod :
    m.performAll p (Pseudo.mod.operations [rd, rs, rt]) =
      let result := p.divide (m.read rs) (m.read rt)
      { m with lo := result.1, hi := result.2 }.write rd result.2 :=
  rfl

/-- To push a register is to move the stack pointer down by a word and to store the register
there. -/
theorem performAll_push (hr : r ≠ stackPointer) :
    m.performAll p (Pseudo.push.operations [r]) =
      { m.write stackPointer (m.read stackPointer - 4) with
        memory := m.memory.storeWord p.order (m.read stackPointer - 4) (m.read r) } := by
  have hstack : stackPointer ≠ zero := by decide
  have hdown : signExtend (UInt16.ofInt (-4)) = -4 := by decide
  have hhere : signExtend (UInt16.ofInt 0) = 0 := by decide
  have hfirst : perform p m (.addiu stackPointer stackPointer (UInt16.ofInt (-4))) =
      m.write stackPointer (m.read stackPointer - 4) := by
    rw [perform, hdown, ← UInt32.sub_eq_add_neg]
  rw [Pseudo.operations, performAll_cons, hfirst, performAll_cons, perform,
    read_write_self _ _ hstack, read_write_of_ne _ _ hr, hhere, UInt32.add_zero, memory_write]
  rfl

/-- To pop a register is to load it from where the stack pointer points, which is then moved up by a
word. -/
theorem performAll_pop (hq : q ≠ stackPointer) :
    m.performAll p (Pseudo.pop.operations [q]) =
      (m.write q (m.memory.loadWord p.order (m.read stackPointer))).write stackPointer
        (m.read stackPointer + 4) := by
  have hup : signExtend (UInt16.ofInt 4) = 4 := by decide
  have hhere : signExtend (UInt16.ofInt 0) = 0 := by decide
  rw [Pseudo.operations, performAll_cons, performAll_cons, perform, perform, hhere, UInt32.add_zero,
    read_write_of_ne _ _ hq.symm, hup]
  rfl

/-- What is pushed is popped again, and the stack pointer is back where it was. -/
theorem performAll_push_pop (hr : r ≠ stackPointer) (hq : q ≠ stackPointer) :
    m.performAll p (Pseudo.push.operations [r] ++ Pseudo.pop.operations [q]) =
      ({ m.write stackPointer (m.read stackPointer - 4) with
        memory := m.memory.storeWord p.order (m.read stackPointer - 4) (m.read r) }.write q
          (m.read r)).write stackPointer (m.read stackPointer) := by
  have hstack : stackPointer ≠ zero := by decide
  have hread : ∀ memory, Machine.read
      { m.write stackPointer (m.read stackPointer - 4) with memory } stackPointer =
        m.read stackPointer - 4 :=
    fun _ ↦ m.read_write_self _ hstack
  rw [performAll_append, m.performAll_push p hr, performAll_pop p _ hq, hread,
    Memory.loadWord_storeWord, UInt32.sub_add_cancel]

end Machine

/-! ## The result

The equations are about operations, and an assembly has words.  That the words from a source line
are those of its operations holds in any program that was assembled to its end, with errors on other
lines or without. -/

/-- **What a remainder is.**  The quotient is rounded toward zero, so that the remainder has the
sign of the dividend. -/
theorem Processor.toInt_divide_snd (p : Processor) (x : UInt32) {y : UInt32} (hy : y ≠ 0) :
    (p.divide x y).2.toInt32.toInt = x.toInt32.toInt.tmod y.toInt32.toInt := by
  rw [divide, if_neg hy]
  exact Int32.toInt_mod x.toInt32 y.toInt32

namespace Assembly

variable {o : Options} {source : String} {a : Assembly} {number : Nat} {args : List String}
  {rs : List Register}

/-- The words from a source line with a pseudo-instruction are those of its operations. -/
theorem decode_wordsOf_pseudo (h : assemble o source = some a)
    (hcomplete : o.stopOnFirstError = true → a.hasErrors = false) {p : Pseudo} (hp : p ≠ .li)
    (hi : a.HasInstruction number ⟨p.name, args⟩)
    (hargs : List.Forall₂ (fun arg r ↦ Register.ofName? arg = some r) args rs)
    {is : List Instruction} (his : p.expand args = .ok is) :
    (a.wordsOf number).map Operation.decode = (p.operations rs).map some := by
  refine decode_wordsOf h hcomplete hi ?_ (Pseudo.operation?_of_expand hp hargs his)
  rw [Instruction.expand_of_pseudo p (Register.empty_not_mem hargs), his]

end Assembly

/-- **Pseudo-instructions mean what they say.**  Take any program that was assembled to its end, a
source line with a pseudo-instruction whose operands are registers, and any processor and machine.
The words from the line can be executed.

* `subu` with sources other than `$at` leaves the difference in its first register, which may be one
  of the others or `$at`.  No other register is changed but `$at`.
* `mod` leaves the remainder in its first register, as the division of what was in the other two
  leaves it.  No other register is changed.
* `push` and then `pop`, with registers other than the stack pointer, leave the stack pointer as it
  was and the value of the first register in the second.  No other register is changed, and no byte
  of the memory but the four below the stack pointer. -/
theorem pseudo_instructions_mean_what_they_say (o : Options) (source : String) (a : Assembly)
    (h : assemble o source = some a) (hcomplete : o.stopOnFirstError = true → a.hasErrors = false)
    (p : Processor) (m : Machine) :
    (∀ number d s t rd rs rt, a.HasInstruction number ⟨"subu", [d, s, t]⟩ →
      Register.ofName? d = some rd → Register.ofName? s = some rs → Register.ofName? t = some rt →
      rd ≠ zero → rs ≠ temporary → rt ≠ temporary →
      ∃ m', m.run p (a.wordsOf number) = some m' ∧
        m'.read rd = m.read rs - m.read rt ∧
        (∀ q, q ≠ rd → q ≠ temporary → m'.read q = m.read q) ∧
        m'.hi = m.hi ∧ m'.lo = m.lo ∧ m'.memory = m.memory) ∧
    (∀ number d s t rd rs rt, a.HasInstruction number ⟨"mod", [d, s, t]⟩ →
      Register.ofName? d = some rd → Register.ofName? s = some rs → Register.ofName? t = some rt →
      rd ≠ zero →
      ∃ m', m.run p (a.wordsOf number) = some m' ∧
        m'.hi = (p.divide (m.read rs) (m.read rt)).2 ∧ m'.read rd = m'.hi ∧
        (m.read rt ≠ 0 → (m'.read rd).toInt32.toInt =
          (m.read rs).toInt32.toInt.tmod (m.read rt).toInt32.toInt) ∧
        (∀ q, q ≠ rd → m'.read q = m.read q) ∧ m'.memory = m.memory) ∧
    ∀ number number' s d rs rd, a.HasInstruction number ⟨"push", [s]⟩ →
      a.HasInstruction number' ⟨"pop", [d]⟩ → Register.ofName? s = some rs →
      Register.ofName? d = some rd → rs ≠ stackPointer → rd ≠ stackPointer →
      ∃ m', m.run p (a.wordsOf number ++ a.wordsOf number') = some m' ∧
        m'.read stackPointer = m.read stackPointer ∧ (rd ≠ zero → m'.read rd = m.read rs) ∧
        (∀ q, q ≠ rd → m'.read q = m.read q) ∧ m'.hi = m.hi ∧ m'.lo = m.lo ∧
        m'.memory.loadWord p.order (m.read stackPointer - 4) = m.read rs ∧
        ∀ x, ¬Memory.Within (m.read stackPointer - 4) x → m'.memory x = m.memory x := by
  refine ⟨?_, ?_, ?_⟩
  · intro number d s t rd rs rt hi hd hs ht hzero hrs hrt
    have hwords := Assembly.decode_wordsOf_pseudo h hcomplete (p := .subu) (by decide) hi
      (.cons hd (.cons hs (.cons ht .nil))) rfl
    refine ⟨_, Machine.run_eq hwords p m, ?_⟩
    rw [m.performAll_subu p hrs hrt]
    refine ⟨Machine.read_write_self _ _ hzero, ?_, rfl, rfl, rfl⟩
    intro q hq hqt
    rw [Machine.read_write_of_ne _ _ hq, Machine.read_write_of_ne _ _ hqt]
  · intro number d s t rd rs rt hi hd hs ht hzero
    have hwords := Assembly.decode_wordsOf_pseudo h hcomplete (p := .mod) (by decide) hi
      (.cons hd (.cons hs (.cons ht .nil))) rfl
    refine ⟨_, Machine.run_eq hwords p m, ?_⟩
    rw [m.performAll_mod p]
    refine ⟨rfl, Machine.read_write_self _ _ hzero, ?_, ?_, rfl⟩
    · intro hne
      rw [Machine.read_write_self _ _ hzero]
      exact p.toInt_divide_snd (m.read rs) hne
    · intro q hq
      exact Machine.read_write_of_ne _ _ hq
  · intro number number' s d rs rd hpush hpop hs hd hrs hrd
    have hwords := Assembly.decode_wordsOf_pseudo h hcomplete (p := .push) (by decide) hpush
      (.cons hs .nil) rfl
    have hwords' := Assembly.decode_wordsOf_pseudo h hcomplete (p := .pop) (by decide) hpop
      (.cons hd .nil) rfl
    have hall : (a.wordsOf number ++ a.wordsOf number').map Operation.decode =
        (Pseudo.push.operations [rs] ++ Pseudo.pop.operations [rd]).map some := by
      rw [List.map_append, List.map_append, hwords, hwords']
    have hstack : stackPointer ≠ zero := by decide
    refine ⟨_, Machine.run_eq hall p m, ?_⟩
    rw [m.performAll_push_pop p hrs hrd]
    refine ⟨Machine.read_write_self _ _ hstack, ?_, ?_, rfl, rfl,
      Memory.loadWord_storeWord _ _ _ _, fun x hx ↦ Memory.storeWord_of_not_within _ _ _ _ hx⟩
    · intro hzero
      rw [Machine.read_write_of_ne _ _ hrd, Machine.read_write_self _ _ hzero]
    · intro q hq
      by_cases hqstack : q = stackPointer
      · rw [hqstack, Machine.read_write_self _ _ hstack]
      · rw [Machine.read_write_of_ne _ _ hqstack, Machine.read_write_of_ne _ _ hq]
        exact Machine.read_write_of_ne _ _ hqstack

/-- A difference in `$at`, a remainder in the register of the dividend, and a register moved over a
stack that is at the lowest addresses, with a line between that has an error.  Each register holds
its number, but for the stack pointer, which is two. -/
theorem pseudo_instructions_mean_what_they_say_in_place :
    let p : Processor := { order := .big, divideByZero := fun _ ↦ (0, 0) }
    let m : Machine :=
      { registers :=
          { read := fun r ↦ if r = stackPointer then 2 else UInt32.ofNat r.val
            read_zero := by decide }
        hi := 0, lo := 0, memory := fun _ ↦ 0 }
    let source := "subu $at, $t0, $t1\nmod $t1, $t1, $a1\npush $t1\npop $5\npop $t0"
    ∃ a, assemble {} source = some a ∧
      (∃ m', m.run p (a.wordsOf 0) = some m' ∧ m'.read temporary = 0xffffffff) ∧
      (∃ m', m.run p (a.wordsOf 1) = some m' ∧ (m'.read ⟨9, by decide⟩).toInt32.toInt = 4) ∧
      ∃ m', m.run p (a.wordsOf 2 ++ a.wordsOf 4) = some m' ∧ m'.read ⟨8, by decide⟩ = 9 ∧
        m'.memory 2 = 0 := by
  intro p m source
  have hlabels : (Text.splitLines source.toList).all
      (fun cs ↦ (Line.read cs).label?.isNone) = true := by
    decide +kernel
  have hjumps : (expandLines (Text.splitLines source.toList)).all
      (fun e ↦ !decide e.2.reread.IsJump) = true := by
    decide +kernel
  have hinstructions : (Text.splitLines source.toList).map (fun cs ↦ (Line.read cs).instruction?) =
      [some ⟨"subu", ["$at", "$t0", "$t1"]⟩, some ⟨"mod", ["$t1", "$t1", "$a1"]⟩,
        some ⟨"push", ["$t1"]⟩, some ⟨"pop", ["$5"]⟩, some ⟨"pop", ["$t0"]⟩] := by
    decide +kernel
  obtain ⟨a, ha⟩ : ∃ a, assemble {} source = some a := by
    refine exists_assemble_of_unlabelled (by decide) ?_ ?_
    · intro cs hcs name hname
      have hnone := List.all_eq_true.mp hlabels cs hcs
      rw [hname] at hnone
      cases hnone
    · intro e he hjump
      have hno := List.all_eq_true.mp hjumps e he
      simp [hjump] at hno
  have hline : ∀ number i, ((Text.splitLines source.toList).map
      fun cs ↦ (Line.read cs).instruction?)[number]? = some (some i) →
        a.HasInstruction number i := by
    intro number i hi
    rw [List.getElem?_map, Option.map_eq_some_iff] at hi
    obtain ⟨cs, hcs, hi⟩ := hi
    rw [← (assemble_describes ha).source, Array.getElem?_toList] at hcs
    exact ⟨cs, hcs, hi⟩
  rw [hinstructions] at hline
  obtain ⟨hsubu, hmod, hstack⟩ :=
    pseudo_instructions_mean_what_they_say {} _ a ha (fun hstop ↦ by cases hstop) p m
  refine ⟨a, ha, ?_, ?_, ?_⟩
  · obtain ⟨m', hrun, hread, -⟩ := hsubu 0 "$at" "$t0" "$t1" _ _ _
      (hline _ _ rfl) rfl rfl rfl (by decide) (by decide) (by decide)
    exact ⟨m', hrun, hread.trans (by decide)⟩
  · obtain ⟨m', hrun, -, -, hread, -⟩ := hmod 1 "$t1" "$t1" "$a1" _ _ _
      (hline _ _ rfl) rfl rfl rfl (by decide)
    exact ⟨m', hrun, (hread (by decide)).trans (by decide)⟩
  · obtain ⟨m', hrun, -, hread, -, -, -, -, hmemory⟩ := hstack 2 4 "$t1" "$t0" _ _
      (hline _ _ rfl) (hline _ _ rfl) rfl rfl (by decide)
      (by decide)
    exact ⟨m', hrun, (hread (by decide)).trans (by decide), hmemory 2 (by decide)⟩

end MipsAsm
