import MipsAsm.Register

/-!
# A machine for words

What a word does when it is executed is not part of the assembler, and it is said here without it:
which bits of a word say what, and what the machine is afterwards.  Only those instructions are here
that pseudo-instructions stand for.  None of them is a branch or a jump, so that the words of a
pseudo-instruction are executed in order.

Registers and memory are functions, so that a state can be compared as a whole and the equations for
reading after writing are the only ones that are needed.  The constants of instructions are sixteen
bits wide; which of them are read with a sign is said in `Operation.perform`.

* `Registers` — a register file.  The first register is zero whatever is written to it.
* `Machine` — registers, the two result registers of a division, and the bytes of the memory.
* `Processor` — what the description of the instructions leaves open: in which order the bytes of a
  word are stored, and what a division by zero gives.
* `Operation.decode` — the operation of a word.
* `Operation.perform` — what an operation does, and `Machine.run`, the same for words in order.
-/

set_option autoImplicit false

namespace MipsAsm

namespace Register

/-- The register that is always zero. -/
def zero : Register := ⟨0, by decide⟩

/-- The register that pseudo-instructions may change besides their own, `$at`. -/
def temporary : Register := ⟨1, by decide⟩

/-- The stack pointer. -/
def stackPointer : Register := ⟨29, by decide⟩

end Register

/-! ## Registers

A register file is a function with the proof that the first register is zero, so that no write can
change that. -/

/-- What is in the registers. -/
@[ext]
structure Registers where
  /-- The value of a register. -/
  read : Register → UInt32
  /-- The first register is zero. -/
  read_zero : read .zero = 0

namespace Registers

/-- Put a value into a register.  The first register stays zero. -/
def write (rs : Registers) (r : Register) (v : UInt32) : Registers where
  read q := if q = r ∧ q ≠ .zero then v else rs.read q
  read_zero := by rw [if_neg (not_and_of_not_right _ (not_not_intro rfl)), rs.read_zero]

variable (rs : Registers) {q r : Register} (v : UInt32)

theorem read_write_self (h : r ≠ .zero) : (rs.write r v).read r = v := if_pos ⟨rfl, h⟩

theorem read_write_of_ne (h : q ≠ r) : (rs.write r v).read q = rs.read q :=
  if_neg (not_and_of_not_left _ h)

theorem write_write (u : UInt32) : (rs.write r u).write r v = rs.write r v := by
  ext q : 2
  by_cases hq : q = r ∧ q ≠ .zero
  · simp only [write, if_pos hq]
  · simp only [write, if_neg hq]

end Registers

/-! ## Memory

Memory is bytes, and words are put there byte by byte, in an order that the assembler does not fix.
That a stored word is loaded again is shown for both orders at once, as the places of the bytes are
a permutation that undoes itself.  Addresses wrap around at 2 ^ 32. -/

/-- The bytes at all addresses. -/
abbrev Memory := UInt32 → UInt8

/-- The order in which the bytes of a word are stored. -/
inductive ByteOrder where
  /-- The least significant byte comes first. -/
  | little
  /-- The most significant byte comes first. -/
  | big
deriving DecidableEq, Repr

/-- How far from the address of a word its byte of the weight 256 ^ `k` is stored. -/
def ByteOrder.place : ByteOrder → Nat → Nat
  | .little, k => k
  | .big, k => 3 - k

theorem ByteOrder.place_lt (order : ByteOrder) {k : Nat} (hk : k < 4) : order.place k < 4 := by
  cases order with
  | little => exact hk
  | big => exact Nat.lt_of_le_of_lt (Nat.sub_le 3 k) (by decide)

theorem ByteOrder.place_place (order : ByteOrder) {k : Nat} (hk : k < 4) :
    order.place (order.place k) = k := by
  cases order with
  | little => rfl
  | big => exact Nat.sub_sub_self (Nat.le_of_lt_succ hk)

namespace Memory

/-- The address is that of one of the four bytes from `start` on. -/
def Within (start x : UInt32) : Prop := (x - start).toNat < 4

instance (start x : UInt32) : Decidable (Within start x) := inferInstanceAs (Decidable (_ < _))

/-- The byte of a word of the weight 256 ^ `k`. -/
def byteOf (w : UInt32) (k : Nat) : UInt8 := UInt8.ofNat (w.toNat >>> (8 * k))

/-- The word with the given bytes, by their weights. -/
def wordOf (byte : Nat → UInt8) : UInt32 :=
  UInt32.ofNat ((byte 0).toNat + 256 * (byte 1).toNat + 65536 * (byte 2).toNat +
    16777216 * (byte 3).toNat)

/-- The word whose bytes stand from `start` on. -/
def loadWord (order : ByteOrder) (memory : Memory) (start : UInt32) : UInt32 :=
  wordOf fun k ↦ memory (start + UInt32.ofNat (order.place k))

/-- Put the bytes of a word from `start` on. -/
def storeWord (order : ByteOrder) (memory : Memory) (start w : UInt32) : Memory :=
  fun x ↦ if Within start x then byteOf w (order.place (x - start).toNat) else memory x

theorem wordOf_byteOf (w : UInt32) : wordOf (byteOf w) = w := by
  have hbyte : ∀ k, (byteOf w k).toNat = w.toNat >>> (8 * k) % 256 := fun k ↦ UInt8.toNat_ofNat'
  have hlt := w.toNat_lt
  apply UInt32.toNat_inj.mp
  simp only [wordOf, UInt32.toNat_ofNat', hbyte, Nat.shiftRight_eq_div_pow]
  omega

variable (order : ByteOrder) (memory : Memory) (start w : UInt32)

/-- **A word that was stored is loaded again.** -/
theorem loadWord_storeWord : loadWord order (storeWord order memory start w) start = w := by
  have hbyte : ∀ k < 4,
      storeWord order memory start w (start + UInt32.ofNat (order.place k)) = byteOf w k := by
    intro k hk
    have hplace := order.place_lt hk
    have hdistance : (start + UInt32.ofNat (order.place k) - start).toNat = order.place k := by
      rw [UInt32.add_comm, UInt32.add_sub_cancel, UInt32.toNat_ofNat']
      omega
    have hwithin : Within start (start + UInt32.ofNat (order.place k)) := by
      show _ < 4
      rwa [hdistance]
    rw [storeWord, if_pos hwithin, hdistance, order.place_place hk]
  rw [loadWord, wordOf, hbyte 0 (by decide), hbyte 1 (by decide), hbyte 2 (by decide),
    hbyte 3 (by decide)]
  exact wordOf_byteOf w

/-- A word that is stored leaves all other bytes alone. -/
theorem storeWord_of_not_within {x : UInt32} (h : ¬Within start x) :
    storeWord order memory start w x = memory x :=
  if_neg h

end Memory

/-! ## Machines

The state has no program counter.  None of the operations needs one, and words of a
pseudo-instruction stand one after the other. -/

/-- The state of a machine, as far as instructions that are no jumps can see it. -/
structure Machine where
  /-- The registers. -/
  registers : Registers
  /-- The remainder of the last division. -/
  hi : UInt32
  /-- The quotient of the last division. -/
  lo : UInt32
  /-- The memory. -/
  memory : Memory

namespace Machine

/-- The value of a register. -/
def read (m : Machine) (r : Register) : UInt32 := m.registers.read r

/-- Put a value into a register. -/
def write (m : Machine) (r : Register) (v : UInt32) : Machine :=
  { m with registers := m.registers.write r v }

variable (m : Machine) {q r : Register} (v : UInt32)

@[simp]
theorem read_zero : m.read .zero = 0 := m.registers.read_zero

theorem read_write_self (h : r ≠ .zero) : (m.write r v).read r = v :=
  m.registers.read_write_self v h

theorem read_write_of_ne (h : q ≠ r) : (m.write r v).read q = m.read q :=
  m.registers.read_write_of_ne v h

theorem write_write (u : UInt32) : (m.write r u).write r v = m.write r v := by
  rw [write, write, write, m.registers.write_write]

@[simp]
theorem memory_write : (m.write r v).memory = m.memory := rfl

@[simp]
theorem hi_write : (m.write r v).hi = m.hi := rfl

@[simp]
theorem lo_write : (m.write r v).lo = m.lo := rfl

end Machine

/-- What the description of the instructions leaves open. -/
structure Processor where
  /-- The order in which the bytes of a word are stored. -/
  order : ByteOrder
  /-- The quotient and the remainder of a division of the given number by zero. -/
  divideByZero : UInt32 → UInt32 × UInt32

/-- The quotient and the remainder of two words as signed numbers.  The quotient is rounded toward
zero. -/
def Processor.divide (p : Processor) (x y : UInt32) : UInt32 × UInt32 :=
  if y = 0 then p.divideByZero x
  else ((x.toInt32 / y.toInt32).toUInt32, (x.toInt32 % y.toInt32).toUInt32)

/-! ## Operations

Words are decoded from their bits, and not from the fields that the encoder uses, so that the
machine says independently of the encoder what a word is.  A word for which no operation is given
here cannot be executed, and `Machine.run` is `none` then: a run that exists has executed every
word. -/

/-- What a word tells the machine to do. -/
inductive Operation where
  /-- The sum of two registers. -/
  | addu (rd rs rt : Register)
  /-- The bits in which two registers differ. -/
  | xor (rd rs rt : Register)
  /-- The sum of a register and a signed constant. -/
  | addiu (rt rs : Register) (imm : UInt16)
  /-- The bits of a register and of a constant. -/
  | ori (rt rs : Register) (imm : UInt16)
  /-- A constant in the upper half of a register, and zeros in the lower. -/
  | lui (rt : Register) (imm : UInt16)
  /-- Load a word. -/
  | lw (rt base : Register) (offset : UInt16)
  /-- Store a word. -/
  | sw (rt base : Register) (offset : UInt16)
  /-- Divide two registers. -/
  | div (rs rt : Register)
  /-- The remainder of the last division. -/
  | mfhi (rd : Register)
deriving DecidableEq, Repr

namespace Operation

/-- The number in `width` bits of a word, from the bit `low` up. -/
def bits (w : UInt32) (low width : Nat) : Nat := (w.toBitVec.extractLsb' low width).toNat

/-- The register in five bits of a word, from the bit `low` up. -/
def registerAt (w : UInt32) (low : Nat) : Register := (w.toBitVec.extractLsb' low 5).toFin

/-- The operation of a word whose topmost six bits are zero.  The lowest eleven bits tell which it
is, and registers that it does not have are zero. -/
def decodeSpecial (w : UInt32) : Option Operation :=
  let rs := registerAt w 21
  let rt := registerAt w 16
  let rd := registerAt w 11
  match bits w 0 11 with
  | 0x10 => if rs = .zero ∧ rt = .zero then some (mfhi rd) else none
  | 0x1a => if rd = .zero then some (div rs rt) else none
  | 0x21 => some (addu rd rs rt)
  | 0x26 => some (xor rd rs rt)
  | _ => none

/-- The operation of a word, if it has one.  The topmost six bits tell which it is. -/
def decode (w : UInt32) : Option Operation :=
  let rs := registerAt w 21
  let rt := registerAt w 16
  let imm := w.toUInt16
  match bits w 26 6 with
  | 0x00 => decodeSpecial w
  | 0x09 => some (addiu rt rs imm)
  | 0x0d => some (ori rt rs imm)
  | 0x0f => if rs = .zero then some (lui rt imm) else none
  | 0x23 => some (lw rt rs imm)
  | 0x2b => some (sw rt rs imm)
  | _ => none

/-- A signed constant as a word. -/
def signExtend (imm : UInt16) : UInt32 := UInt32.ofInt imm.toInt16.toInt

/-- What an operation does. -/
def perform (p : Processor) (m : Machine) : Operation → Machine
  | addu rd rs rt => m.write rd (m.read rs + m.read rt)
  | xor rd rs rt => m.write rd (m.read rs ^^^ m.read rt)
  | addiu rt rs imm => m.write rt (m.read rs + signExtend imm)
  | ori rt rs imm => m.write rt (m.read rs ||| imm.toUInt32)
  | lui rt imm => m.write rt (imm.toUInt32 <<< 16)
  | lw rt base offset =>
    m.write rt (m.memory.loadWord p.order (m.read base + signExtend offset))
  | sw rt base offset =>
    { m with
      memory := m.memory.storeWord p.order (m.read base + signExtend offset) (m.read rt) }
  | div rs rt =>
    { m with
      lo := (p.divide (m.read rs) (m.read rt)).1
      hi := (p.divide (m.read rs) (m.read rt)).2 }
  | mfhi rd => m.write rd m.hi

end Operation

namespace Machine

/-- Perform operations in order. -/
def performAll (p : Processor) (m : Machine) (ops : List Operation) : Machine :=
  ops.foldl (Operation.perform p) m

theorem performAll_cons (p : Processor) (m : Machine) (op : Operation) (ops : List Operation) :
    m.performAll p (op :: ops) = (Operation.perform p m op).performAll p ops :=
  rfl

theorem performAll_append (p : Processor) (m : Machine) (ops ops' : List Operation) :
    m.performAll p (ops ++ ops') = (m.performAll p ops).performAll p ops' :=
  List.foldl_append

/-- Execute words in order, if they all have operations. -/
def run (p : Processor) (m : Machine) (words : List UInt32) : Option Machine :=
  words.foldlM (fun m w ↦ (Operation.decode w).map (Operation.perform p m)) m

/-- **A run of words performs their operations.** -/
theorem run_eq {words : List UInt32} {ops : List Operation}
    (h : words.map Operation.decode = ops.map some) (p : Processor) (m : Machine) :
    m.run p words = some (m.performAll p ops) := by
  induction words generalizing ops m with
  | nil =>
    obtain rfl : ops = [] := by simpa using h.symm
    rfl
  | cons w words ih =>
    obtain ⟨op, ops, rfl⟩ : ∃ op ops', ops = op :: ops' :=
      List.exists_cons_of_ne_nil (by rintro rfl; cases h)
    rw [List.map_cons, List.map_cons, List.cons.injEq] at h
    rw [run, List.foldlM_cons, h.1, Option.map_some, Option.bind_eq_bind, Option.bind_some]
    exact ih h.2 _

end Machine
end MipsAsm
