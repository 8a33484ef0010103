import Mathlib

/-!
# `Insn_t`: the packed instruction descriptor

The predecoder turns every instruction into eight bytes: a 16-bit opcode, two
signed register bytes and a 32-bit union that is either a 16-bit immediate
with two more register bytes or one long immediate. A short immediate is
stored shifted left by three with the lowest bit set; a long immediate is
stored as it is, its lowest bit zero, and that bit tells the two apart.

The union is kept as the fields of its first form, and the long immediate is
read and written as what lies over them (`op_longimm`, `setLongimm`), so that
a descriptor can be read in the form in which it was not written, as in C.

The constructors are those of `instructions.cc`, under their names. The lemmas
say what `immed()` returns on what each of them packs: the low 13 bits of a
short immediate, with their sign (`immed_reg1imm`, `immed_reg2imm`), and a
long one whole if its lowest bit is zero (`immed_reg0imm`). They are stated in
bits, since the packing is by shifts.

The opcodes come in the sections of crunch_isa's list. Those with Spike's
semantics are only known by the four that `substitute_cas` looks at; the
others are numbers.
-/

namespace Cavatools.Uspike

/-- A 64-bit machine word: a register, an address, a C `long`. -/
abbrev Long := BitVec 64

/-! ## Opcodes -/

/-- The compressed opcodes, in the order of RVC.bits. -/
inductive COp
  | c_addi4spn | c_fld | c_lw | c_ld | c_fsd | c_sw | c_sd
  | c_addi | c_addiw | c_li | c_addi16sp | c_lui | c_srli | c_srai | c_andi
  | c_sub | c_xor | c_or | c_and | c_subw | c_addw | c_j | c_beqz | c_bnez
  | c_slli | c_fldsp | c_lwsp | c_ldsp | c_jr | c_mv | c_ebreak | c_jalr | c_add
  | c_fsdsp | c_swsp | c_sdsp
  deriving DecidableEq, Repr

/-- The full-size opcodes with an action in RV.fast. -/
inductive FastOp
  | lui | auipc | jal | jalr | beq | bne | blt | bge | bltu | bgeu
  | lb | lh | lw | ld | lbu | lhu | lwu | sb | sh | sw | sd
  | addi | addiw | slti | sltiu | xori | ori | andi | slli | srli | srai
  | slliw | srliw | sraiw
  | add | sub | sll | slt | sltu | xor | srl | sra | or | and
  | addw | subw | sllw | srlw | sraw
  | cas12_w | cas12_d | cas10_w | cas10_d
  | ecall
  deriving DecidableEq, Repr

/-- The opcodes with Spike semantics; only the four that `substitute_cas` looks
at have names here. -/
inductive SpikeOp
  | lr_w | lr_d | sc_w | sc_d
  | other (n : Nat)
  deriving DecidableEq, Repr

/-- `Opcode_t`, in the sections of crunch_isa's `opcode_list`. -/
inductive Opcode
  | ZERO
  | c (op : COp)
  | fast (op : FastOp)
  | spike (op : SpikeOp)
  | ILLEGAL
  | UNKNOWN
  deriving DecidableEq, Repr

/-- `op_code <= Last_Compressed_Opcode`: the compressed opcodes come first in
the list, after ZERO. -/
def Opcode.compressed : Opcode → Bool
  | .ZERO => true
  | .c _ => true
  | _ => false

/-! ## The descriptor -/

/-- `NOREG`, as an `int8_t`. -/
def NOREG : BitVec 8 := 0xff#8

/-- `Insn_t`. The union is kept as its three fields `op.imm`, `op.rs2`, `op.rs3`
(bytes 0 and 1, byte 2, byte 3); `op_longimm` is the same four bytes as one word. -/
structure Insn where
  op_code : Opcode
  op_rd : BitVec 8
  op_rs1 : BitVec 8
  op_imm : BitVec 16
  op_rs2 : BitVec 8
  op_rs3 : BitVec 8
  deriving DecidableEq, Repr

namespace Insn

def op_longimm (i : Insn) : BitVec 32 :=
  i.op_rs3.setWidth 32 <<< 24 ||| i.op_rs2.setWidth 32 <<< 16 ||| i.op_imm.setWidth 32

/-- Assignment to `op_longimm`. -/
def setLongimm (i : Insn) (v : BitVec 32) : Insn :=
  { i with op_imm := v.extractLsb' 0 16, op_rs2 := v.extractLsb' 16 8, op_rs3 := v.extractLsb' 24 8 }

def opcode (i : Insn) : Opcode := i.op_code
def rd (i : Insn) : BitVec 8 := i.op_rd
def rs1 (i : Insn) : BitVec 8 := i.op_rs1
def rs2 (i : Insn) : BitVec 8 := i.op_rs2
def rs3 (i : Insn) : BitVec 8 := i.op_rs3

/-- `(op.imm & 0x1) ? op.imm >> 3 : op_longimm`. -/
def immed (i : Insn) : Long :=
  if i.op_imm.getLsbD 0 then (i.op_imm.sshiftRight 3).signExtend 64 else i.op_longimm.signExtend 64

def compressed (i : Insn) : Bool := i.op_code.compressed

def longimmed (i : Insn) : Bool := !i.op_imm.getLsbD 0

/-- `Insn_t(code)`: every byte but the opcode is -1. -/
def ofCode (code : Opcode) : Insn := ⟨code, NOREG, NOREG, -1#16, NOREG, NOREG⟩

/-- `Insn_t(code, rd, imm)`. -/
def ofImm (code : Opcode) (rd : BitVec 8) (imm : BitVec 16) : Insn :=
  { ofCode code with op_rd := rd, op_imm := imm <<< 3 ||| 1#16 }

end Insn

/-! ## The constructors of `instructions.cc` -/

def reg1insn (code : Opcode) (rd rs1 : BitVec 8) : Insn :=
  { Insn.ofCode code with op_rd := rd, op_rs1 := rs1 }

def reg2insn (code : Opcode) (rd rs1 rs2 : BitVec 8) : Insn :=
  { Insn.ofCode code with op_rd := rd, op_rs1 := rs1, op_rs2 := rs2 }

def reg3insn (code : Opcode) (rd rs1 rs2 rs3 : BitVec 8) : Insn :=
  { Insn.ofCode code with op_rd := rd, op_rs1 := rs1, op_rs2 := rs2, op_rs3 := rs3 }

def reg0imm (code : Opcode) (rd : BitVec 8) (longimmed : BitVec 32) : Insn :=
  { Insn.ofCode code with op_rd := rd }.setLongimm longimmed

def reg1imm (code : Opcode) (rd rs1 : BitVec 8) (imm : BitVec 16) : Insn :=
  { Insn.ofImm code rd imm with op_rs1 := rs1 }

def reg2imm (code : Opcode) (rd rs1 rs2 : BitVec 8) (imm : BitVec 16) : Insn :=
  { Insn.ofImm code rd imm with op_rs1 := rs1, op_rs2 := rs2 }

/-! ## What `immed()` returns -/

/-- What was assigned to the long immediate is read from it. -/
@[simp] theorem op_longimm_setLongimm (i : Insn) (v : BitVec 32) :
    (i.setLongimm v).op_longimm = v := by
  apply BitVec.eq_of_getLsbD_eq
  intro k hk
  simp only [Insn.op_longimm, Insn.setLongimm, BitVec.getLsbD_or, BitVec.getLsbD_shiftLeft,
    BitVec.getLsbD_setWidth, BitVec.getLsbD_extractLsb', hk, decide_true, Bool.true_and]
  rcases Nat.lt_or_ge k 16 with h16 | h16
  · simp [h16, show k < 24 by omega]
  · rcases Nat.lt_or_ge k 24 with h24 | h24
    · simp [h24, show ¬ k < 16 by omega, show k - 16 < 8 by omega, show k - 16 < 32 by omega,
        show 16 + (k - 16) = k by omega]
    · simp [show ¬ k < 24 by omega, show ¬ k < 16 by omega, show ¬ k - 16 < 8 by omega,
        show k - 24 < 8 by omega, show k - 24 < 32 by omega, show 24 + (k - 24) = k by omega]

/-- The packed short immediate is the low 13 bits of what was packed. -/
theorem sshiftRight_pack (imm : BitVec 16) :
    ((imm <<< 3 ||| 1#16).sshiftRight 3).signExtend 64 = (imm.setWidth 13).signExtend 64 := by
  apply BitVec.eq_of_getLsbD_eq
  intro k hk
  have hmsb : (imm <<< 3 ||| 1#16).msb = imm.getLsbD 12 := by
    rw [BitVec.msb_eq_getLsbD_last]
    simp
  simp only [BitVec.getLsbD_signExtend, BitVec.getLsbD_sshiftRight, BitVec.msb_sshiftRight, hmsb,
    BitVec.getLsbD_setWidth, BitVec.msb_eq_getLsbD_last (imm.setWidth 13), hk, decide_true,
    Bool.true_and]
  rcases Nat.lt_or_ge k 13 with h13 | h13
  · simp [h13, show k < 16 by omega, show ¬ 16 ≤ k by omega, show 3 + k < 16 by omega]
  · rcases Nat.lt_or_ge k 16 with h16 | h16
    · simp [h16, show ¬ k < 13 by omega, show ¬ 3 + k < 16 by omega, show ¬ 16 ≤ k by omega]
    · simp [show ¬ k < 16 by omega, show ¬ k < 13 by omega]

theorem getLsbD_pack_zero (imm : BitVec 16) : (imm <<< 3 ||| 1#16).getLsbD 0 = true := by
  simp

@[simp] theorem immed_reg1imm (code : Opcode) (rd rs1 : BitVec 8) (imm : BitVec 16) :
    (reg1imm code rd rs1 imm).immed = (imm.setWidth 13).signExtend 64 := by
  unfold Insn.immed
  show (if (imm <<< 3 ||| 1#16).getLsbD 0 then ((imm <<< 3 ||| 1#16).sshiftRight 3).signExtend 64
    else _) = _
  rw [if_pos (getLsbD_pack_zero imm), sshiftRight_pack]

@[simp] theorem immed_reg2imm (code : Opcode) (rd rs1 rs2 : BitVec 8) (imm : BitVec 16) :
    (reg2imm code rd rs1 rs2 imm).immed = (imm.setWidth 13).signExtend 64 := by
  unfold Insn.immed
  show (if (imm <<< 3 ||| 1#16).getLsbD 0 then ((imm <<< 3 ||| 1#16).sshiftRight 3).signExtend 64
    else _) = _
  rw [if_pos (getLsbD_pack_zero imm), sshiftRight_pack]

/-- A long immediate comes back whole when its lowest bit is zero. -/
theorem immed_reg0imm {code : Opcode} {rd : BitVec 8} {v : BitVec 32} (h : v.getLsbD 0 = false) :
    (reg0imm code rd v).immed = v.signExtend 64 := by
  have h0 : (reg0imm code rd v).op_imm.getLsbD 0 = false := by
    simpa [reg0imm, Insn.setLongimm] using h
  unfold Insn.immed
  rw [h0, if_neg (by simp), reg0imm, op_longimm_setLongimm]

end Cavatools.Uspike
