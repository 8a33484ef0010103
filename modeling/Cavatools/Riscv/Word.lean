import Cavatools.Riscv.Compressed
import Cavatools.Riscv.Rv64i

/-!
# The word instructions

The instructions of RV64I that compute in 32 bits, and the three compressed
ones of the same kind. All of them take the low halves of their operands and
write the 64-bit sign extension of their 32-bit result. A shift amount is five
bits: those of the encoding, or the low five of `rs2`.

They stand apart from the other base instructions because the host's own
32-bit operations are what a simulator computes them with, and those behave
differently at the ends: a shift by 32 or more, a sign that is or is not
extended. `Word.Encodes` gives the encodings, `Word.dest`, `Word.src1` and
`Word.src2` the registers of either form, `Word.operand` the second operand, a
register or the immediate, and `Word.result` the 32-bit result on two 64-bit
operands. `Word.value` is what is written, one definition for all of them.
-/

namespace Cavatools.Riscv

inductive Word
  | addiw | slliw | srliw | sraiw | addw | subw | sllw | srlw | sraw
  | c_addiw | c_addw | c_subw
  deriving DecidableEq, Repr

section
variable (w : BitVec 32)

/-- The five-bit shift amount of the word shifts. -/
def shamtw : BitVec 64 := immOf false [(24, 20)] 0 w

/-- The low halfword, which a compressed instruction is. -/
def half : BitVec 16 := w.setWidth 16

def Word.Encodes : Word → Prop
  | .addiw => opcode w = 0x1b ∧ funct3 w = 0
  | .slliw => opcode w = 0x1b ∧ funct3 w = 1 ∧ funct7 w = 0
  | .srliw => opcode w = 0x1b ∧ funct3 w = 5 ∧ funct7 w = 0
  | .sraiw => opcode w = 0x1b ∧ funct3 w = 5 ∧ funct7 w = 0x20
  | .addw => opcode w = 0x3b ∧ funct3 w = 0 ∧ funct7 w = 0
  | .subw => opcode w = 0x3b ∧ funct3 w = 0 ∧ funct7 w = 0x20
  | .sllw => opcode w = 0x3b ∧ funct3 w = 1 ∧ funct7 w = 0
  | .srlw => opcode w = 0x3b ∧ funct3 w = 5 ∧ funct7 w = 0
  | .sraw => opcode w = 0x3b ∧ funct3 w = 5 ∧ funct7 w = 0x20
  | .c_addiw => Legal (half w) .c_addiw
  | .c_addw => Legal (half w) .c_addw
  | .c_subw => Legal (half w) .c_subw

def Word.dest : Word → BitVec 5
  | .c_addiw => cRd (half w)
  | .c_addw | .c_subw => cRs1' (half w)
  | _ => rd w

def Word.src1 : Word → BitVec 5
  | .c_addiw => cRd (half w)
  | .c_addw | .c_subw => cRs1' (half w)
  | _ => rs1 w

def Word.src2 : Word → BitVec 5
  | .c_addw | .c_subw => cRd' (half w)
  | _ => rs2 w

/-- Whether the second operand is a register; else it is the immediate. -/
def Word.usesReg : Word → Bool
  | .addw | .subw | .sllw | .srlw | .sraw | .c_addw | .c_subw => true
  | _ => false

/-- The immediate of those that have one. -/
def Word.imm : Word → BitVec 64
  | .c_addiw => cImm6 (half w) true
  | .slliw | .srliw | .sraiw => shamtw w
  | _ => immI w

/-- The second operand. -/
def Word.operand (i : Word) (x : BitVec 5 → BitVec 64) : BitVec 64 :=
  if i.usesReg then x (i.src2 w) else i.imm w

/-- The 32-bit result on the two operands. -/
def Word.result (a b : BitVec 64) : Word → BitVec 32
  | .addiw | .addw | .c_addiw | .c_addw => a.setWidth 32 + b.setWidth 32
  | .subw | .c_subw => a.setWidth 32 - b.setWidth 32
  | .slliw | .sllw => a.setWidth 32 <<< (b.setWidth 5).toNat
  | .srliw | .srlw => a.setWidth 32 >>> (b.setWidth 5).toNat
  | .sraiw | .sraw => (a.setWidth 32).sshiftRight (b.setWidth 5).toNat

/-- What the instruction writes to its destination. -/
def Word.value (i : Word) (x : BitVec 5 → BitVec 64) : BitVec 64 :=
  (i.result (x (i.src1 w)) (i.operand w x)).signExtend 64

end

/-- A decoded shift amount is below 32. -/
theorem shamtw_lt (w : BitVec 32) : (shamtw w).toNat < 32 := by
  unfold shamtw immOf
  rw [if_neg (by simp), BitVec.toNat_setWidth_of_le (by decide)]
  exact BitVec.isLt _

end Cavatools.Riscv
