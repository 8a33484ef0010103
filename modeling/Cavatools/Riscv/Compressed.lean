import Cavatools.Riscv.Format
import Cavatools.Uspike.Insn

/-!
# The compressed instructions of RV64DC

The instruction listing of the "C" extension, as far as RVC.bits uses it. It
is written from the architecture's side and names nothing of a decoder, so
that a decoder can be compared with it.

`Legal` says which halfwords are encodings of which instruction. Reserved code
points (a zero immediate of C.ADDI4SPN, C.LUI or C.ADDI16SP; `rd = x0` of
C.ADDIW, C.LWSP and C.LDSP; `rs1 = x0` of C.JR) are not legal; C.NOP and the
HINTs are, as the instruction whose fields they share.

`operands` says what an encoding names: up to three registers and an
immediate. The stack pointer and the link register of some instructions are
operands although no field has their number; an implied `x0` is none.
Registers of three bits are those from `x8` on. Immediates are given by their
pieces, most significant first, each under the name of the format that it
belongs to, with the zeros that scale them.

The fields come first, then the immediates, then the listing with one line for
each instruction, in the order of the tables.
-/

namespace Cavatools.Riscv

open Uspike (COp)

inductive Reg
  | x (n : BitVec 5)
  | f (n : BitVec 5)
  deriving DecidableEq, Repr

/-- What an encoding names: explicit operands, and the implied `x1` and `x2`.
An implied `x0` is not an operand here. -/
structure Operands where
  rd : Option Reg
  rs1 : Option Reg
  rs2 : Option Reg
  imm : Option (BitVec 64)

section
variable (h : BitVec 16)

/-! ## Fields -/

def cOp : BitVec 2 := h.extractLsb' 0 2
def cFunct3 : BitVec 3 := h.extractLsb' 13 3
/-- Bit 12, between funct3 and the first register. -/
def cFunct1 : BitVec 1 := h.extractLsb' 12 1
/-- Bits 11..10, the funct2 of the arithmetic group. -/
def cFunct2 : BitVec 2 := h.extractLsb' 10 2
/-- Bits 6..5, the second funct2 of the register-register group. -/
def cFunct2' : BitVec 2 := h.extractLsb' 5 2
/-- `rd/rs1`, a full register number. -/
def cRd : BitVec 5 := h.extractLsb' 7 5
/-- `rs2`, a full register number. -/
def cRs2 : BitVec 5 := h.extractLsb' 2 5
/-- `rs1'` or `rd'` in bits 9..7, one of `x8`–`x15`. -/
def cRs1' : BitVec 5 := (h.extractLsb' 7 3).setWidth 5 + 8
/-- `rd'` or `rs2'` in bits 4..2. -/
def cRd' : BitVec 5 := (h.extractLsb' 2 3).setWidth 5 + 8

/-! ## Immediates -/

/-- `imm[5] imm[4:0]`, the 6-bit immediate of the CI and CB formats. -/
def cImm6 (signed : Bool) : BitVec 64 := immOf signed [(12, 12), (6, 2)] 0 h

/-- `uimm[7:6] uimm[5:3]`, scaled by 8. -/
def cImmD : BitVec 64 := immOf false [(6, 5), (12, 10)] 3 h

/-- `uimm[6] uimm[5:3] uimm[2]`, scaled by 4. -/
def cImmW : BitVec 64 := immOf false [(5, 5), (12, 10), (6, 6)] 2 h

/-- `uimm[8:6] uimm[5] uimm[4:3]` of the stack-pointer loads of 8 bytes. -/
def cImmLdsp : BitVec 64 := immOf false [(4, 2), (12, 12), (6, 5)] 3 h

/-- `uimm[8:6] uimm[5:3]` of the stack-pointer stores of 8 bytes. -/
def cImmSdsp : BitVec 64 := immOf false [(9, 7), (12, 10)] 3 h

/-- `imm[8] imm[7:6] imm[5] imm[4:3] imm[2:1]` of the branches. -/
def cImmB : BitVec 64 := immOf true [(12, 12), (6, 5), (2, 2), (11, 10), (4, 3)] 1 h

/-! ## The listing -/

def Legal : COp → Prop
  | .c_addi4spn => cOp h = 0b00 ∧ cFunct3 h = 0b000 ∧ h.extractLsb' 5 8 ≠ 0
  | .c_fld => cOp h = 0b00 ∧ cFunct3 h = 0b001
  | .c_lw => cOp h = 0b00 ∧ cFunct3 h = 0b010
  | .c_ld => cOp h = 0b00 ∧ cFunct3 h = 0b011
  | .c_fsd => cOp h = 0b00 ∧ cFunct3 h = 0b101
  | .c_sw => cOp h = 0b00 ∧ cFunct3 h = 0b110
  | .c_sd => cOp h = 0b00 ∧ cFunct3 h = 0b111
  | .c_addi => cOp h = 0b01 ∧ cFunct3 h = 0b000
  | .c_addiw => cOp h = 0b01 ∧ cFunct3 h = 0b001 ∧ cRd h ≠ 0
  | .c_li => cOp h = 0b01 ∧ cFunct3 h = 0b010
  | .c_addi16sp => cOp h = 0b01 ∧ cFunct3 h = 0b011 ∧ cRd h = 2 ∧ (cFunct1 h ≠ 0 ∨ cRs2 h ≠ 0)
  | .c_lui => cOp h = 0b01 ∧ cFunct3 h = 0b011 ∧ cRd h ≠ 2 ∧ (cFunct1 h ≠ 0 ∨ cRs2 h ≠ 0)
  | .c_srli => cOp h = 0b01 ∧ cFunct3 h = 0b100 ∧ cFunct2 h = 0b00
  | .c_srai => cOp h = 0b01 ∧ cFunct3 h = 0b100 ∧ cFunct2 h = 0b01
  | .c_andi => cOp h = 0b01 ∧ cFunct3 h = 0b100 ∧ cFunct2 h = 0b10
  | .c_sub => cOp h = 0b01 ∧ cFunct3 h = 0b100 ∧ cFunct1 h = 0 ∧ cFunct2 h = 0b11 ∧ cFunct2' h = 0b00
  | .c_xor => cOp h = 0b01 ∧ cFunct3 h = 0b100 ∧ cFunct1 h = 0 ∧ cFunct2 h = 0b11 ∧ cFunct2' h = 0b01
  | .c_or => cOp h = 0b01 ∧ cFunct3 h = 0b100 ∧ cFunct1 h = 0 ∧ cFunct2 h = 0b11 ∧ cFunct2' h = 0b10
  | .c_and => cOp h = 0b01 ∧ cFunct3 h = 0b100 ∧ cFunct1 h = 0 ∧ cFunct2 h = 0b11 ∧ cFunct2' h = 0b11
  | .c_subw => cOp h = 0b01 ∧ cFunct3 h = 0b100 ∧ cFunct1 h = 1 ∧ cFunct2 h = 0b11 ∧ cFunct2' h = 0b00
  | .c_addw => cOp h = 0b01 ∧ cFunct3 h = 0b100 ∧ cFunct1 h = 1 ∧ cFunct2 h = 0b11 ∧ cFunct2' h = 0b01
  | .c_j => cOp h = 0b01 ∧ cFunct3 h = 0b101
  | .c_beqz => cOp h = 0b01 ∧ cFunct3 h = 0b110
  | .c_bnez => cOp h = 0b01 ∧ cFunct3 h = 0b111
  | .c_slli => cOp h = 0b10 ∧ cFunct3 h = 0b000
  | .c_fldsp => cOp h = 0b10 ∧ cFunct3 h = 0b001
  | .c_lwsp => cOp h = 0b10 ∧ cFunct3 h = 0b010 ∧ cRd h ≠ 0
  | .c_ldsp => cOp h = 0b10 ∧ cFunct3 h = 0b011 ∧ cRd h ≠ 0
  | .c_jr => cOp h = 0b10 ∧ cFunct3 h = 0b100 ∧ cFunct1 h = 0 ∧ cRd h ≠ 0 ∧ cRs2 h = 0
  | .c_mv => cOp h = 0b10 ∧ cFunct3 h = 0b100 ∧ cFunct1 h = 0 ∧ cRs2 h ≠ 0
  | .c_ebreak => cOp h = 0b10 ∧ cFunct3 h = 0b100 ∧ cFunct1 h = 1 ∧ cRd h = 0 ∧ cRs2 h = 0
  | .c_jalr => cOp h = 0b10 ∧ cFunct3 h = 0b100 ∧ cFunct1 h = 1 ∧ cRd h ≠ 0 ∧ cRs2 h = 0
  | .c_add => cOp h = 0b10 ∧ cFunct3 h = 0b100 ∧ cFunct1 h = 1 ∧ cRs2 h ≠ 0
  | .c_fsdsp => cOp h = 0b10 ∧ cFunct3 h = 0b101
  | .c_swsp => cOp h = 0b10 ∧ cFunct3 h = 0b110
  | .c_sdsp => cOp h = 0b10 ∧ cFunct3 h = 0b111

def operands : COp → Operands
  | .c_addi4spn => ⟨some (.x (cRd' h)), some (.x 2), none,
      some (immOf false [(10, 7), (12, 11), (5, 5), (6, 6)] 2 h)⟩
  | .c_fld => ⟨some (.f (cRd' h)), some (.x (cRs1' h)), none, some (cImmD h)⟩
  | .c_lw => ⟨some (.x (cRd' h)), some (.x (cRs1' h)), none, some (cImmW h)⟩
  | .c_ld => ⟨some (.x (cRd' h)), some (.x (cRs1' h)), none, some (cImmD h)⟩
  | .c_fsd => ⟨none, some (.x (cRs1' h)), some (.f (cRd' h)), some (cImmD h)⟩
  | .c_sw => ⟨none, some (.x (cRs1' h)), some (.x (cRd' h)), some (cImmW h)⟩
  | .c_sd => ⟨none, some (.x (cRs1' h)), some (.x (cRd' h)), some (cImmD h)⟩
  | .c_addi | .c_addiw => ⟨some (.x (cRd h)), some (.x (cRd h)), none, some (cImm6 h true)⟩
  | .c_li => ⟨some (.x (cRd h)), none, none, some (cImm6 h true)⟩
  | .c_addi16sp => ⟨some (.x 2), some (.x 2), none,
      some (immOf true [(12, 12), (4, 3), (5, 5), (2, 2), (6, 6)] 4 h)⟩
  | .c_lui => ⟨some (.x (cRd h)), none, none, some (immOf true [(12, 12), (6, 2)] 12 h)⟩
  | .c_srli | .c_srai => ⟨some (.x (cRs1' h)), some (.x (cRs1' h)), none, some (cImm6 h false)⟩
  | .c_andi => ⟨some (.x (cRs1' h)), some (.x (cRs1' h)), none, some (cImm6 h true)⟩
  | .c_sub | .c_xor | .c_or | .c_and | .c_subw | .c_addw =>
    ⟨some (.x (cRs1' h)), some (.x (cRs1' h)), some (.x (cRd' h)), none⟩
  | .c_j => ⟨none, none, none,
      some (immOf true [(12, 12), (8, 8), (10, 9), (6, 6), (7, 7), (2, 2), (11, 11), (5, 3)] 1 h)⟩
  | .c_beqz | .c_bnez => ⟨none, some (.x (cRs1' h)), none, some (cImmB h)⟩
  | .c_slli => ⟨some (.x (cRd h)), some (.x (cRd h)), none, some (cImm6 h false)⟩
  | .c_fldsp => ⟨some (.f (cRd h)), some (.x 2), none, some (cImmLdsp h)⟩
  | .c_lwsp => ⟨some (.x (cRd h)), some (.x 2), none,
      some (immOf false [(3, 2), (12, 12), (6, 4)] 2 h)⟩
  | .c_ldsp => ⟨some (.x (cRd h)), some (.x 2), none, some (cImmLdsp h)⟩
  | .c_jr => ⟨none, some (.x (cRd h)), none, none⟩
  | .c_mv => ⟨some (.x (cRd h)), none, some (.x (cRs2 h)), none⟩
  | .c_ebreak => ⟨none, none, none, none⟩
  | .c_jalr => ⟨some (.x 1), some (.x (cRd h)), none, none⟩
  | .c_add => ⟨some (.x (cRd h)), some (.x (cRd h)), some (.x (cRs2 h)), none⟩
  | .c_fsdsp => ⟨none, some (.x 2), some (.f (cRs2 h)), some (cImmSdsp h)⟩
  | .c_swsp => ⟨none, some (.x 2), some (.x (cRs2 h)), some (immOf false [(8, 7), (12, 9)] 2 h)⟩
  | .c_sdsp => ⟨none, some (.x 2), some (.x (cRs2 h)), some (cImmSdsp h)⟩

end

end Cavatools.Riscv
