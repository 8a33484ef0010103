import Cavatools.Riscv.Format
import Cavatools.Riscv.Memory

/-!
# The RV64I instructions

The base instructions that RV.fast covers, as the manual defines them. There
are three tables, each with one line for an instruction: the format
(`Rv64i.format`), the fixed fields of the encoding (`Encodes`) and what the
instruction does to the registers, the pc and the memory (`exec`). They are
written so that they can be read against the manual's.

The fields of a word have the manual's names, and the immediates come in
pieces (`Format.immPieces`), with the zero bits that the manual leaves out of
the word. `Sh` is the I format of the shifts by a constant, whose amount is
six bits.

The pc is part of the state, and an instruction that does not jump adds 4 to
it (`setRd`). A jump that links computes its target before it writes `rd`
(`linkTo`), which matters when the two are one register. Register `x0` reads
as zero because the state keeps it so: a write to it is dropped (`setX`).
Loads and stores of all widths are `loaded` and `stored`, and misaligned ones
are like any other.
-/

namespace Cavatools.Riscv

/-- The registers, the pc and the memory of a hart. -/
structure ArchState where
  x : BitVec 5 → BitVec 64
  pc : BitVec 64
  mem : Mem

inductive Rv64i
  | lui | auipc | jal | jalr | beq | bne | blt | bge | bltu | bgeu
  | lb | lh | lw | ld | lbu | lhu | lwu | sb | sh | sw | sd
  | addi | slti | sltiu | xori | ori | andi | slli | srli | srai
  | add | sub | slt | sltu | xor | or | and
  deriving DecidableEq, Repr

/-! ## Fields -/

section
variable (w : BitVec 32)

def opcode : BitVec 7 := w.extractLsb' 0 7
def rd : BitVec 5 := w.extractLsb' 7 5
def funct3 : BitVec 3 := w.extractLsb' 12 3
def rs1 : BitVec 5 := w.extractLsb' 15 5
def rs2 : BitVec 5 := w.extractLsb' 20 5
def funct7 : BitVec 7 := w.extractLsb' 25 7
/-- The upper six bits, which tell the 64-bit shifts apart. -/
def funct6 : BitVec 6 := w.extractLsb' 26 6

/-! ## Formats -/

/-- The formats; `Sh` is the I format of the shifts by a constant. -/
inductive Format
  | R | I | Sh | S | B | U | J
  deriving DecidableEq, Repr

/-- The immediate of a format: whether it is signed, its pieces, its zeros. -/
def Format.immPieces : Format → Option (Bool × List (Nat × Nat) × Nat)
  | .R => none
  | .I => some (true, [(31, 20)], 0)
  | .Sh => some (false, [(25, 20)], 0)
  | .S => some (true, [(31, 25), (11, 7)], 0)
  | .B => some (true, [(31, 31), (7, 7), (30, 25), (11, 8)], 1)
  | .U => some (true, [(31, 12)], 12)
  | .J => some (true, [(31, 31), (19, 12), (20, 20), (30, 21)], 1)

def immI : BitVec 64 := immOf true [(31, 20)] 0 w
def shamt : BitVec 64 := immOf false [(25, 20)] 0 w
def immS : BitVec 64 := immOf true [(31, 25), (11, 7)] 0 w
def immB : BitVec 64 := immOf true [(31, 31), (7, 7), (30, 25), (11, 8)] 1 w
def immU : BitVec 64 := immOf true [(31, 12)] 12 w
def immJ : BitVec 64 := immOf true [(31, 31), (19, 12), (20, 20), (30, 21)] 1 w

/-- The immediate of a format. -/
def Format.imm : Format → Option (BitVec 64)
  | .R => none
  | .I => some (immI w)
  | .Sh => some (shamt w)
  | .S => some (immS w)
  | .B => some (immB w)
  | .U => some (immU w)
  | .J => some (immJ w)

theorem Format.imm_eq (f : Format) :
    f.imm w = f.immPieces.map fun s => immOf s.1 s.2.1 s.2.2 w := by
  cases f <;> rfl

def Rv64i.format : Rv64i → Format
  | .lui | .auipc => .U
  | .jal => .J
  | .beq | .bne | .blt | .bge | .bltu | .bgeu => .B
  | .jalr | .lb | .lh | .lw | .ld | .lbu | .lhu | .lwu => .I
  | .addi | .slti | .sltiu | .xori | .ori | .andi => .I
  | .sb | .sh | .sw | .sd => .S
  | .slli | .srli | .srai => .Sh
  | .add | .sub | .slt | .sltu | .xor | .or | .and => .R

/-! ## The listing -/

def Encodes : Rv64i → Prop
  | .lui => opcode w = 0x37
  | .auipc => opcode w = 0x17
  | .jal => opcode w = 0x6f
  | .jalr => opcode w = 0x67 ∧ funct3 w = 0
  | .beq => opcode w = 0x63 ∧ funct3 w = 0
  | .bne => opcode w = 0x63 ∧ funct3 w = 1
  | .blt => opcode w = 0x63 ∧ funct3 w = 4
  | .bge => opcode w = 0x63 ∧ funct3 w = 5
  | .bltu => opcode w = 0x63 ∧ funct3 w = 6
  | .bgeu => opcode w = 0x63 ∧ funct3 w = 7
  | .lb => opcode w = 0x03 ∧ funct3 w = 0
  | .lh => opcode w = 0x03 ∧ funct3 w = 1
  | .lw => opcode w = 0x03 ∧ funct3 w = 2
  | .ld => opcode w = 0x03 ∧ funct3 w = 3
  | .lbu => opcode w = 0x03 ∧ funct3 w = 4
  | .lhu => opcode w = 0x03 ∧ funct3 w = 5
  | .lwu => opcode w = 0x03 ∧ funct3 w = 6
  | .sb => opcode w = 0x23 ∧ funct3 w = 0
  | .sh => opcode w = 0x23 ∧ funct3 w = 1
  | .sw => opcode w = 0x23 ∧ funct3 w = 2
  | .sd => opcode w = 0x23 ∧ funct3 w = 3
  | .addi => opcode w = 0x13 ∧ funct3 w = 0
  | .slti => opcode w = 0x13 ∧ funct3 w = 2
  | .sltiu => opcode w = 0x13 ∧ funct3 w = 3
  | .xori => opcode w = 0x13 ∧ funct3 w = 4
  | .ori => opcode w = 0x13 ∧ funct3 w = 6
  | .andi => opcode w = 0x13 ∧ funct3 w = 7
  | .slli => opcode w = 0x13 ∧ funct3 w = 1 ∧ funct6 w = 0
  | .srli => opcode w = 0x13 ∧ funct3 w = 5 ∧ funct6 w = 0
  | .srai => opcode w = 0x13 ∧ funct3 w = 5 ∧ funct6 w = 0x10
  | .add => opcode w = 0x33 ∧ funct3 w = 0 ∧ funct7 w = 0
  | .sub => opcode w = 0x33 ∧ funct3 w = 0 ∧ funct7 w = 0x20
  | .slt => opcode w = 0x33 ∧ funct3 w = 2 ∧ funct7 w = 0
  | .sltu => opcode w = 0x33 ∧ funct3 w = 3 ∧ funct7 w = 0
  | .xor => opcode w = 0x33 ∧ funct3 w = 4 ∧ funct7 w = 0
  | .or => opcode w = 0x33 ∧ funct3 w = 6 ∧ funct7 w = 0
  | .and => opcode w = 0x33 ∧ funct3 w = 7 ∧ funct7 w = 0

end

/-! ## The meaning -/

/-- The registers after `x[r] = v`. -/
def setX (x : BitVec 5 → BitVec 64) (r : BitVec 5) (v : BitVec 64) : BitVec 5 → BitVec 64 :=
  if r = 0 then x else Function.update x r v

namespace ArchState

variable (s : ArchState) (w : BitVec 32)

/-- `x[rd] = v`, and on to the next instruction. -/
def setRd (v : BitVec 64) : ArchState := { s with x := setX s.x (rd w) v, pc := s.pc + 4 }

/-- A conditional branch. -/
def branch (taken : Bool) : ArchState := { s with pc := if taken then s.pc + immB w else s.pc + 4 }

/-- A jump that links: the target is computed before `rd` is written. -/
def linkTo (target : BitVec 64) : ArchState :=
  { s with x := setX s.x (rd w) (s.pc + 4), pc := target }

/-- The value an `n`-byte load reads. -/
def loaded (n : Nat) : BitVec (8 * n) := s.mem.load (s.x (rs1 w) + immI w) n

def stored (n : Nat) : ArchState :=
  { s with mem := s.mem.store (s.x (rs1 w) + immS w) n ((s.x (rs2 w)).setWidth (8 * n)),
           pc := s.pc + 4 }

/-- One if the condition holds, else zero. -/
def flag (b : Bool) : BitVec 64 := if b then 1 else 0

end ArchState

open ArchState in
/-- What the instruction encoded by `w` does. -/
def exec (w : BitVec 32) (s : ArchState) : Rv64i → ArchState
  | .lui => s.setRd w (immU w)
  | .auipc => s.setRd w (s.pc + immU w)
  | .jal => s.linkTo w (s.pc + immJ w)
  | .jalr => s.linkTo w ((s.x (rs1 w) + immI w) &&& ~~~1#64)
  | .beq => s.branch w (s.x (rs1 w) == s.x (rs2 w))
  | .bne => s.branch w (s.x (rs1 w) != s.x (rs2 w))
  | .blt => s.branch w ((s.x (rs1 w)).slt (s.x (rs2 w)))
  | .bge => s.branch w (!(s.x (rs1 w)).slt (s.x (rs2 w)))
  | .bltu => s.branch w ((s.x (rs1 w)).ult (s.x (rs2 w)))
  | .bgeu => s.branch w (!(s.x (rs1 w)).ult (s.x (rs2 w)))
  | .lb => s.setRd w ((s.loaded w 1).signExtend 64)
  | .lh => s.setRd w ((s.loaded w 2).signExtend 64)
  | .lw => s.setRd w ((s.loaded w 4).signExtend 64)
  | .ld => s.setRd w (s.loaded w 8)
  | .lbu => s.setRd w ((s.loaded w 1).setWidth 64)
  | .lhu => s.setRd w ((s.loaded w 2).setWidth 64)
  | .lwu => s.setRd w ((s.loaded w 4).setWidth 64)
  | .sb => s.stored w 1
  | .sh => s.stored w 2
  | .sw => s.stored w 4
  | .sd => s.stored w 8
  | .addi => s.setRd w (s.x (rs1 w) + immI w)
  | .slti => s.setRd w (flag ((s.x (rs1 w)).slt (immI w)))
  | .sltiu => s.setRd w (flag ((s.x (rs1 w)).ult (immI w)))
  | .xori => s.setRd w (s.x (rs1 w) ^^^ immI w)
  | .ori => s.setRd w (s.x (rs1 w) ||| immI w)
  | .andi => s.setRd w (s.x (rs1 w) &&& immI w)
  | .slli => s.setRd w (s.x (rs1 w) <<< (shamt w).toNat)
  | .srli => s.setRd w (s.x (rs1 w) >>> (shamt w).toNat)
  | .srai => s.setRd w ((s.x (rs1 w)).sshiftRight (shamt w).toNat)
  | .add => s.setRd w (s.x (rs1 w) + s.x (rs2 w))
  | .sub => s.setRd w (s.x (rs1 w) - s.x (rs2 w))
  | .slt => s.setRd w (flag ((s.x (rs1 w)).slt (s.x (rs2 w))))
  | .sltu => s.setRd w (flag ((s.x (rs1 w)).ult (s.x (rs2 w))))
  | .xor => s.setRd w (s.x (rs1 w) ^^^ s.x (rs2 w))
  | .or => s.setRd w (s.x (rs1 w) ||| s.x (rs2 w))
  | .and => s.setRd w (s.x (rs1 w) &&& s.x (rs2 w))

end Cavatools.Riscv
