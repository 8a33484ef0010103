import Cavatools.Uspike.Template
import Cavatools.Uspike.Insn

/-!
# The instruction tables

Where the templates come from. The decoder is generated in three steps from
lists that people write, and this file has the lists and the steps up to the
templates; what crunch_isa makes of a template is in `Template`.

`parse_opcodes` turns a line of riscv-opcodes, known here only through its
match bits and argument names (`OpLine`), into a template by instruction type.
`arglut` and `argToken` are its tables, and each `print_…_type` is a
definition that puts the arguments of a line, or the fixed bits where it has
none, in the order of the type. `print_inst` picks the type by what the line
has.

The lines of the full-size instructions that RV.fast covers are the standard
ones (`riscv_opcodes`), with their match bits; the four compare-and-swap
opcodes have no line, since only `substitute_cas` makes them. Everything else
riscv-opcodes may list stays a parameter of the decoder, a list of further
entries at its end. RVC.bits lists the compressed templates by hand, in the
order in which they are tried (`rvcOrder`).

`Entry.build` is the constructor call that make_headers prints for an entry,
by the operands of its template and the size of its immediate, and `decoder`
is decoder.h: the first entry whose test passes.
-/

namespace Cavatools.Uspike

/-- One instruction as crunch_isa sees it. -/
structure Entry where
  op : Opcode
  ty : OpType
  bits : Template

/-! ## parse_opcodes -/

/-- The argument names of riscv-opcodes that `print_inst` looks for. -/
inductive ArgName
  | rd | rs1 | rs2 | rs3 | aqrl | fm | pred | succ | rm
  | imm20 | jimm20 | imm12 | imm12hi | bimm12hi | imm12lo | bimm12lo | zimm | shamt | shamtw
  | vd | vs3 | vs1 | vs2 | vm
  deriving DecidableEq, Repr

/-- `arglut`: highest and lowest bit of the field. -/
def arglut : ArgName → Nat × Nat
  | .rd => (11, 7)
  | .rs1 => (19, 15)
  | .rs2 => (24, 20)
  | .rs3 => (31, 27)
  | .aqrl => (26, 25)
  | .fm => (31, 28)
  | .pred => (27, 24)
  | .succ => (23, 20)
  | .rm => (14, 12)
  | .imm20 => (31, 12)
  | .jimm20 => (31, 12)
  | .imm12 => (31, 20)
  | .imm12hi => (31, 25)
  | .bimm12hi => (31, 25)
  | .imm12lo => (11, 7)
  | .bimm12lo => (11, 7)
  | .zimm => (19, 15)
  | .shamt => (25, 20)
  | .shamtw => (24, 20)
  | .vd => (11, 7)
  | .vs3 => (11, 7)
  | .vs1 => (19, 15)
  | .vs2 => (24, 20)
  | .vm => (25, 25)

/-- What an argument name becomes in the template: the immediate group in the
third place of its `arglut` row, or the register name itself. -/
def argToken : ArgName → Token
  | .rd => .reg .rd
  | .rs1 => .reg .rs1
  | .rs2 => .reg .rs2
  | .rs3 => .reg .rs3
  | .aqrl => .imm false (1, 0) []
  | .fm => .imm false (11, 8) []
  | .pred => .imm false (7, 4) []
  | .succ => .imm false (3, 0) []
  | .rm => .imm false (2, 0) []
  | .imm20 => .imm true (31, 12) []
  | .jimm20 => .imm true (20, 20) [(10, 1), (11, 11), (19, 12)]
  | .imm12 => .imm true (11, 0) []
  | .imm12hi => .imm true (11, 5) []
  | .bimm12hi => .imm true (12, 12) [(10, 5)]
  | .imm12lo => .imm false (4, 0) []
  | .bimm12lo => .imm false (4, 1) [(11, 11)]
  | .zimm => .imm false (4, 0) []
  | .shamt => .imm false (5, 0) []
  | .shamtw => .imm false (4, 0) []
  | .vd => .reg .vd
  | .vs3 => .reg .vs3
  | .vs1 => .reg .vs1
  | .vs2 => .reg .vs2
  | .vm => .reg .vm

/-- What `print_inst` asks of a name: is it one of the fences, does it begin
with `csr` (and end in `i`), is it `ecall` or `ebreak`, is it a dotted name
beginning with `v`. -/
inductive NameKind
  | plain
  | fence
  | csr (i : Bool)
  | env
  | vector
  deriving DecidableEq, Repr

/-- A line of riscv-opcodes: what its name is, the fixed bits, the arguments. -/
structure OpLine where
  kind : NameKind
  «match» : BitVec 32
  arguments : List ArgName

/-- `binary(yank(match, start, len), len)`. -/
def binary (m : BitVec 32) (start len : Nat) : Token := .bits (m.extractLsb' start len)

/-- `str_arg`: the argument if the line has it, else the fixed bits in its place. -/
def str_arg (arg0 : ArgName) (l : OpLine) : Token :=
  if arg0 ∈ l.arguments then argToken arg0
  else binary l.match (arglut arg0).2 ((arglut arg0).1 - (arglut arg0).2 + 1)

def print_u_type (l : OpLine) : Template :=
  [str_arg .imm20 l, str_arg .rd l, binary l.match 0 7]

def print_uj_type (l : OpLine) : Template :=
  [str_arg .jimm20 l, str_arg .rd l, binary l.match 0 7]

def print_s_type (l : OpLine) : Template :=
  [str_arg .imm12hi l, str_arg .rs2 l, str_arg .rs1 l, binary l.match 12 3, str_arg .imm12lo l,
    binary l.match 0 7]

def print_sb_type (l : OpLine) : Template :=
  [str_arg .bimm12hi l, str_arg .rs2 l, str_arg .rs1 l, binary l.match 12 3, str_arg .bimm12lo l,
    binary l.match 0 7]

def print_i_type (l : OpLine) : Template :=
  [str_arg .imm12 l, str_arg .rs1 l, binary l.match 12 3, str_arg .rd l, binary l.match 0 7]

/-- `print_csr_type` names its immediates itself instead of taking arglut's. -/
def print_csr_type (i : Bool) (l : OpLine) : Template :=
  [if ArgName.imm12 ∈ l.arguments then .imm false (11, 0) [] else str_arg .imm12 l,
    if i ∧ ArgName.rs1 ∈ l.arguments then .imm false (16, 12) [] else str_arg .rs1 l,
    binary l.match 12 3, str_arg .rd l, binary l.match 0 7]

def print_ish_type (l : OpLine) : Template :=
  [binary l.match 26 6, str_arg .shamt l, str_arg .rs1 l, binary l.match 12 3, str_arg .rd l,
    binary l.match 0 7]

def print_ishw_type (l : OpLine) : Template :=
  [binary l.match 25 7, str_arg .shamtw l, str_arg .rs1 l, binary l.match 12 3, str_arg .rd l,
    binary l.match 0 7]

def print_r_type (l : OpLine) : Template :=
  [binary l.match 25 7, str_arg .rs2 l,
    if ArgName.zimm ∈ l.arguments then str_arg .zimm l else str_arg .rs1 l,
    str_arg .rm l, str_arg .rd l, binary l.match 0 7]

def print_r4_type (l : OpLine) : Template :=
  [str_arg .rs3 l, binary l.match 25 2, str_arg .rs2 l, str_arg .rs1 l, str_arg .rm l,
    str_arg .rd l, binary l.match 0 7]

def print_amo_type (l : OpLine) : Template :=
  [binary l.match 27 5, str_arg .aqrl l, str_arg .rs2 l, str_arg .rs1 l, binary l.match 12 3,
    str_arg .rd l, binary l.match 0 7]

def print_fence_type (l : OpLine) : Template :=
  [str_arg .fm l, str_arg .pred l, str_arg .succ l, str_arg .rs1 l, binary l.match 12 3,
    str_arg .rd l, binary l.match 0 7]

def print_v_type (l : OpLine) : Template :=
  [binary l.match 26 6, str_arg .vm l,
    str_arg (if ArgName.vs2 ∈ l.arguments then .vs2 else .rs2) l,
    str_arg (if ArgName.vs1 ∈ l.arguments then .vs1 else .rs1) l,
    binary l.match 12 3,
    str_arg (if ArgName.vd ∈ l.arguments then .vd
      else if ArgName.vs3 ∈ l.arguments then .vs3 else .rd) l,
    binary l.match 0 7]

def print_inst (l : OpLine) : Template :=
  if l.kind = .fence then print_fence_type l
  else if ArgName.aqrl ∈ l.arguments then print_amo_type l
  else if ArgName.shamt ∈ l.arguments then print_ish_type l
  else if ArgName.shamtw ∈ l.arguments then print_ishw_type l
  else if ArgName.imm20 ∈ l.arguments then print_u_type l
  else if ArgName.jimm20 ∈ l.arguments then print_uj_type l
  else if l.kind = .csr true then print_csr_type true l
  else if l.kind = .csr false then print_csr_type false l
  else if ArgName.imm12 ∈ l.arguments ∨ l.kind = .env then print_i_type l
  else if ArgName.imm12hi ∈ l.arguments then print_s_type l
  else if ArgName.bimm12hi ∈ l.arguments then print_sb_type l
  else if ArgName.rs3 ∈ l.arguments then print_r4_type l
  else if l.kind = .vector then print_v_type l
  else print_r_type l

/-! ## The full-size instructions of RV.fast -/

/-- The RV.fast names that riscv-opcodes lists: all but the four cas opcodes,
which only `substitute_cas` creates. -/
def listedFast : List FastOp :=
  [.lui, .auipc, .jal, .jalr, .beq, .bne, .blt, .bge, .bltu, .bgeu,
   .lb, .lh, .lw, .ld, .lbu, .lhu, .lwu, .sb, .sh, .sw, .sd,
   .addi, .addiw, .slti, .sltiu, .xori, .ori, .andi, .slli, .srli, .srai,
   .slliw, .srliw, .sraiw,
   .add, .sub, .sll, .slt, .sltu, .xor, .srl, .sra, .or, .and,
   .addw, .subw, .sllw, .srlw, .sraw, .ecall]

/-- The match bits of an opcode, funct3 and funct7. -/
def matchBits (funct7 : BitVec 7) (funct3 : BitVec 3) (opcode : BitVec 7) : BitVec 32 :=
  funct7.setWidth 32 <<< 25 ||| funct3.setWidth 32 <<< 12 ||| opcode.setWidth 32

def uLine (opcode : BitVec 7) : OpLine := ⟨.plain, matchBits 0 0 opcode, [.rd, .imm20]⟩
def branchLine (funct3 : BitVec 3) : OpLine :=
  ⟨.plain, matchBits 0 funct3 0x63, [.bimm12hi, .rs1, .rs2, .bimm12lo]⟩
def iLine (funct3 : BitVec 3) (opcode : BitVec 7) : OpLine :=
  ⟨.plain, matchBits 0 funct3 opcode, [.rd, .rs1, .imm12]⟩
def storeLine (funct3 : BitVec 3) : OpLine :=
  ⟨.plain, matchBits 0 funct3 0x23, [.imm12hi, .rs1, .rs2, .imm12lo]⟩
def shiftLine (funct7 : BitVec 7) (funct3 : BitVec 3) : OpLine :=
  ⟨.plain, matchBits funct7 funct3 0x13, [.rd, .rs1, .shamt]⟩
def shiftwLine (funct7 : BitVec 7) (funct3 : BitVec 3) : OpLine :=
  ⟨.plain, matchBits funct7 funct3 0x1b, [.rd, .rs1, .shamtw]⟩
def rLine (funct7 : BitVec 7) (funct3 : BitVec 3) (opcode : BitVec 7) : OpLine :=
  ⟨.plain, matchBits funct7 funct3 opcode, [.rd, .rs1, .rs2]⟩

/-- The standard match bits and argument names. The cas opcodes have no line. -/
def riscv_opcodes : FastOp → Option OpLine
  | .lui => some (uLine 0x37)
  | .auipc => some (uLine 0x17)
  | .jal => some ⟨.plain, matchBits 0 0 0x6f, [.rd, .jimm20]⟩
  | .jalr => some (iLine 0 0x67)
  | .beq => some (branchLine 0)
  | .bne => some (branchLine 1)
  | .blt => some (branchLine 4)
  | .bge => some (branchLine 5)
  | .bltu => some (branchLine 6)
  | .bgeu => some (branchLine 7)
  | .lb => some (iLine 0 0x03)
  | .lh => some (iLine 1 0x03)
  | .lw => some (iLine 2 0x03)
  | .ld => some (iLine 3 0x03)
  | .lbu => some (iLine 4 0x03)
  | .lhu => some (iLine 5 0x03)
  | .lwu => some (iLine 6 0x03)
  | .sb => some (storeLine 0)
  | .sh => some (storeLine 1)
  | .sw => some (storeLine 2)
  | .sd => some (storeLine 3)
  | .addi => some (iLine 0 0x13)
  | .slti => some (iLine 2 0x13)
  | .sltiu => some (iLine 3 0x13)
  | .xori => some (iLine 4 0x13)
  | .ori => some (iLine 6 0x13)
  | .andi => some (iLine 7 0x13)
  | .slli => some (shiftLine 0 1)
  | .srli => some (shiftLine 0 5)
  | .srai => some (shiftLine 0x20 5)
  | .addiw => some (iLine 0 0x1b)
  | .slliw => some (shiftwLine 0 1)
  | .srliw => some (shiftwLine 0 5)
  | .sraiw => some (shiftwLine 0x20 5)
  | .add => some (rLine 0 0 0x33)
  | .sub => some (rLine 0x20 0 0x33)
  | .sll => some (rLine 0 1 0x33)
  | .slt => some (rLine 0 2 0x33)
  | .sltu => some (rLine 0 3 0x33)
  | .xor => some (rLine 0 4 0x33)
  | .srl => some (rLine 0 5 0x33)
  | .sra => some (rLine 0x20 5 0x33)
  | .or => some (rLine 0 6 0x33)
  | .and => some (rLine 0 7 0x33)
  | .addw => some (rLine 0 0 0x3b)
  | .subw => some (rLine 0x20 0 0x3b)
  | .sllw => some (rLine 0 1 0x3b)
  | .srlw => some (rLine 0 5 0x3b)
  | .sraw => some (rLine 0x20 5 0x3b)
  | .ecall => some ⟨.env, matchBits 0 0 0x73, []⟩
  | .cas12_w | .cas12_d | .cas10_w | .cas10_d => none

/-- The template parse_opcodes makes of a listed instruction. -/
def fastEntry (op : FastOp) : Option Entry :=
  (riscv_opcodes op).map fun l => ⟨.fast op, .plain, print_inst l⟩

/-! ## Load-reserved and store-conditional -/

/-- The match bits of an AMO, funct5 and funct3. -/
def amoBits (funct5 : BitVec 5) (funct3 : BitVec 3) : BitVec 32 :=
  funct5.setWidth 32 <<< 27 ||| funct3.setWidth 32 <<< 12 ||| 0x2f#32

/-- The standard lines of the four instructions that `substitute_cas` looks for. -/
def lrscLine : SpikeOp → Option OpLine
  | .lr_w => some ⟨.plain, amoBits 2 2, [.rd, .rs1, .aqrl]⟩
  | .lr_d => some ⟨.plain, amoBits 2 3, [.rd, .rs1, .aqrl]⟩
  | .sc_w => some ⟨.plain, amoBits 3 2, [.rd, .rs1, .rs2, .aqrl]⟩
  | .sc_d => some ⟨.plain, amoBits 3 3, [.rd, .rs1, .rs2, .aqrl]⟩
  | .other _ => none

def lrscEntry (op : SpikeOp) : Option Entry :=
  (lrscLine op).map fun l => ⟨.spike op, .plain, print_inst l⟩

/-! ## RVC.bits -/

/-- The rows of RVC.bits: the type and the template of each name. -/
def RVC_bits : COp → OpType × Template
  | .c_addi4spn => (.crs, [.bits 0b000#3, .imm false (5, 4) [(9, 6), (2, 2), (3, 3)], .reg .crd, .bits 0b00#2])
  | .c_fld => (.plain, [.bits 0b001#3, .imm false (5, 3) [], .reg .cs1, .imm false (7, 6) [], .reg .cfd, .bits 0b00#2])
  | .c_lw => (.plain, [.bits 0b010#3, .imm false (5, 3) [], .reg .cs1, .imm false (2, 2) [(6, 6)], .reg .crd, .bits 0b00#2])
  | .c_ld => (.plain, [.bits 0b011#3, .imm false (5, 3) [], .reg .cs1, .imm false (7, 6) [], .reg .crd, .bits 0b00#2])
  | .c_fsd => (.plain, [.bits 0b101#3, .imm false (5, 3) [], .reg .cs1, .imm false (7, 6) [], .reg .ds2, .bits 0b00#2])
  | .c_sw => (.plain, [.bits 0b110#3, .imm false (5, 3) [], .reg .cs1, .imm false (2, 2) [(6, 6)], .reg .cs2, .bits 0b00#2])
  | .c_sd => (.plain, [.bits 0b111#3, .imm false (5, 3) [], .reg .cs1, .imm false (7, 6) [], .reg .cs2, .bits 0b00#2])
  | .c_addi => (.plain, [.bits 0b000#3, .imm true (5, 5) [], .reg .rd1, .imm false (4, 0) [], .bits 0b01#2])
  | .c_addiw => (.plain, [.bits 0b001#3, .imm true (5, 5) [], .reg .rd1, .imm false (4, 0) [], .bits 0b01#2])
  | .c_li => (.plain, [.bits 0b010#3, .imm true (5, 5) [], .reg .rd, .imm false (4, 0) [], .bits 0b01#2])
  | .c_addi16sp => (.cds, [.bits 0b011#3, .imm true (9, 9) [], .bits 0b00010#5, .imm false (4, 4) [(6, 6), (8, 7), (5, 5)], .bits 0b01#2])
  | .c_lui => (.plain, [.bits 0b011#3, .imm true (17, 17) [], .reg .rd, .imm false (16, 12) [], .bits 0b01#2])
  | .c_srli => (.plain, [.bits 0b100#3, .imm false (5, 5) [], .bits 0b00#2, .reg .cd1, .imm false (4, 0) [], .bits 0b01#2])
  | .c_srai => (.plain, [.bits 0b100#3, .imm false (5, 5) [], .bits 0b01#2, .reg .cd1, .imm false (4, 0) [], .bits 0b01#2])
  | .c_andi => (.plain, [.bits 0b100#3, .imm true (5, 5) [], .bits 0b10#2, .reg .cd1, .imm false (4, 0) [], .bits 0b01#2])
  | .c_sub => (.plain, [.bits 0b100#3, .bits 0b0#1, .bits 0b11#2, .reg .cd1, .bits 0b00#2, .reg .cs2, .bits 0b01#2])
  | .c_xor => (.plain, [.bits 0b100#3, .bits 0b0#1, .bits 0b11#2, .reg .cd1, .bits 0b01#2, .reg .cs2, .bits 0b01#2])
  | .c_or => (.plain, [.bits 0b100#3, .bits 0b0#1, .bits 0b11#2, .reg .cd1, .bits 0b10#2, .reg .cs2, .bits 0b01#2])
  | .c_and => (.plain, [.bits 0b100#3, .bits 0b0#1, .bits 0b11#2, .reg .cd1, .bits 0b11#2, .reg .cs2, .bits 0b01#2])
  | .c_subw => (.plain, [.bits 0b100#3, .bits 0b1#1, .bits 0b11#2, .reg .cd1, .bits 0b00#2, .reg .cs2, .bits 0b01#2])
  | .c_addw => (.plain, [.bits 0b100#3, .bits 0b1#1, .bits 0b11#2, .reg .cd1, .bits 0b01#2, .reg .cs2, .bits 0b01#2])
  | .c_j => (.plain, [.bits 0b101#3, .imm true (11, 11) [(4, 4), (9, 8), (10, 10), (6, 6), (7, 7), (3, 1), (5, 5)], .bits 0b01#2])
  | .c_beqz => (.plain, [.bits 0b110#3, .imm true (8, 8) [(4, 3)], .reg .cs1, .imm false (7, 6) [(2, 1), (5, 5)], .bits 0b01#2])
  | .c_bnez => (.plain, [.bits 0b111#3, .imm true (8, 8) [(4, 3)], .reg .cs1, .imm false (7, 6) [(2, 1), (5, 5)], .bits 0b01#2])
  | .c_slli => (.plain, [.bits 0b000#3, .imm false (5, 5) [], .reg .rd1, .imm false (4, 0) [], .bits 0b10#2])
  | .c_fldsp => (.csl, [.bits 0b001#3, .imm false (5, 5) [], .reg .fd, .imm false (4, 3) [(8, 6)], .bits 0b10#2])
  | .c_lwsp => (.csl, [.bits 0b010#3, .imm false (5, 5) [], .reg .rd, .imm false (4, 2) [(7, 6)], .bits 0b10#2])
  | .c_ldsp => (.csl, [.bits 0b011#3, .imm false (5, 5) [], .reg .rd, .imm false (4, 3) [(8, 6)], .bits 0b10#2])
  | .c_jr => (.plain, [.bits 0b100#3, .bits 0b0#1, .reg .rs5, .bits 0b00000#5, .bits 0b10#2])
  | .c_mv => (.plain, [.bits 0b100#3, .bits 0b0#1, .reg .rd, .reg .rs4, .bits 0b10#2])
  | .c_ebreak => (.plain, [.bits 0b100#3, .bits 0b1#1, .bits 0b00000#5, .bits 0b00000#5, .bits 0b10#2])
  | .c_jalr => (.cjl, [.bits 0b100#3, .bits 0b1#1, .reg .rs5, .bits 0b00000#5, .bits 0b10#2])
  | .c_add => (.plain, [.bits 0b100#3, .bits 0b1#1, .reg .rd1, .reg .rs4, .bits 0b10#2])
  | .c_fsdsp => (.css, [.bits 0b101#3, .imm false (5, 3) [(8, 6)], .reg .fs4, .bits 0b10#2])
  | .c_swsp => (.css, [.bits 0b110#3, .imm false (5, 2) [(7, 6)], .reg .rs4, .bits 0b10#2])
  | .c_sdsp => (.css, [.bits 0b111#3, .imm false (5, 3) [(8, 6)], .reg .rs4, .bits 0b10#2])

/-- The order of the rows. -/
def rvcOrder : List COp :=
  [.c_addi4spn, .c_fld, .c_lw, .c_ld, .c_fsd, .c_sw, .c_sd, .c_addi, .c_addiw, .c_li,
   .c_addi16sp, .c_lui, .c_srli, .c_srai, .c_andi, .c_sub, .c_xor, .c_or, .c_and,
   .c_subw, .c_addw, .c_j, .c_beqz, .c_bnez, .c_slli, .c_fldsp, .c_lwsp, .c_ldsp, .c_jr,
   .c_mv, .c_ebreak, .c_jalr, .c_add, .c_fsdsp, .c_swsp, .c_sdsp]

def rvcEntry (op : COp) : Entry := ⟨.c op, (RVC_bits op).1, (RVC_bits op).2⟩

/-- The compressed part of the decoder, in the file's order. -/
def rvcChain : List Entry := rvcOrder.map rvcEntry

/-! ## The generated decoder -/

/-- The constructor call make_headers prints for an instruction. -/
def Entry.build (e : Entry) (b : BitVec 32) : Insn :=
  let c := crunch e.ty e.bits
  let reg (k : Fin 4) : BitVec 8 := ((c.registers k).eval b).setWidth 8
  let immed := evalImmed b c.immed
  if c.bigimm then reg0imm e.op (reg rdSlot) immed
  else if c.registers rs3Slot ≠ .NOREG then
    reg3insn e.op (reg rdSlot) (reg rs1Slot) (reg rs2Slot) (reg rs3Slot)
  else if c.immed = [] then
    if c.registers rs2Slot ≠ .NOREG then reg2insn e.op (reg rdSlot) (reg rs1Slot) (reg rs2Slot)
    else reg1insn e.op (reg rdSlot) (reg rs1Slot)
  else if c.registers rs2Slot ≠ .NOREG then
    reg2imm e.op (reg rdSlot) (reg rs1Slot) (reg rs2Slot) (immed.setWidth 16)
  else reg1imm e.op (reg rdSlot) (reg rs1Slot) (immed.setWidth 16)

def Entry.test (e : Entry) (b : BitVec 32) : Bool := (crunch e.ty e.bits).test b

/-- `decoder.h`: the first entry whose test passes, `Op_UNKNOWN` if none does. -/
def decoder (chain : List Entry) (b : BitVec 32) : Insn :=
  match chain.find? (fun e => e.test b) with
  | some e => e.build b
  | none => Insn.ofCode .UNKNOWN

end Cavatools.Uspike
