import Cavatools.Uspike.Mmu

/-!
# The text and the fast actions

`insnSpace_t` holds the predecoded text: a descriptor for each halfword from
`base` up to `limit`. `at` has no value where the check of the code stops the
process, or where there is no slot.

`RV.fast` gives the common opcodes a line of C++ that the generated switch of
the interpreter runs instead of Spike's function; here each line is an `Act`
that returns the next pc. The macros of interpreter.cc keep their names: `r1`,
`r2` and `imm` read the operands, `wrd` writes the destination, `wpc` passes a
jump through the timing model. So a line here can be read against the line of
the file.

Most lines have one of a few shapes: a value that is computed and written, a
store, a branch, a jump that links, and the line around a compare-and-swap.
Each shape is a definition with the length of the instruction as a parameter,
since the compressed lines differ from the full-size ones in that, and the
lines are these shapes applied to their own expressions.

The arithmetic is that of C++ on `long` and on the narrower types the lines
cast to. Sums and differences wrap, as they do when compiled. A shift by the
width of its type or more has no meaning and is a `crash`.

`Opcode.action` is the switch, and `none` is its `default`, through which an
instruction goes to Spike's function. `ecall` is not here: it needs the whole
hart.
-/

namespace Cavatools.Uspike

/-! ## The text -/

structure InsnSpace where
  base : Long
  limit : Long
  entry : Long
  predecoded : List Insn

namespace InsnSpace

variable (code : InsnSpace)

def valid (pc : Long) : Bool := code.base.sle pc && pc.slt code.limit

/-- `index`, without the check it makes first. -/
def slot (pc : Long) : Nat := (pc - code.base).toNat / 2

/-- `at`: `none` where `checkif` stops the process or the slot does not exist. -/
def «at» (pc : Long) : Option Insn :=
  if code.valid pc then code.predecoded[code.slot pc]? else none

end InsnSpace

/-! ## The macros of the interpreter -/

section
variable {σ τ : Type} (i : Insn)

def wrd (e : Long) : Act σ τ Unit := writeX i.rd e

def r1 : Act σ τ Long := readX i.rs1
def r2 : Act σ τ Long := readX i.rs2
def imm : Long := i.immed

/-- `code.at(pc)` inside an action. -/
def fetch (code : InsnSpace) (pc : Long) : Act σ τ Insn :=
  match code.at pc with
  | some i => pure i
  | none => crash

/-! ## C++ arithmetic -/

def int32_t (v : Long) : BitVec 32 := v.setWidth 32
def uint32_t (v : Long) : BitVec 32 := v.setWidth 32

/-- An `int` converted to `long`. -/
def ofInt32 (v : BitVec 32) : Long := v.signExtend 64
/-- An `unsigned int` converted to `long`. -/
def ofUint32 (v : BitVec 32) : Long := v.setWidth 64

/-- `bool` converted to `long`. -/
def ofBool (b : Bool) : Long := if b then 1 else 0

/-- `a >= b` on `int64_t`. -/
def sge (a b : Long) : Bool := b.sle a
/-- `a >= b` on `uint64_t`. -/
def uge (a b : Long) : Bool := b.ule a

/-- `a << n` on a type of `w` bits, the shift amount as a `uint64_t`. -/
def shl {w : Nat} (a : BitVec w) (n : Long) : Act σ τ (BitVec w) :=
  if n.toNat < w then pure (a <<< n.toNat) else crash

/-- `a >> n` on an unsigned type. -/
def shr {w : Nat} (a : BitVec w) (n : Long) : Act σ τ (BitVec w) :=
  if n.toNat < w then pure (a >>> n.toNat) else crash

/-- `a >> n` on a signed type. -/
def sar {w : Nat} (a : BitVec w) (n : Long) : Act σ τ (BitVec w) :=
  if n.toNat < w then pure (a.sshiftRight n.toNat) else crash

/-! ## The shapes of the lines -/

variable (pc : Long)

/-- `wrd(e)`, then on to the next instruction. -/
def compute (len : Nat) (e : Act σ τ Long) : Act σ τ Long := do
  wrd i (← e)
  return pc + BitVec.ofNat 64 len

/-- A store, then on to the next instruction. -/
def store (len : Nat) (st : Long → Long → Long → Act σ τ Unit) : Act σ τ Long := do
  st ((← r1 i) + imm i) pc (← r2 i)
  return pc + BitVec.ofNat 64 len

variable (mmu : Mmu σ)

/-- `if (c) { wpc(pc+imm); break; }`, then on to the next instruction. -/
def branch (len : Nat) (c : Bool) : Act σ τ Long :=
  if c then jump_model mmu (pc + imm i) pc else return pc + BitVec.ofNat 64 len

/-- `{ long t=pc+len; wpc(npc); wrd(t); break; }`. -/
def link (len : Nat) (npc : Long) : Act σ τ Long := do
  let t := pc + BitVec.ofNat 64 len
  let pc ← jump_model mmu npc pc
  wrd i t
  return pc

variable (code : InsnSpace)

/-- `hart_t::cas<T>`, for a type `T` of `n` bytes. -/
def cas (n : Nat) : Act σ τ Bool := do
  let i ← fetch code pc
  let ptr ← readX i.rs1
  let expect : BitVec (8 * n) := (← readX i.rs2).setWidth (8 * n)
  let replace : BitVec (8 * n) := (← readX i.rs3).setWidth (8 * n)
  let oldval := (← get).mem.load ptr n
  if oldval = expect then
    modify fun m => { m with mem := m.mem.store ptr n replace }
  write_reg (← fetch code (pc + 4)).rs1 (oldval.signExtend 64)
  if oldval = expect then
    write_reg i.rd 0
  return oldval = expect

/-- `if (!cas<T>(pc)) { wpc(pc+code.at(pc+4).immed()+4); break; }`. -/
def casLine (len n : Nat) : Act σ τ Long := do
  if !(← cas pc code n) then
    jump_model mmu (pc + (← fetch code (pc + 4)).immed + 4) pc
  else
    return pc + BitVec.ofNat 64 len

/-! ## RV.fast -/

/-- The compressed lines. The opcodes without one go through Spike's functions. -/
def COp.fast : COp → Option (Act σ τ Long)
  | .c_addi4spn => some <| compute i pc 2 (return (← r1 i) + imm i)
  | .c_lw => some <| compute i pc 2 (do load_int32 mmu ((← r1 i) + imm i) pc)
  | .c_ld => some <| compute i pc 2 (do load_int64 mmu ((← r1 i) + imm i) pc)
  | .c_sw => some <| store i pc 2 (store_int32 mmu)
  | .c_sd => some <| store i pc 2 (store_int64 mmu)
  | .c_addi => some <| compute i pc 2 (return (← r1 i) + imm i)
  | .c_addiw => some <| compute i pc 2 (return ofInt32 (int32_t (← r1 i) + int32_t (imm i)))
  | .c_li => some <| compute i pc 2 (return imm i)
  | .c_addi16sp => some <| compute i pc 2 (return (← r1 i) + imm i)
  | .c_lui => some <| compute i pc 2 (return imm i)
  | .c_srli => some <| compute i pc 2 (do shr (← r1 i) (imm i))
  | .c_srai => some <| compute i pc 2 (do sar (← r1 i) (imm i))
  | .c_andi => some <| compute i pc 2 (return (← r1 i) &&& imm i)
  | .c_subw => some <| compute i pc 2 (return ofInt32 (int32_t (← r1 i) - int32_t (← r2 i)))
  | .c_addw => some <| compute i pc 2 (return ofInt32 (int32_t (← r1 i) + int32_t (← r2 i)))
  | .c_j => some <| jump_model mmu (pc + imm i) pc
  | .c_beqz => some <| do branch i pc mmu 2 ((← r1 i) == 0)
  | .c_bnez => some <| do branch i pc mmu 2 ((← r1 i) != 0)
  | .c_slli => some <| compute i pc 2 (do shl (← r1 i) (imm i))
  | .c_lwsp => some <| compute i pc 2 (do load_int32 mmu ((← r1 i) + imm i) pc)
  | .c_ldsp => some <| compute i pc 2 (do load_int64 mmu ((← r1 i) + imm i) pc)
  | .c_jr => some <| do jump_model mmu (← r1 i) pc
  | .c_mv => some <| compute i pc 2 (r2 i)
  | .c_jalr => some <| do link i pc mmu 2 (← r1 i)
  | .c_add => some <| compute i pc 2 (return (← r1 i) + (← r2 i))
  | .c_swsp => some <| store i pc 2 (store_int32 mmu)
  | .c_sdsp => some <| store i pc 2 (store_int64 mmu)
  | .c_fld | .c_fsd | .c_sub | .c_xor | .c_or | .c_and | .c_fldsp | .c_ebreak | .c_fsdsp => none

/-- The lines of the full-size opcodes. -/
def FastOp.fast : FastOp → Option (Act σ τ Long)
  | .lui => some <| compute i pc 4 (return imm i)
  | .auipc => some <| compute i pc 4 (return pc + imm i)
  | .jal => some <| link i pc mmu 4 (pc + imm i)
  | .jalr => some <| do link i pc mmu 4 (((← r1 i) + imm i) &&& ~~~1#64)
  | .beq => some <| do branch i pc mmu 4 ((← r1 i) == (← r2 i))
  | .bne => some <| do branch i pc mmu 4 ((← r1 i) != (← r2 i))
  | .blt => some <| do branch i pc mmu 4 ((← r1 i).slt (← r2 i))
  | .bge => some <| do branch i pc mmu 4 (sge (← r1 i) (← r2 i))
  | .bltu => some <| do branch i pc mmu 4 ((← r1 i).ult (← r2 i))
  | .bgeu => some <| do branch i pc mmu 4 (uge (← r1 i) (← r2 i))
  | .lb => some <| compute i pc 4 (do load_int8 mmu ((← r1 i) + imm i) pc)
  | .lh => some <| compute i pc 4 (do load_int16 mmu ((← r1 i) + imm i) pc)
  | .lw => some <| compute i pc 4 (do load_int32 mmu ((← r1 i) + imm i) pc)
  | .ld => some <| compute i pc 4 (do load_int64 mmu ((← r1 i) + imm i) pc)
  | .lbu => some <| compute i pc 4 (do load_uint8 mmu ((← r1 i) + imm i) pc)
  | .lhu => some <| compute i pc 4 (do load_uint16 mmu ((← r1 i) + imm i) pc)
  | .lwu => some <| compute i pc 4 (do load_uint32 mmu ((← r1 i) + imm i) pc)
  | .sb => some <| store i pc 4 (store_int8 mmu)
  | .sh => some <| store i pc 4 (store_int16 mmu)
  | .sw => some <| store i pc 4 (store_int32 mmu)
  | .sd => some <| store i pc 4 (store_int64 mmu)
  | .addi => some <| compute i pc 4 (return (← r1 i) + imm i)
  | .addiw => some <| compute i pc 4 (return ofInt32 (int32_t (← r1 i) + int32_t (imm i)))
  | .slti => some <| compute i pc 4 (return ofBool ((← r1 i).slt (imm i)))
  | .sltiu => some <| compute i pc 4 (return ofBool ((← r1 i).ult (imm i)))
  | .xori => some <| compute i pc 4 (return (← r1 i) ^^^ imm i)
  | .ori => some <| compute i pc 4 (return (← r1 i) ||| imm i)
  | .andi => some <| compute i pc 4 (return (← r1 i) &&& imm i)
  | .slli => some <| compute i pc 4 (do shl (← r1 i) (imm i))
  | .srli => some <| compute i pc 4 (do shr (← r1 i) (imm i))
  | .srai => some <| compute i pc 4 (do sar (← r1 i) (imm i))
  | .slliw => some <| compute i pc 4 (return ofUint32 (← shl (uint32_t (← r1 i)) (imm i)))
  | .srliw => some <| compute i pc 4 (return ofUint32 (← shr (uint32_t (← r1 i)) (imm i)))
  | .sraiw => some <| compute i pc 4 (return ofInt32 (← sar (int32_t (← r1 i)) (imm i)))
  | .add => some <| compute i pc 4 (return (← r1 i) + (← r2 i))
  | .sub => some <| compute i pc 4 (return (← r1 i) - (← r2 i))
  | .sll => some <| compute i pc 4 (do shl (← r1 i) (← r2 i))
  | .slt => some <| compute i pc 4 (return ofBool ((← r1 i).slt (← r2 i)))
  | .sltu => some <| compute i pc 4 (return ofBool ((← r1 i).ult (← r2 i)))
  | .xor => some <| compute i pc 4 (return (← r1 i) ^^^ (← r2 i))
  | .srl => some <| compute i pc 4 (do shr (← r1 i) (← r2 i))
  | .sra => some <| compute i pc 4 (do sar (← r1 i) (← r2 i))
  | .or => some <| compute i pc 4 (return (← r1 i) ||| (← r2 i))
  | .and => some <| compute i pc 4 (return (← r1 i) &&& (← r2 i))
  | .addw => some <| compute i pc 4 (return ofInt32 (int32_t (← r1 i) + int32_t (← r2 i)))
  | .subw => some <| compute i pc 4 (return ofInt32 (int32_t (← r1 i) - int32_t (← r2 i)))
  | .sllw => some <| compute i pc 4 (return ofUint32 (← shl (uint32_t (← r1 i)) (ofUint32 (uint32_t (← r2 i)))))
  | .srlw => some <| compute i pc 4 (return ofUint32 (← shr (uint32_t (← r1 i)) (ofUint32 (uint32_t (← r2 i)))))
  | .sraw => some <| compute i pc 4 (return ofInt32 (← sar (int32_t (← r1 i)) (ofInt32 (int32_t (← r2 i)))))
  | .cas12_w => some <| casLine pc mmu code 12 4
  | .cas12_d => some <| casLine pc mmu code 12 8
  | .cas10_w => some <| casLine pc mmu code 10 4
  | .cas10_d => some <| casLine pc mmu code 10 8
  | .ecall => none

/-- The switch of the interpreter, without `ecall`; `none` is its `default`. -/
def Opcode.action : Opcode → Option (Act σ τ Long)
  | .c op => op.fast i pc mmu
  | .fast op => op.fast i pc mmu code
  | .ZERO | .spike _ | .ILLEGAL | .UNKNOWN => none

end

end Cavatools.Uspike
