import Cavatools.Riscv.Expand

/-!
# The machine of the manual

One step fetches the word at the pc and does what the instruction it encodes
does: a base instruction, a shift by a register, a word instruction, a
compressed instruction of those that RV.fast has lines for, or `ecall`. What
the other instructions do, and what the operating system does, is a parameter
(`Elsewhere`) over the part `τ` of the state that is not registers and memory.

Nothing of the simulator is in here. The machine fetches from memory at every
step, it has no decoded text, no counters and no caches, and its meaning of an
instruction is the one of the manual, so that a simulator which agrees with it
is right and not merely consistent.

A step is a relation (`Step`), with one rule for each kind of instruction, so
no function has to decide which one a word is. `Steps` counts steps and `Path`
lists the pcs at which they are made; both carry a condition on the state
before each step, so that a theorem can be about those runs only that meet it.
A run stops where no step is defined, at an encoding that is not of the
manual's or at a call that the parameter does not answer.
-/

namespace Cavatools.Riscv

open Uspike (COp)

/-! ## The shifts by a register -/

inductive Shift
  | sll | srl | sra
  deriving DecidableEq, Repr

def Shift.Encodes (w : BitVec 32) : Shift → Prop
  | .sll => opcode w = 0x33 ∧ funct3 w = 1 ∧ funct7 w = 0
  | .srl => opcode w = 0x33 ∧ funct3 w = 5 ∧ funct7 w = 0
  | .sra => opcode w = 0x33 ∧ funct3 w = 5 ∧ funct7 w = 0x20

/-- The amount is the low six bits of the second operand. -/
def Shift.result (a b : BitVec 64) : Shift → BitVec 64
  | .sll => a <<< (b.setWidth 6).toNat
  | .srl => a >>> (b.setWidth 6).toNat
  | .sra => a.sshiftRight (b.setWidth 6).toNat

/-! ## The compressed instructions -/

namespace ArchState

variable (s : ArchState)

/-- `x[r] = v`, and on to the next instruction, `len` bytes on. -/
def wrote (r : BitVec 5) (v : BitVec 64) (len : Nat) : ArchState :=
  { s with x := setX s.x r v, pc := s.pc + BitVec.ofNat 64 len }

/-- The `n` low bytes of `v` at `a`, and on to the next compressed instruction. -/
def cStored (a : BitVec 64) (n : Nat) (v : BitVec 64) : ArchState :=
  { s with mem := s.mem.store a n (v.setWidth (8 * n)), pc := s.pc + 2 }

end ArchState

/-- What a compressed instruction does, on the operands it names. -/
def execC (h : BitVec 16) (s : ArchState) (op : COp) : Option ArchState :=
  let d := xNumber (operands h op).rd
  let a := s.x (xNumber (operands h op).rs1)
  let b := s.x (xNumber (operands h op).rs2)
  let v := (operands h op).imm.getD 0
  match op with
  | .c_addi4spn | .c_addi | .c_addi16sp => some (s.wrote d (a + v) 2)
  | .c_li | .c_lui => some (s.wrote d v 2)
  | .c_addiw => some (s.wrote d ((a.setWidth 32 + v.setWidth 32).signExtend 64) 2)
  | .c_andi => some (s.wrote d (a &&& v) 2)
  | .c_slli => some (s.wrote d (a <<< v.toNat) 2)
  | .c_srli => some (s.wrote d (a >>> v.toNat) 2)
  | .c_srai => some (s.wrote d (a.sshiftRight v.toNat) 2)
  | .c_mv => some (s.wrote d b 2)
  | .c_add => some (s.wrote d (a + b) 2)
  | .c_addw => some (s.wrote d ((a.setWidth 32 + b.setWidth 32).signExtend 64) 2)
  | .c_subw => some (s.wrote d ((a.setWidth 32 - b.setWidth 32).signExtend 64) 2)
  | .c_lw | .c_lwsp => some (s.wrote d ((s.mem.load (a + v) 4).signExtend 64) 2)
  | .c_ld | .c_ldsp => some (s.wrote d (s.mem.load (a + v) 8) 2)
  | .c_sw | .c_swsp => some (s.cStored (a + v) 4 b)
  | .c_sd | .c_sdsp => some (s.cStored (a + v) 8 b)
  | .c_j => some { s with pc := s.pc + v }
  | .c_beqz => some { s with pc := if a = 0 then s.pc + v else s.pc + 2 }
  | .c_bnez => some { s with pc := if a = 0 then s.pc + 2 else s.pc + v }
  | .c_jr => some { s with pc := a &&& ~~~1#64 }
  | .c_jalr => some { s with x := setX s.x 1 (s.pc + 2), pc := a &&& ~~~1#64 }
  | .c_fld | .c_fsd | .c_sub | .c_xor | .c_or | .c_and | .c_fldsp | .c_ebreak | .c_fsdsp => none

/-! ## Steps -/

/-- The instructions and the environment calls that are defined elsewhere. -/
structure Elsewhere (τ : Type) where
  other : BitVec 32 → ArchState × τ → Option (ArchState × τ)
  ecall : ArchState × τ → Option (ArchState × τ)

/-- The word at the pc. -/
def ArchState.fetch (s : ArchState) : BitVec 32 := s.mem.load s.pc 4

/-- One instruction. -/
inductive Step {τ : Type} (e : Elsewhere τ) : ArchState × τ → ArchState × τ → Prop
  | rv64i {s : ArchState} {t : τ} {i : Rv64i} (henc : Encodes s.fetch i) : Step e (s, t) (exec s.fetch s i, t)
  | shift {s : ArchState} {t : τ} {i : Shift} (henc : i.Encodes s.fetch) :
      Step e (s, t) (s.wrote (rd s.fetch) (i.result (s.x (rs1 s.fetch)) (s.x (rs2 s.fetch))) 4, t)
  | word {s : ArchState} {t : τ} {i : Word} (hfull : i ≠ .c_addiw ∧ i ≠ .c_addw ∧ i ≠ .c_subw)
      (henc : i.Encodes s.fetch) : Step e (s, t) (s.wrote (i.dest s.fetch) (i.value s.fetch s.x) 4, t)
  | compressed {s s' : ArchState} {t : τ} {op : COp} (hlegal : Legal (half s.fetch) op)
      (hexec : execC (half s.fetch) s op = some s') : Step e (s, t) (s', t)
  | ecall {s : ArchState} {t : τ} {q : ArchState × τ} (henc : s.fetch = 0x73) (hcall : e.ecall (s, t) = some q) :
      Step e (s, t) q
  | other {s : ArchState} {t : τ} {q : ArchState × τ} (hother : e.other s.fetch (s, t) = some q) :
      Step e (s, t) q

/-- That many instructions, each from a state with `C`. -/
inductive Steps {τ : Type} (e : Elsewhere τ) (C : ArchState → Prop) :
    Nat → ArchState × τ → ArchState × τ → Prop
  | zero (q : ArchState × τ) : Steps e C 0 q q
  | succ {n : Nat} {q q' q'' : ArchState × τ} (hC : C q.1) (hstep : Step e q q') (hrest : Steps e C n q' q'') :
      Steps e C (n + 1) q q''

/-- A sequence of instructions, each from a state with `C`, and the pcs they are at. -/
inductive Path {τ : Type} (e : Elsewhere τ) (C : ArchState → Prop) :
    List (BitVec 64) → ArchState × τ → ArchState × τ → Prop
  | nil (q : ArchState × τ) : Path e C [] q q
  | cons {pcs : List (BitVec 64)} {q q' q'' : ArchState × τ} (hC : C q.1) (hstep : Step e q q')
      (hrest : Path e C pcs q' q'') : Path e C (q.1.pc :: pcs) q q''

end Cavatools.Riscv
