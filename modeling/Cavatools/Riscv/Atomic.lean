import Cavatools.Riscv.Rv64i

/-!
# Load-reserved, branch, store-conditional

The three-instruction compare-and-swap that compilers emit: a load-reserved, a
branch out of the loop if the loaded value is not the expected one, and a
store-conditional. This file says what these three do when they are executed
one after the other on one core, which is what a simulator that replaces them
by one host instruction has to agree with.

`lr` writes the sign-extended value that it loads, `bne` compares whole
registers (the compressed form compares with `x0`), and `sc` writes its
register to memory and 0 to its destination. The reservation is not modelled:
between the three instructions nothing else happens to the memory, so the
store-conditional succeeds. `CasSite` has the widths, the registers and the
offset of such a body, and `CasSite.original` chains the three, where the
second and the third see the registers that the one before has left, so that a
destination which is also the address or the expected value is overwritten on
the way.
-/

namespace Cavatools.Riscv

namespace ArchState

variable (s : ArchState)

/-- `lr.w` or `lr.d`, of `n` bytes; the loaded value is sign-extended. -/
def lr (n : Nat) (rd rs1 : BitVec 5) : ArchState :=
  { s with x := setX s.x rd ((s.mem.load (s.x rs1) n).signExtend 64), pc := s.pc + 4 }

/-- A `bne` or `c.bnez` of `len` bytes; the latter compares with `x0`. -/
def bne (len : Nat) (rs1 rs2 : BitVec 5) (offset : BitVec 64) : ArchState :=
  { s with pc := if s.x rs1 ≠ s.x rs2 then s.pc + offset else s.pc + BitVec.ofNat 64 len }

/-- A `sc.w` or `sc.d` that succeeds. -/
def sc (n : Nat) (rd rs1 rs2 : BitVec 5) : ArchState :=
  { x := setX s.x rd 0, pc := s.pc + 4,
    mem := s.mem.store (s.x rs1) n ((s.x rs2).setWidth (8 * n)) }

end ArchState

/-- A compare-and-swap loop body in three instructions. -/
structure CasSite where
  lrBytes : Nat
  branchLen : Nat
  scBytes : Nat
  load_reg : BitVec 5
  addr_reg : BitVec 5
  test_reg : BitVec 5
  newv_reg : BitVec 5
  flag_reg : BitVec 5
  offset : BitVec 64

/-- The three instructions: past the branch only when it falls through. -/
def CasSite.original (t : CasSite) (s : ArchState) : ArchState :=
  let s₁ := s.lr t.lrBytes t.load_reg t.addr_reg
  let s₂ := s₁.bne t.branchLen t.load_reg t.test_reg t.offset
  if s₁.x t.load_reg = s₁.x t.test_reg then s₂.sc t.scBytes t.flag_reg t.addr_reg t.newv_reg else s₂

end Cavatools.Riscv
