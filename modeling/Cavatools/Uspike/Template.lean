import Mathlib

/-!
# Instruction templates and the decode code generated from them

`crunch_isa` walks the `bits` string of every instruction from the right and
accumulates a mask, a code, one C expression per operand slot and a list of
immediate terms; `make_headers` prints these as one `if ((b & mask) == code)`
test of `decoder.h`. This file is that generator.

A template is a list of tokens, the words of the string, leftmost first: a
string of digits, a register name, or an immediate group with its ranges. The
register names come with a table of their places in the word, widths, what is
added to the field, and the slots of the descriptor that they fill. `crunch`
is the loop. Its variables are a structure, and `Crunch.token` is the body for
one word: digits go to the mask and the code, a register name to its slots,
and each range of a group becomes a term that moves its bits to their place,
the first one with its sign if the group is marked `-` (`Crunch.lead`,
`Crunch.range`). The flag for a long immediate is set on the way.

The generated C expressions are syntax (`RegExpr`, `Term`) that `eval` runs on
a fetched word, with the shifts of a 32-bit `int` that the macros `x` and `xs`
of `decoder()` perform. So what the generator does and what its output does
are two definitions, and what is proved about decoding is about the second, as
a function of the template.
-/

namespace Cavatools.Uspike

/-! ## Operand registers -/

def GPREG : Nat := 0
def FPREG : Nat := GPREG + 32
def VPREG : Nat := FPREG + 32
def VMREG : Nat := VPREG + 32

/-- The register names of crunch_isa's `regs` table. -/
inductive RegName
  | cfd | crd | cs2 | ds2 | fs4 | rs4 | cs1 | cd1 | rd1 | rs5
  | rd | fd | vd | vs3
  | rs1 | fs1 | vs1
  | rs2 | fs2 | vs2
  | rs3 | fs3
  | vm
  deriving DecidableEq, Repr

/-! The operand slots: `op_rd`, `op_rs1`, `op.rs2` and `op.rs3` of the descriptor. -/

abbrev rdSlot : Fin 4 := 0
abbrev rs1Slot : Fin 4 := 1
abbrev rs2Slot : Fin 4 := 2
abbrev rs3Slot : Fin 4 := 3

/-- One row of the table: bit position, width, what is added to the field, and the slots. -/
structure RegSpec where
  lo : Nat
  width : Nat
  offset : Nat
  slots : List (Fin 4)

def regs : RegName → RegSpec
  | .cfd => ⟨2, 3, 8 + FPREG, [0]⟩
  | .crd => ⟨2, 3, 8 + GPREG, [0]⟩
  | .cs2 => ⟨2, 3, 8 + GPREG, [2]⟩
  | .ds2 => ⟨2, 3, 8 + FPREG, [2]⟩
  | .fs4 => ⟨2, 5, FPREG, [2]⟩
  | .rs4 => ⟨2, 5, GPREG, [2]⟩
  | .cs1 => ⟨7, 3, 8 + GPREG, [1]⟩
  | .cd1 => ⟨7, 3, 8 + GPREG, [0, 1]⟩
  | .rd1 => ⟨7, 5, GPREG, [0, 1]⟩
  | .rs5 => ⟨7, 5, GPREG, [1]⟩
  | .rd => ⟨7, 5, GPREG, [0]⟩
  | .fd => ⟨7, 5, FPREG, [0]⟩
  | .vd => ⟨7, 5, VPREG, [0]⟩
  | .vs3 => ⟨7, 5, VPREG, [3]⟩
  | .rs1 => ⟨15, 5, GPREG, [1]⟩
  | .fs1 => ⟨15, 5, FPREG, [1]⟩
  | .vs1 => ⟨15, 5, VPREG, [1]⟩
  | .rs2 => ⟨20, 5, GPREG, [2]⟩
  | .fs2 => ⟨20, 5, FPREG, [2]⟩
  | .vs2 => ⟨20, 5, VPREG, [2]⟩
  | .rs3 => ⟨27, 5, GPREG, [3]⟩
  | .fs3 => ⟨27, 5, FPREG, [3]⟩
  | .vm => ⟨25, 1, VMREG, [3]⟩

/-! ## Templates -/

/-- One word of a `bits` string: a 0/1 string, a register name, or an immediate
group `{[-]h:l|...}` with its first range apart. -/
inductive Token
  | bits {n : Nat} (ds : BitVec n)
  | reg (r : RegName)
  | imm (signed : Bool) (first : Nat × Nat) (rest : List (Nat × Nat))

/-- Leftmost word first, as the string is written. -/
abbrev Template := List Token

/-- The `type` values crunch_isa looks at; every other type is `plain`. -/
inductive OpType
  | plain | crs | csl | css | cds | cjl
  deriving DecidableEq, Repr

/-! ## The generated expressions -/

/-- `x(lo, len)` of `decoder()`: `(b >> lo) & ((1 << len) - 1)` on an `int`. -/
def xField (b : BitVec 32) (lo len : Nat) : BitVec 32 :=
  b.sshiftRight lo &&& (1#32 <<< len - 1#32)

/-- `xs(lo, len)` of `decoder()`: `b << (32-lo-len) >> (32-len)` on an `int`. -/
def xsField (b : BitVec 32) (lo len : Nat) : BitVec 32 :=
  (b <<< (32 - lo - len)).sshiftRight (32 - len)

/-- What crunch_isa writes for one operand slot. -/
inductive RegExpr
  | NOREG
  | lit (n : Nat)
  | x (lo width offset : Nat)
  deriving DecidableEq, Repr

/-- The value of an operand expression, before the conversion to `int8_t`. -/
def RegExpr.eval (b : BitVec 32) : RegExpr → BitVec 32
  | .NOREG => -1#32
  | .lit n => BitVec.ofNat 32 n
  | .x lo width offset => xField b lo width + BitVec.ofNat 32 offset

/-- One immediate term, `x(pos,len)<<lo` or `xs(pos,len)<<lo`. -/
inductive Term
  | x (pos len lo : Nat)
  | xs (pos len lo : Nat)
  deriving DecidableEq, Repr

def Term.eval (b : BitVec 32) : Term → BitVec 32
  | .x pos len lo => xField b pos len <<< lo
  | .xs pos len lo => xsField b pos len <<< lo

/-- The terms joined by `|`. -/
def evalImmed (b : BitVec 32) (terms : List Term) : BitVec 32 :=
  terms.foldl (fun v t => v ||| t.eval b) 0#32

/-! ## The loop of crunch_isa -/

/-- The variables of the loop over one template. -/
structure Crunch where
  pos : Nat
  code : Nat
  mask : Nat
  immed : List Term
  bigimm : Bool
  registers : Fin 4 → RegExpr

/-- The implied operands that depend on the `type` of the instruction. -/
def initRegisters (ty : OpType) : Fin 4 → RegExpr :=
  let r : Fin 4 → RegExpr := fun _ => .NOREG
  let r := if ty = .csl ∨ ty = .css ∨ ty = .crs ∨ ty = .cds then Function.update r 1 (.lit 2) else r
  let r := if ty = .cjl then Function.update r 0 (.lit 1) else r
  if ty = .cds then Function.update r 0 (.lit 2) else r

def Crunch.init (ty : OpType) : Crunch := ⟨0, 0, 0, [], false, initRegisters ty⟩

/-- A range that is not the first of its group. -/
def Crunch.range (st : Crunch) (r : Nat × Nat) : Crunch :=
  { st with
    immed := st.immed ++ [.x st.pos (r.1 - r.2 + 1) r.2]
    pos := st.pos + (r.1 - r.2 + 1) }

/-- The first range of a group, the only one that may be sign-extended. -/
def Crunch.lead (st : Crunch) (signed : Bool) (r : Nat × Nat) : Crunch :=
  { st with
    bigimm := st.bigimm || decide (13 ≤ r.1)
    immed := st.immed ++
      [if signed then .xs st.pos (r.1 - r.2 + 1) r.2 else .x st.pos (r.1 - r.2 + 1) r.2]
    pos := st.pos + (r.1 - r.2 + 1) }

/-- One word of the template. -/
def Crunch.token (st : Crunch) : Token → Crunch
  | .bits (n := n) ds =>
    { st with
      code := st.code ||| ds.toNat <<< st.pos
      mask := st.mask ||| (1 <<< n - 1) <<< st.pos
      pos := st.pos + n }
  | .imm signed first rest => (rest.reverse.foldl Crunch.range st).lead signed first
  | .reg r =>
    { st with
      registers := (regs r).slots.foldl
        (fun f rn => Function.update f rn (.x (regs r).lo (regs r).width (regs r).offset))
        st.registers
      pos := st.pos + (regs r).width }

/-- The loop `for b in reversed(bits.split())`. -/
def crunch (ty : OpType) (t : Template) : Crunch :=
  t.reverse.foldl Crunch.token (Crunch.init ty)

/-- The test `(b & mask) == code` that make_headers prints. -/
def Crunch.test (c : Crunch) (b : BitVec 32) : Bool :=
  b &&& BitVec.ofNat 32 c.mask == BitVec.ofNat 32 c.code

end Cavatools.Uspike
