import Cavatools.Riscv.Word

/-!
# What the compressed instructions abbreviate

A compressed instruction stands for a full-size one, with the registers and
the immediate it names and `x0` or zero for what it does not name. This file
builds the word of that instruction and shows that it is one.

The first part fills in the boxes of a format (`Format.assemble`) and reads
each field back (`opcode_assemble` to `funct6_assemble`): going past the boxes
below is one rewrite for each, since a field starts where the widths below it
end.

The immediate is harder, because a format takes the bits of a value apart.
`Format.immBits` lists which bits it has boxes for, in the order of its
pieces, and `immPlace_immBits` says that each digit of the immediate is the
bit at its own position. So reading back gives the value if the format has
room for it (`Format.Fits`, `imm_assemble`): the bits above the highest box
repeat it, or are zero where the immediate is unsigned. `fits_immOf` has the
argument that serves all instructions at once. An immediate of another
encoding fits if it has no more digits, its sign is taken for one where the
format extends signs and it has none where the format does not, and it ends in
at least as many zeros.

The last part is the listing: `expandsTo` names the full-size instruction for
each compressed one that has a line of its own, `expand` is its word, and
`Full.encodes_assemble` shows that what was assembled is an encoding of what
it should be.
-/

namespace Cavatools.Riscv

open Uspike (COp)

/-! ## Building a word -/

/-- The boxes of a format, filled. -/
def Format.assemble (opcode : BitVec 7) (funct3 : BitVec 3) (funct7 : BitVec 7) (rd rs1 rs2 : BitVec 5)
    (imm : BitVec 64) : Format → BitVec 32
  | .R => (funct7 ++ rs2 ++ rs1 ++ funct3 ++ rd ++ opcode).cast rfl
  | .I => (imm.extractLsb' 0 12 ++ rs1 ++ funct3 ++ rd ++ opcode).cast rfl
  | .Sh => (funct7.extractLsb' 1 6 ++ imm.extractLsb' 0 6 ++ rs1 ++ funct3 ++ rd ++ opcode).cast rfl
  | .S => (imm.extractLsb' 5 7 ++ rs2 ++ rs1 ++ funct3 ++ imm.extractLsb' 0 5 ++ opcode).cast rfl
  | .B => (imm.extractLsb' 12 1 ++ imm.extractLsb' 5 6 ++ rs2 ++ rs1 ++ funct3 ++ imm.extractLsb' 1 4
      ++ imm.extractLsb' 11 1 ++ opcode).cast rfl
  | .U => (imm.extractLsb' 12 20 ++ rd ++ opcode).cast rfl
  | .J => (imm.extractLsb' 20 1 ++ imm.extractLsb' 1 10 ++ imm.extractLsb' 11 1 ++ imm.extractLsb' 12 8
      ++ rd ++ opcode).cast rfl

section
variable (op : BitVec 7) (f3 : BitVec 3) (f7 : BitVec 7) (d s t : BitVec 5) (v : BitVec 64)

/-- A field is found by going past the boxes below it. -/
theorem opcode_assemble (f : Format) : opcode (f.assemble op f3 f7 d s t v) = op := by
  cases f <;>
    simp (disch := decide) only [opcode, Format.assemble, BitVec.extractLsb'_cast,
      BitVec.extractLsb'_append_eq_of_add_le, BitVec.extractLsb'_eq_self]

theorem funct3_assemble {f : Format} (hf : f ≠ .U ∧ f ≠ .J) : funct3 (f.assemble op f3 f7 d s t v) = f3 := by
  cases f with
  | U => exact absurd rfl hf.1
  | J => exact absurd rfl hf.2
  | _ =>
    simp (disch := decide) only [funct3, Format.assemble, BitVec.extractLsb'_cast,
      BitVec.extractLsb'_append_eq_of_le, BitVec.extractLsb'_append_eq_of_add_le,
      BitVec.extractLsb'_eq_self, Nat.reduceSub]

theorem rd_assemble {f : Format} (hf : f ≠ .S ∧ f ≠ .B) : rd (f.assemble op f3 f7 d s t v) = d := by
  cases f with
  | S => exact absurd rfl hf.1
  | B => exact absurd rfl hf.2
  | _ =>
    simp (disch := decide) only [rd, Format.assemble, BitVec.extractLsb'_cast,
      BitVec.extractLsb'_append_eq_of_le, BitVec.extractLsb'_append_eq_of_add_le,
      BitVec.extractLsb'_eq_self, Nat.reduceSub]

theorem rs1_assemble {f : Format} (hf : f ≠ .U ∧ f ≠ .J) : rs1 (f.assemble op f3 f7 d s t v) = s := by
  cases f with
  | U => exact absurd rfl hf.1
  | J => exact absurd rfl hf.2
  | _ =>
    simp (disch := decide) only [rs1, Format.assemble, BitVec.extractLsb'_cast,
      BitVec.extractLsb'_append_eq_of_le, BitVec.extractLsb'_append_eq_of_add_le,
      BitVec.extractLsb'_eq_self, Nat.reduceSub]

theorem rs2_assemble {f : Format} (hf : f = .R ∨ f = .S ∨ f = .B) : rs2 (f.assemble op f3 f7 d s t v) = t := by
  rcases hf with rfl | rfl | rfl <;>
    simp (disch := decide) only [rs2, Format.assemble, BitVec.extractLsb'_cast,
      BitVec.extractLsb'_append_eq_of_le, BitVec.extractLsb'_append_eq_of_add_le,
      BitVec.extractLsb'_eq_self, Nat.reduceSub]

theorem funct7_assemble : funct7 (Format.R.assemble op f3 f7 d s t v) = f7 := by
  simp (disch := decide) only [funct7, Format.assemble, BitVec.extractLsb'_cast,
    BitVec.extractLsb'_append_eq_of_le, BitVec.extractLsb'_eq_self, Nat.reduceSub]

theorem funct6_assemble : funct6 (Format.Sh.assemble op f3 f7 d s t v) = f7.extractLsb' 1 6 := by
  simp (disch := decide) only [funct6, Format.assemble, BitVec.extractLsb'_cast,
    BitVec.extractLsb'_append_eq_of_le, BitVec.extractLsb'_eq_self, Nat.reduceSub]

/-- Which bits of the immediate a format has boxes for, in the order of its pieces. -/
def Format.immBits : Format → List (Nat × Nat)
  | .R => []
  | .I => [(11, 0)]
  | .Sh => [(5, 0)]
  | .S => [(11, 5), (4, 0)]
  | .B => [(12, 12), (11, 11), (10, 5), (4, 1)]
  | .U => [(31, 12)]
  | .J => [(20, 20), (19, 12), (11, 11), (10, 1)]

theorem immDigits_assemble {f : Format} {p : Bool × List (Nat × Nat) × Nat} (hp : p ∈ f.immPieces) :
    immDigits p.2.1 p.2.2 (f.assemble op f3 f7 d s t v) = immDigits f.immBits p.2.2 v := by
  cases f <;> cases hp <;>
    simp (disch := decide) only [Format.immBits, Format.assemble, immDigits, List.flatMap_cons,
      List.flatMap_nil, BitVec.extractLsb'_cast, BitVec.extractLsb'_append_eq_of_le,
      BitVec.extractLsb'_append_eq_of_add_le, Nat.reduceSub] <;>
    -- the lengths are sums only now, so that the boxes above keep their types
    simp only [Nat.reduceAdd, BitVec.extractLsb'_eq_self]

/-- The number of digits is that of the pieces. -/
theorem immLen_immBits {f : Format} {p : Bool × List (Nat × Nat) × Nat} (hp : p ∈ f.immPieces) :
    immLen p.2.1 p.2.2 = immLen f.immBits p.2.2 := by
  cases f <;> cases hp <;> rfl

/-- Every digit is the bit of the immediate at its own position. -/
theorem immPlace_immBits : ∀ f : Format, ∀ p ∈ f.immPieces, ∀ k < immLen f.immBits p.2.2,
    immPlace p.1 f.immBits p.2.2 k = if k < p.2.2 then none else some k := by
  intro f
  cases f <;> decide

/-- The immediates that a format has room for: the bits above its highest one repeat it, or are
zero where the immediate is unsigned, and the bits below its lowest one are zero. -/
def Format.Fits (f : Format) (v : BitVec 64) : Prop :=
  ∀ p ∈ f.immPieces, immOf p.1 f.immBits p.2.2 v = v

theorem imm_assemble {f : Format} (hv : f.Fits v) : ∀ u ∈ f.imm (f.assemble op f3 f7 d s t v), u = v := by
  intro u hu
  rw [Format.imm_eq, Option.mem_map] at hu
  obtain ⟨p, hp, rfl⟩ := hu
  refine Eq.trans ?_ (hv p hp)
  unfold immOf
  rw [immDigits_assemble op f3 f7 d s t v hp, immLen_immBits hp]

end

/-- An immediate of another encoding fits if it has no more digits, its sign is taken for one and
it has no fewer zeros. -/
theorem fits_immOf {n : Nat} {signed : Bool} {pieces : List (Nat × Nat)} {zeros : Nat} (h : BitVec n)
    {f : Format} (hpos : 0 < immLen pieces zeros)
    (hlen : ∀ p ∈ f.immPieces, immLen pieces zeros ≤ immLen f.immBits p.2.2)
    (hsign : ∀ p ∈ f.immPieces, p.1 = true → signed = true ∨ immLen pieces zeros < immLen f.immBits p.2.2)
    (hunsigned : ∀ p ∈ f.immPieces, p.1 = false → signed = false)
    (hzeros : ∀ p ∈ f.immPieces, ∀ k < p.2.2, immPlace signed pieces zeros k = none) :
    f.Fits (immOf signed pieces zeros h) := by
  intro p hp
  have hlen := hlen p hp
  have hbit {k : Nat} (hk : k < 64) (hlt : k < immLen f.immBits p.2.2) :
      (immOf signed pieces zeros h).getLsbD k
        = (immPlace p.1 f.immBits p.2.2 k).any (immOf signed pieces zeros h).getLsbD := by
    rw [immPlace_immBits f p hp k hlt]
    split
    case isTrue hz => rw [getLsbD_immOf _ _ _ _ hpos hk, hzeros p hp k hz, Option.any_none, Option.any_none]
    case isFalse => rfl
  symm
  refine immOf_eq (by omega) ?_
  intro k hk
  by_cases hlt : k < immLen f.immBits p.2.2
  · exact hbit hk hlt
  cases hs : p.1 with
  | false =>
    -- above its digits an unsigned immediate is zero on both sides
    have hu := hunsigned p hp hs
    subst hu
    rw [getLsbD_immOf _ _ _ _ hpos hk]
    unfold immPlace
    rw [if_neg (by omega), if_neg (by simp), if_neg hlt, if_neg (by simp)]
    rfl
  | true =>
    -- and a signed one repeats the last bit, here and there
    have hmin : min k (immLen f.immBits p.2.2 - 1) = immLen f.immBits p.2.2 - 1 := by omega
    have hlast := hbit (k := immLen f.immBits p.2.2 - 1) (by omega) (by omega)
    have hsign := hsign p hp hs
    rw [← hmin, hs, immPlace_min (by omega) (Or.inl rfl)] at hlast
    rw [← hlast, getLsbD_immOf _ _ _ _ hpos hk, getLsbD_immOf _ _ _ _ hpos (by omega),
      immPlace_min (by omega) (hsign.imp_right (by omega))]

/-! ## The full-size instructions -/

/-- What compressed instructions abbreviate: base instructions and three word instructions. -/
inductive Full
  | base (i : Rv64i)
  | addiw | addw | subw
  deriving DecidableEq, Repr

/-- The fixed fields of an encoding. -/
structure Row where
  format : Format
  opcode : BitVec 7
  funct3 : BitVec 3
  funct7 : BitVec 7

def Rv64i.row (i : Rv64i) : Row :=
  match i with
  | .lui => ⟨i.format, 0x37, 0, 0⟩
  | .auipc => ⟨i.format, 0x17, 0, 0⟩
  | .jal => ⟨i.format, 0x6f, 0, 0⟩
  | .jalr => ⟨i.format, 0x67, 0, 0⟩
  | .beq => ⟨i.format, 0x63, 0, 0⟩
  | .bne => ⟨i.format, 0x63, 1, 0⟩
  | .blt => ⟨i.format, 0x63, 4, 0⟩
  | .bge => ⟨i.format, 0x63, 5, 0⟩
  | .bltu => ⟨i.format, 0x63, 6, 0⟩
  | .bgeu => ⟨i.format, 0x63, 7, 0⟩
  | .lb => ⟨i.format, 0x03, 0, 0⟩
  | .lh => ⟨i.format, 0x03, 1, 0⟩
  | .lw => ⟨i.format, 0x03, 2, 0⟩
  | .ld => ⟨i.format, 0x03, 3, 0⟩
  | .lbu => ⟨i.format, 0x03, 4, 0⟩
  | .lhu => ⟨i.format, 0x03, 5, 0⟩
  | .lwu => ⟨i.format, 0x03, 6, 0⟩
  | .sb => ⟨i.format, 0x23, 0, 0⟩
  | .sh => ⟨i.format, 0x23, 1, 0⟩
  | .sw => ⟨i.format, 0x23, 2, 0⟩
  | .sd => ⟨i.format, 0x23, 3, 0⟩
  | .addi => ⟨i.format, 0x13, 0, 0⟩
  | .slti => ⟨i.format, 0x13, 2, 0⟩
  | .sltiu => ⟨i.format, 0x13, 3, 0⟩
  | .xori => ⟨i.format, 0x13, 4, 0⟩
  | .ori => ⟨i.format, 0x13, 6, 0⟩
  | .andi => ⟨i.format, 0x13, 7, 0⟩
  | .slli => ⟨i.format, 0x13, 1, 0⟩
  | .srli => ⟨i.format, 0x13, 5, 0⟩
  | .srai => ⟨i.format, 0x13, 5, 0x20⟩
  | .add => ⟨i.format, 0x33, 0, 0⟩
  | .sub => ⟨i.format, 0x33, 0, 0x20⟩
  | .slt => ⟨i.format, 0x33, 2, 0⟩
  | .sltu => ⟨i.format, 0x33, 3, 0⟩
  | .xor => ⟨i.format, 0x33, 4, 0⟩
  | .or => ⟨i.format, 0x33, 6, 0⟩
  | .and => ⟨i.format, 0x33, 7, 0⟩

def Full.row : Full → Row
  | .base i => i.row
  | .addiw => ⟨.I, 0x1b, 0, 0⟩
  | .addw => ⟨.R, 0x3b, 0, 0⟩
  | .subw => ⟨.R, 0x3b, 0, 0x20⟩

def Full.Encodes (w : BitVec 32) : Full → Prop
  | .base i => Riscv.Encodes w i
  | .addiw => Word.Encodes w .addiw
  | .addw => Word.Encodes w .addw
  | .subw => Word.Encodes w .subw

def Row.assemble (r : Row) (rd rs1 rs2 : BitVec 5) (imm : BitVec 64) : BitVec 32 :=
  r.format.assemble r.opcode r.funct3 r.funct7 rd rs1 rs2 imm

/-- The fixed fields of a row are those that its encoding asks for. -/
theorem Full.encodes_assemble (f : Full) (d s t : BitVec 5) (v : BitVec 64) :
    f.Encodes (f.row.assemble d s t v) := by
  have hop := opcode_assemble f.row.opcode f.row.funct3 f.row.funct7 d s t v f.row.format
  have h3 := funct3_assemble f.row.opcode f.row.funct3 f.row.funct7 d s t v (f := f.row.format)
  have h6 := funct6_assemble f.row.opcode f.row.funct3 f.row.funct7 d s t v
  have h7 := funct7_assemble f.row.opcode f.row.funct3 f.row.funct7 d s t v
  cases f with
  | base i =>
    cases i with
    | lui | auipc | jal => exact hop
    | slli | srli | srai => exact ⟨hop, h3 (by decide), h6⟩
    | add | sub | slt | sltu | xor | or | and => exact ⟨hop, h3 (by decide), h7⟩
    | _ => exact ⟨hop, h3 (by decide)⟩
  | addiw => exact ⟨hop, h3 (by decide)⟩
  | addw | subw => exact ⟨hop, h3 (by decide), h7⟩

/-! ## The expansion -/

/-- The instruction that a compressed one with a line of its own abbreviates. -/
def expandsTo : COp → Option Full
  | .c_addi4spn | .c_addi | .c_li | .c_addi16sp => some (.base .addi)
  | .c_addiw => some .addiw
  | .c_lui => some (.base .lui)
  | .c_lw | .c_lwsp => some (.base .lw)
  | .c_ld | .c_ldsp => some (.base .ld)
  | .c_sw | .c_swsp => some (.base .sw)
  | .c_sd | .c_sdsp => some (.base .sd)
  | .c_srli => some (.base .srli)
  | .c_srai => some (.base .srai)
  | .c_andi => some (.base .andi)
  | .c_slli => some (.base .slli)
  | .c_subw => some .subw
  | .c_addw => some .addw
  | .c_j => some (.base .jal)
  | .c_beqz => some (.base .beq)
  | .c_bnez => some (.base .bne)
  | .c_jr | .c_jalr => some (.base .jalr)
  | .c_mv | .c_add => some (.base .add)
  | .c_fld | .c_fsd | .c_sub | .c_xor | .c_or | .c_and | .c_fldsp | .c_ebreak | .c_fsdsp => none

/-- The number of an operand, `x0` if there is none. -/
def xNumber : Option Reg → BitVec 5
  | some (.x n) => n
  | _ => 0

/-- The word of the full-size instruction. -/
def expand (h : BitVec 16) (op : COp) : Option (BitVec 32) :=
  (expandsTo op).map fun f => f.row.assemble (xNumber (operands h op).rd) (xNumber (operands h op).rs1)
    (xNumber (operands h op).rs2) ((operands h op).imm.getD 0)

end Cavatools.Riscv
