import Cavatools.Uspike.Decode
import Cavatools.Riscv.Compressed

/-!
# The compressed decoder

Every legal RV64DC halfword, whatever halfword follows it in memory, is
decoded by the first-match chain of RVC.bits to its instruction, with the
operands and the immediate of the manual.

The order of the file matters at four places only: `c.addi16sp` stands before
`c.lui`, `c.jr` before `c.mv`, and `c.ebreak` and `c.jalr` before `c.add`;
everywhere else two templates fix some bit to different digits
(`rvc_conflict`). `shadows` lists these places, the rest is decided over the
table from masks and codes that are computed once (`rvcKeys`). A halfword that
is legal for an instruction passes the test of its template (`legal_test`) and
fails those of the entries that shadow it (`shadow_test`), by the fields that
the manual reserves; so it is the first entry that matches (`rvc_first`).

The operands are stated through data: `Source` says where an operand comes
from, as a field of one of the formats or an implied register, and has both
the generated expression and the manual's operand; that the two agree is
proved once for each source (`source_byte`). Immediates are data as well
(`immPieces`), and the template takes each bit from where the manual puts it
(`rvc_place`), by computation; the bit-by-bit theory of `Decode` does the rest
(`rvc_immed`). Only `c.lui` has a long immediate.

`rvc_decode` collects the opcode, the operands and the immediate.
-/

namespace Cavatools.Uspike

open Riscv

/-! ## The table as a whole -/

theorem RVC_bits_wellFormed (op : COp) : WellFormed (RVC_bits op).2 := by
  cases op <;> decide

theorem width_RVC_bits (op : COp) : width (RVC_bits op).2 = 16 := by
  cases op <;> decide

theorem mem_rvcOrder (op : COp) : op ∈ rvcOrder := by
  cases op <;> decide

/-- The earlier entries of the file that may match a word meant for `op`. -/
def shadows : COp → List COp
  | .c_lui => [.c_addi16sp]
  | .c_mv => [.c_jr]
  | .c_jalr => [.c_ebreak]
  | .c_add => [.c_ebreak, .c_jalr]
  | _ => []

/-- The opcodes of the file with their masks and codes. -/
def rvcKeys : List (COp × Nat × Nat) := rvcOrder.map fun op => (op, (rvcEntry op).maskCode)

theorem mem_rvcKeys {op : COp} (hop : op ∈ rvcOrder) : (op, (rvcEntry op).maskCode) ∈ rvcKeys :=
  List.mem_map.mpr ⟨op, hop, rfl⟩

theorem rvcKeys_clash : ∀ a ∈ rvcKeys, ∀ b ∈ rvcKeys, b.1 ∈ rvcOrder.takeWhile (· != a.1) →
    b.1 ∉ shadows a.1 → clash a.2 b.2 = true := by
  decide +kernel

theorem rvc_conflict (op : COp) {op' : COp} (hop' : op' ∈ rvcOrder.takeWhile (· != op))
    (hs : op' ∉ shadows op) : (rvcEntry op).conflict (rvcEntry op') = true := by
  rw [conflict_eq_clash]
  exact rvcKeys_clash _ (mem_rvcKeys (mem_rvcOrder op)) _
    (mem_rvcKeys (mem_rvcOrder op')) hop' hs

/-! ## Tests -/

/-- A field of the low halfword is that field of the word. -/
theorem extract_low {b : BitVec 32} {lo n : Nat} (h : lo + n ≤ 16) :
    (b.setWidth 16).extractLsb' lo n = b.extractLsb' lo n := by
  apply BitVec.eq_of_getLsbD_eq
  intro i hi
  simp [hi]
  omega

theorem rvc_test_iff (op : COp) (b : BitVec 32) :
    (rvcEntry op).test b = true ↔ FixedAt b (RVC_bits op).2 :=
  test_iff_fixed (rvcEntry op) (by rw [rvcEntry, width_RVC_bits]; omega) b

theorem legal_test {op : COp} {b : BitVec 32} (h : Legal (b.setWidth 16) op) :
    (rvcEntry op).test b = true := by
  rw [rvc_test_iff]
  cases op <;>
    simp only [Legal, cOp, cFunct3, cFunct1, cFunct2, cFunct2', cRd, cRs2, extract_low,
      Nat.reduceAdd, Nat.reduceLeDiff] at h <;>
    simp [RVC_bits, FixedAt, width, Token.width, regs, h]

/-! ## First match -/

/-- What a halfword legal for `op` fails of the entries that shadow it. -/
theorem shadow_test {op op' : COp} {b : BitVec 32} (h : Legal (b.setWidth 16) op)
    (hs : op' ∈ shadows op) : (rvcEntry op').test b = false := by
  rw [← Bool.not_eq_true, rvc_test_iff]
  intro hfix
  cases op with
  | c_lui =>
    obtain rfl : op' = .c_addi16sp := by simpa [shadows] using hs
    simp only [Legal, cRd, extract_low, Nat.reduceAdd, Nat.reduceLeDiff] at h
    have hrd : b.extractLsb' 7 5 = 2#5 := by
      simp only [RVC_bits, FixedAt, width] at hfix
      exact hfix.2.1
    exact h.2.2.1 hrd
  | c_mv =>
    obtain rfl : op' = .c_jr := by simpa [shadows] using hs
    simp only [Legal, cRs2, extract_low, Nat.reduceAdd, Nat.reduceLeDiff] at h
    have hrs2 : b.extractLsb' 2 5 = 0#5 := by
      simp only [RVC_bits, FixedAt, width] at hfix
      exact hfix.2.2.1
    exact h.2.2.2 hrs2
  | c_jalr =>
    obtain rfl : op' = .c_ebreak := by simpa [shadows] using hs
    simp only [Legal, cRd, extract_low, Nat.reduceAdd, Nat.reduceLeDiff] at h
    have hrd : b.extractLsb' 7 5 = 0#5 := by
      simp only [RVC_bits, FixedAt, width] at hfix
      exact hfix.2.2.1
    exact h.2.2.2.1 hrd
  | c_add =>
    simp only [Legal, cRs2, extract_low, Nat.reduceAdd, Nat.reduceLeDiff] at h
    have hrs2 : b.extractLsb' 2 5 = 0#5 := by
      have hor : op' = .c_ebreak ∨ op' = .c_jalr := by simpa [shadows] using hs
      rcases hor with rfl | rfl <;> simp only [RVC_bits, FixedAt, width] at hfix
      · exact hfix.2.2.2.1
      · exact hfix.2.2.1
    exact h.2.2.2 hrs2
  | _ => cases hs

theorem rvcOrder_split (op : COp) :
    ∃ post, rvcOrder = rvcOrder.takeWhile (· != op) ++ op :: post := by
  cases op <;> exact ⟨_, rfl⟩

/-- The first entry that matches and that no entry shadows there. -/
theorem rvc_first_of_test {op : COp} {b : BitVec 32} (htest : (rvcEntry op).test b = true)
    (hshadow : ∀ op' ∈ shadows op, (rvcEntry op').test b = false) (rest : List Entry) :
    decoder (rvcChain ++ rest) b = (rvcEntry op).build b := by
  obtain ⟨post, hsplit⟩ := rvcOrder_split op
  have hchain : rvcChain ++ rest = (rvcOrder.takeWhile (· != op)).map rvcEntry
      ++ rvcEntry op :: (post.map rvcEntry ++ rest) := by
    unfold rvcChain
    conv_lhs => rw [hsplit]
    simp
  rw [hchain]
  refine decoder_eq htest ?_
  intro e' he'
  obtain ⟨op', hop', rfl⟩ := List.mem_map.mp he'
  by_cases hs : op' ∈ shadows op
  · exact hshadow op' hs
  · exact test_of_conflict (by rw [rvcEntry, width_RVC_bits]; omega)
      (by rw [rvcEntry, width_RVC_bits]; omega) (rvc_conflict op hop' hs) htest

theorem rvc_first {op : COp} {b : BitVec 32} (h : Legal (b.setWidth 16) op) (rest : List Entry) :
    decoder (rvcChain ++ rest) b = (rvcEntry op).build b :=
  rvc_first_of_test (legal_test h) (fun _ hs => shadow_test h hs) rest

/-! ## Operands -/

/-- The register numbers of `Insn_t`. -/
def regNumber : Option Reg → BitVec 8
  | none => NOREG
  | some (.x n) => n.setWidth 8
  | some (.f n) => n.setWidth 8 + 32

/-- Where an operand of a compressed instruction comes from. -/
inductive Source
  | none | x1 | x2 | rd | rs2 | rd' | rs1' | frd | frs2 | frd'

/-- The generated expression. -/
def Source.expr : Source → RegExpr
  | .none => .NOREG
  | .x1 => .lit 1
  | .x2 => .lit 2
  | .rd => .x 7 5 0
  | .rs2 => .x 2 5 0
  | .rd' => .x 2 3 8
  | .rs1' => .x 7 3 8
  | .frd => .x 7 5 32
  | .frs2 => .x 2 5 32
  | .frd' => .x 2 3 40

/-- The operand of the manual. -/
def Source.operand (h : BitVec 16) : Source → Option Reg
  | .none => Option.none
  | .x1 => some (.x 1)
  | .x2 => some (.x 2)
  | .rd => some (.x (cRd h))
  | .rs2 => some (.x (cRs2 h))
  | .rd' => some (.x (cRd' h))
  | .rs1' => some (.x (cRs1' h))
  | .frd => some (.f (cRd h))
  | .frs2 => some (.f (cRs2 h))
  | .frd' => some (.f (cRd' h))

/-- A three-bit register field names `x8`–`x15`. -/
theorem prime_byte (r : BitVec 3) : (r.setWidth 5 + 8).setWidth 8 = r.setWidth 8 + 8#8 := by
  revert r
  decide

/-- **Each source**: the expression that crunch_isa generates gives the register number of the
manual's operand, under every upper halfword. -/
theorem source_byte (s : Source) (b : BitVec 32) :
    (s.expr.eval b).setWidth 8 = regNumber (s.operand (b.setWidth 16)) := by
  cases s with
  | none =>
    show (-1#32).setWidth 8 = NOREG
    decide
  | x1 => rfl
  | x2 => rfl
  | rd =>
    unfold Source.expr
    rw [eval_x_byte b (by omega) (by omega), Source.operand, regNumber, cRd,
      extract_low (by omega)]
    exact BitVec.add_zero _
  | rs2 =>
    unfold Source.expr
    rw [eval_x_byte b (by omega) (by omega), Source.operand, regNumber, cRs2,
      extract_low (by omega)]
    exact BitVec.add_zero _
  | rd' =>
    unfold Source.expr
    rw [eval_x_byte b (by omega) (by omega), Source.operand, regNumber, cRd',
      extract_low (by omega), prime_byte]
  | rs1' =>
    unfold Source.expr
    rw [eval_x_byte b (by omega) (by omega), Source.operand, regNumber, cRs1',
      extract_low (by omega), prime_byte]
  | frd =>
    unfold Source.expr
    rw [eval_x_byte b (by omega) (by omega), Source.operand, regNumber, cRd,
      extract_low (by omega)]
    rfl
  | frs2 =>
    unfold Source.expr
    rw [eval_x_byte b (by omega) (by omega), Source.operand, regNumber, cRs2,
      extract_low (by omega)]
    rfl
  | frd' =>
    unfold Source.expr
    rw [eval_x_byte b (by omega) (by omega), Source.operand, regNumber, cRd',
      extract_low (by omega), prime_byte, BitVec.add_assoc]
    rfl

def rdSource : COp → Source
  | .c_addi4spn | .c_lw | .c_ld => .rd'
  | .c_fld => .frd'
  | .c_addi | .c_addiw | .c_li | .c_lui | .c_slli | .c_lwsp | .c_ldsp | .c_mv | .c_add => .rd
  | .c_addi16sp => .x2
  | .c_srli | .c_srai | .c_andi | .c_sub | .c_xor | .c_or | .c_and | .c_subw | .c_addw => .rs1'
  | .c_fldsp => .frd
  | .c_jalr => .x1
  | _ => .none

def rs1Source : COp → Source
  | .c_addi4spn | .c_addi16sp | .c_fldsp | .c_lwsp | .c_ldsp | .c_fsdsp | .c_swsp | .c_sdsp => .x2
  | .c_fld | .c_lw | .c_ld | .c_fsd | .c_sw | .c_sd | .c_beqz | .c_bnez => .rs1'
  | .c_srli | .c_srai | .c_andi | .c_sub | .c_xor | .c_or | .c_and | .c_subw | .c_addw => .rs1'
  | .c_addi | .c_addiw | .c_slli | .c_jr | .c_jalr | .c_add => .rd
  | _ => .none

def rs2Source : COp → Source
  | .c_fsd => .frd'
  | .c_sw | .c_sd | .c_sub | .c_xor | .c_or | .c_and | .c_subw | .c_addw => .rd'
  | .c_mv | .c_add | .c_swsp | .c_sdsp => .rs2
  | .c_fsdsp => .frs2
  | _ => .none

theorem rvc_rd (op : COp) (b : BitVec 32) :
    ((rvcEntry op).build b).rd = regNumber (operands (b.setWidth 16) op).rd := by
  have hexpr : (crunch (rvcEntry op).ty (rvcEntry op).bits).registers 0 = (rdSource op).expr := by
    cases op <;> decide
  have hoper : (operands (b.setWidth 16) op).rd = (rdSource op).operand (b.setWidth 16) := by
    cases op <;> rfl
  rw [Entry.build_rd, Entry.regByte, hexpr, source_byte, hoper]

/-- `c.lui` is the one compressed instruction with a long immediate. -/
theorem rvc_bigimm (op : COp) :
    (crunch (rvcEntry op).ty (rvcEntry op).bits).bigimm = decide (op = .c_lui) := by
  cases op <;> decide

theorem rvc_bigimm_false {op : COp} (hlui : op ≠ .c_lui) :
    (crunch (rvcEntry op).ty (rvcEntry op).bits).bigimm = false := by
  rw [rvc_bigimm]
  simpa using hlui

theorem rvc_rs1 (op : COp) (b : BitVec 32) :
    ((rvcEntry op).build b).rs1 = regNumber (operands (b.setWidth 16) op).rs1 := by
  by_cases hlui : op = .c_lui
  · subst hlui
    exact Entry.build_rs1_long _ b rfl
  have hexpr : (crunch (rvcEntry op).ty (rvcEntry op).bits).registers 1 = (rs1Source op).expr := by
    cases op <;> decide
  have hoper : (operands (b.setWidth 16) op).rs1 = (rs1Source op).operand (b.setWidth 16) := by
    cases op <;> rfl
  rw [Entry.build_rs1 _ b (rvc_bigimm_false hlui), Entry.regByte, hexpr, source_byte, hoper]

theorem rvc_rs2 {op : COp} (hlui : op ≠ .c_lui) (b : BitVec 32) :
    ((rvcEntry op).build b).rs2 = regNumber (operands (b.setWidth 16) op).rs2 := by
  have hexpr : (crunch (rvcEntry op).ty (rvcEntry op).bits).registers 2 = (rs2Source op).expr := by
    cases op <;> decide
  have hoper : (operands (b.setWidth 16) op).rs2 = (rs2Source op).operand (b.setWidth 16) := by
    cases op <;> rfl
  rw [Entry.build_rs2 _ b (rvc_bigimm_false hlui), Entry.regByte, hexpr, source_byte, hoper]

/-! ## Immediates -/

/-- The manual's immediate as data: whether it is signed, its pieces, its zeros. -/
def immPieces : COp → Option (Bool × List (Nat × Nat) × Nat)
  | .c_addi4spn => some (false, [(10, 7), (12, 11), (5, 5), (6, 6)], 2)
  | .c_fld | .c_ld | .c_fsd | .c_sd => some (false, [(6, 5), (12, 10)], 3)
  | .c_lw | .c_sw => some (false, [(5, 5), (12, 10), (6, 6)], 2)
  | .c_addi | .c_addiw | .c_li | .c_andi => some (true, [(12, 12), (6, 2)], 0)
  | .c_addi16sp => some (true, [(12, 12), (4, 3), (5, 5), (2, 2), (6, 6)], 4)
  | .c_lui => some (true, [(12, 12), (6, 2)], 12)
  | .c_srli | .c_srai | .c_slli => some (false, [(12, 12), (6, 2)], 0)
  | .c_j => some (true, [(12, 12), (8, 8), (10, 9), (6, 6), (7, 7), (2, 2), (11, 11), (5, 3)], 1)
  | .c_beqz | .c_bnez => some (true, [(12, 12), (6, 5), (2, 2), (11, 10), (4, 3)], 1)
  | .c_fldsp | .c_ldsp => some (false, [(4, 2), (12, 12), (6, 5)], 3)
  | .c_lwsp => some (false, [(3, 2), (12, 12), (6, 4)], 2)
  | .c_fsdsp | .c_sdsp => some (false, [(9, 7), (12, 10)], 3)
  | .c_swsp => some (false, [(8, 7), (12, 9)], 2)
  | _ => none

theorem operands_imm (op : COp) (h : BitVec 16) :
    (operands h op).imm = (immPieces op).map fun s => immOf s.1 s.2.1 s.2.2 h := by
  cases op <;> rfl

/-- How many bits of its immediate an entry stores. -/
def rvcStored (op : COp) : Nat := if op = .c_lui then 32 else 13

/-- The pieces lie in the low halfword and fit what the template stores. -/
theorem rvc_pieces (op : COp) : ∀ s ∈ immPieces op,
    0 < immLen s.2.1 s.2.2 ∧ immLen s.2.1 s.2.2 ≤ rvcStored op ∧
    (s.1 = true ∨ immLen s.2.1 s.2.2 ≤ rvcStored op - 1) ∧
    (∀ p ∈ s.2.1, p.2 + (p.1 - p.2 + 1) ≤ 16) ∧
    (crunch (rvcEntry op).ty (rvcEntry op).bits).registers 3 = .NOREG ∧
    (crunch (rvcEntry op).ty (rvcEntry op).bits).immed ≠ [] := by
  cases op <;> decide

/-- Bit by bit, the template takes the immediate from where the manual puts it. -/
theorem rvc_place (op : COp) : ∀ s ∈ immPieces op, ∀ k < rvcStored op,
    immSource (rvcEntry op).bits k = immPlace s.1 s.2.1 s.2.2 k := by
  cases op <;> decide

/-- The stored immediate is the manual's. -/
theorem rvc_immed {op : COp} {b : BitVec 32} {v : BitVec 64}
    (hv : (operands (b.setWidth 16) op).imm = some v) : ((rvcEntry op).build b).immed = v := by
  rw [operands_imm, Option.map_eq_some_iff] at hv
  obtain ⟨s, hs, rfl⟩ := hv
  obtain ⟨hpos, hlen, hsign, hlow, h3, himm⟩ := rvc_pieces op s hs
  have hplace := rvc_place op s hs
  rw [immOf_setWidth _ _ _ hlow]
  by_cases hlui : op = .c_lui
  · subst hlui
    exact Entry.immed_eq_immOf_long _ b (RVC_bits_wellFormed _) rfl (by decide) hpos hlen hsign hplace
  · unfold rvcStored at hlen hsign hplace
    rw [if_neg hlui] at hlen hsign hplace
    exact Entry.immed_eq_immOf _ b (RVC_bits_wellFormed _) (rvc_bigimm_false hlui) h3 himm hpos hlen
      hsign hplace

/-! ## The decoder -/

/-- **A legal compressed halfword decodes to its instruction**, whatever follows
it in memory and whatever riscv-opcodes adds to the end of the chain: the opcode,
the operands of the manual with the implied `x1` and `x2`, and the immediate. The
long immediate of `c.lui` overlays `rs2`. -/
theorem rvc_decode (op : COp) (b : BitVec 32) (h : Legal (b.setWidth 16) op) (rest : List Entry) :
    (decoder (rvcChain ++ rest) b).opcode = .c op ∧
    (decoder (rvcChain ++ rest) b).rd = regNumber (operands (b.setWidth 16) op).rd ∧
    (decoder (rvcChain ++ rest) b).rs1 = regNumber (operands (b.setWidth 16) op).rs1 ∧
    (op ≠ .c_lui →
      (decoder (rvcChain ++ rest) b).rs2 = regNumber (operands (b.setWidth 16) op).rs2) ∧
    ∀ v, (operands (b.setWidth 16) op).imm = some v → (decoder (rvcChain ++ rest) b).immed = v := by
  rw [rvc_first h]
  refine ⟨?_, rvc_rd op b, rvc_rs1 op b, fun hlui => rvc_rs2 hlui b, fun v hv => rvc_immed hv⟩
  rw [Entry.build_opcode]
  rfl

/-- `c.lui x15, 0xfffff` under an arbitrary upper halfword. -/
theorem rvc_decode_c_lui :
    (decoder (rvcChain ++ []) 0xdead77fd#32).opcode = .c .c_lui ∧
    (decoder (rvcChain ++ []) 0xdead77fd#32).rd = 15 ∧
    (decoder (rvcChain ++ []) 0xdead77fd#32).rs1 = NOREG ∧
    (decoder (rvcChain ++ []) 0xdead77fd#32).immed = 0xfffffffffffff000#64 := by
  obtain ⟨hop, hrd, hrs1, -, himm⟩ := rvc_decode .c_lui 0xdead77fd#32 (by unfold Legal; decide) []
  exact ⟨hop, hrd, hrs1, himm _ (by decide)⟩

end Cavatools.Uspike
