import Cavatools.Uspike.RvcDecode
import Cavatools.Riscv.Rv64i

/-!
# Decoding the full-size instructions

The templates that parse_opcodes makes of the standard lines, against the
formats of the manual. The question is what a word that encodes an RV64I
instruction decodes to.

No two of the templates match the same word (`fast_conflict`), and the
compressed ones match none of these words, since they do not end in `11`
(`fast_rvc_conflict`). Both are decided over the table of all listed opcodes,
from masks and codes that are computed once (`fastKeys`). So the order in
which riscv-opcodes lists them is free, and a word that matches the template
of an opcode decodes to it (`fast_first`, `rv64i_first`), whatever stands
behind the full-size part of the decoder.

That a word of the manual matches is a matter of fields. For each shape of
line one lemma says what its fixed digits are in the manual's terms
(`fixed_uLine` to `fixed_rLine`), and `encodes_test` goes through the
instructions with them. What the descriptor then holds is read off in the same
way: the operands are the fields, as register bytes, and the immediate is the
one of the format (`rv64i_immed`), because the template takes each bit from
where the format puts it (`rv64i_place`).
-/

namespace Cavatools.Uspike

open Riscv

/-- The opcode of an RV64I instruction. -/
def rv64iOp : Rv64i → FastOp
  | .lui => .lui | .auipc => .auipc | .jal => .jal | .jalr => .jalr
  | .beq => .beq | .bne => .bne | .blt => .blt | .bge => .bge | .bltu => .bltu | .bgeu => .bgeu
  | .lb => .lb | .lh => .lh | .lw => .lw | .ld => .ld | .lbu => .lbu | .lhu => .lhu | .lwu => .lwu
  | .sb => .sb | .sh => .sh | .sw => .sw | .sd => .sd
  | .addi => .addi | .slti => .slti | .sltiu => .sltiu | .xori => .xori | .ori => .ori
  | .andi => .andi | .slli => .slli | .srli => .srli | .srai => .srai
  | .add => .add | .sub => .sub | .slt => .slt | .sltu => .sltu | .xor => .xor | .or => .or
  | .and => .and

theorem rv64i_isSome (i : Rv64i) : (fastEntry (rv64iOp i)).isSome := by
  cases i <;> rfl

def rv64iEntry (i : Rv64i) : Entry := (fastEntry (rv64iOp i)).get (rv64i_isSome i)

theorem fastEntry_rv64iOp (i : Rv64i) : fastEntry (rv64iOp i) = some (rv64iEntry i) :=
  (Option.some_get _).symm

/-! ## The table as a whole -/

theorem mem_listedFast {op : FastOp} (h : (fastEntry op).isSome) : op ∈ listedFast := by
  cases op <;> first | decide | cases h

theorem width_fastEntry : ∀ op, ∀ e ∈ fastEntry op, width e.bits = 32 := by
  intro op
  cases op <;> decide

theorem wellFormed_rv64iEntry (i : Rv64i) : WellFormed (rv64iEntry i).bits := by
  cases i <;> decide

/-- The listed opcodes with their masks and codes. -/
def fastKeys : List (FastOp × Option (Nat × Nat)) :=
  listedFast.map fun op => (op, (fastEntry op).map Entry.maskCode)

theorem mem_fastKeys {op : FastOp} {e : Entry} (he : e ∈ fastEntry op) :
    (op, some e.maskCode) ∈ fastKeys := by
  have hsome : (fastEntry op).isSome := by
    rw [Option.mem_def.mp he]
    rfl
  refine List.mem_map.mpr ⟨op, mem_listedFast hsome, ?_⟩
  rw [Option.mem_def.mp he]
  rfl

theorem fastKeys_clash : ∀ a ∈ fastKeys, ∀ b ∈ fastKeys, a.1 ≠ b.1 →
    ∀ x ∈ a.2, ∀ y ∈ b.2, clash x y = true := by
  decide +kernel

theorem fastKeys_rvc_clash : ∀ a ∈ fastKeys, ∀ y ∈ rvcKeys, ∀ x ∈ a.2, clash x y.2 = true := by
  decide +kernel

/-- Any two of the templates fix some bit to different digits. -/
theorem fast_conflict {op op' : FastOp} (hne : op ≠ op') {e e' : Entry} (he : e ∈ fastEntry op)
    (he' : e' ∈ fastEntry op') : e.conflict e' = true := by
  rw [conflict_eq_clash]
  exact fastKeys_clash _ (mem_fastKeys he) _ (mem_fastKeys he') hne _ rfl _ rfl

/-- The compressed templates do not end in `11`, these do. -/
theorem fast_rvc_conflict {op : FastOp} {e : Entry} (he : e ∈ fastEntry op) {op' : COp}
    (hop' : op' ∈ rvcOrder) : e.conflict (rvcEntry op') = true := by
  rw [conflict_eq_clash]
  exact fastKeys_rvc_clash _ (mem_fastKeys he) _ (mem_rvcKeys hop') _ rfl

/-! ## Tests -/

section
variable (f7 : BitVec 7) (f3 : BitVec 3) (op : BitVec 7) (w : BitVec 32)

theorem matchBits_opcode : (matchBits f7 f3 op).extractLsb' 0 7 = op := by
  apply BitVec.eq_of_getLsbD_eq
  intro k hk
  simp [matchBits, hk, show k < 12 by omega, show k < 25 by omega, show k < 32 by omega]

theorem matchBits_funct3 : (matchBits f7 f3 op).extractLsb' 12 3 = f3 := by
  apply BitVec.eq_of_getLsbD_eq
  intro k hk
  simp [matchBits, hk, show 12 + k < 25 by omega, show 12 + k < 32 by omega,
    BitVec.getLsbD_of_ge op (12 + k) (by omega)]

theorem getLsbD_matchBits_funct7 {k : Nat} (hk : k < 7) :
    (matchBits f7 f3 op).getLsbD (25 + k) = f7.getLsbD k := by
  simp [matchBits, hk, show 25 + k < 32 by omega, BitVec.getLsbD_of_ge op (25 + k) (by omega),
    BitVec.getLsbD_of_ge f3 (25 + k - 12) (by omega)]

theorem matchBits_funct7 : (matchBits f7 f3 op).extractLsb' 25 7 = f7 := by
  apply BitVec.eq_of_getLsbD_eq
  intro k hk
  rw [BitVec.getLsbD_extractLsb', getLsbD_matchBits_funct7 _ _ _ hk]
  simp [hk]

theorem matchBits_funct6 : (matchBits f7 f3 op).extractLsb' 26 6 = f7.extractLsb' 1 6 := by
  apply BitVec.eq_of_getLsbD_eq
  intro k hk
  rw [BitVec.getLsbD_extractLsb', BitVec.getLsbD_extractLsb',
    show 26 + k = 25 + (1 + k) by omega, getLsbD_matchBits_funct7 _ _ _ (by omega)]

theorem fixed_uLine : FixedAt w (print_inst (uLine op)) ↔ opcode w = op := by
  show FixedAt w [argToken .imm20, .reg .rd, binary (matchBits 0 0 op) 0 7] ↔ _
  unfold binary
  rw [matchBits_opcode]
  simp [FixedAt, argToken, width, opcode]

theorem fixed_ujLine : FixedAt w (print_inst ⟨.plain, matchBits 0 0 op, [.rd, .jimm20]⟩)
    ↔ opcode w = op := by
  show FixedAt w [argToken .jimm20, .reg .rd, binary (matchBits 0 0 op) 0 7] ↔ _
  unfold binary
  rw [matchBits_opcode]
  simp [FixedAt, argToken, width, opcode]

theorem fixed_iLine : FixedAt w (print_inst (iLine f3 op)) ↔ opcode w = op ∧ funct3 w = f3 := by
  show FixedAt w [argToken .imm12, .reg .rs1, binary (matchBits 0 f3 op) 12 3, .reg .rd,
    binary (matchBits 0 f3 op) 0 7] ↔ _
  unfold binary
  rw [matchBits_opcode, matchBits_funct3]
  simp [FixedAt, argToken, width, Token.width, regs, opcode, funct3, and_comm]

theorem fixed_branchLine :
    FixedAt w (print_inst (branchLine f3)) ↔ opcode w = 0x63 ∧ funct3 w = f3 := by
  show FixedAt w [argToken .bimm12hi, .reg .rs2, .reg .rs1, binary (matchBits 0 f3 0x63) 12 3,
    argToken .bimm12lo, binary (matchBits 0 f3 0x63) 0 7] ↔ _
  unfold binary
  rw [matchBits_opcode, matchBits_funct3]
  simp [FixedAt, argToken, width, Token.width, opcode, funct3, and_comm]

theorem fixed_storeLine :
    FixedAt w (print_inst (storeLine f3)) ↔ opcode w = 0x23 ∧ funct3 w = f3 := by
  show FixedAt w [argToken .imm12hi, .reg .rs2, .reg .rs1, binary (matchBits 0 f3 0x23) 12 3,
    argToken .imm12lo, binary (matchBits 0 f3 0x23) 0 7] ↔ _
  unfold binary
  rw [matchBits_opcode, matchBits_funct3]
  simp [FixedAt, argToken, width, Token.width, opcode, funct3, and_comm]

/-- A shift by a constant fixes six bits above its amount. -/
theorem fixed_shiftLine : FixedAt w (print_inst (shiftLine f7 f3)) ↔
    opcode w = 0x13 ∧ funct3 w = f3 ∧ funct6 w = f7.extractLsb' 1 6 := by
  show FixedAt w [binary (matchBits f7 f3 0x13) 26 6, argToken .shamt, .reg .rs1,
    binary (matchBits f7 f3 0x13) 12 3, .reg .rd, binary (matchBits f7 f3 0x13) 0 7] ↔ _
  unfold binary
  rw [matchBits_opcode, matchBits_funct3, matchBits_funct6]
  simp only [FixedAt, argToken, width, opcode, funct3, funct6]
  constructor
  · rintro ⟨h6, h3, hop, -⟩
    exact ⟨hop, h3, h6⟩
  · rintro ⟨hop, h3, h6⟩
    exact ⟨h6, h3, hop, trivial⟩

/-- A word shift fixes seven. -/
theorem fixed_shiftwLine : FixedAt w (print_inst (shiftwLine f7 f3)) ↔
    opcode w = 0x1b ∧ funct3 w = f3 ∧ funct7 w = f7 := by
  show FixedAt w [binary (matchBits f7 f3 0x1b) 25 7, argToken .shamtw, .reg .rs1,
    binary (matchBits f7 f3 0x1b) 12 3, .reg .rd, binary (matchBits f7 f3 0x1b) 0 7] ↔ _
  unfold binary
  rw [matchBits_opcode, matchBits_funct3, matchBits_funct7]
  simp only [FixedAt, argToken, width, opcode, funct3, funct7]
  constructor
  · rintro ⟨h7, h3, hop, -⟩
    exact ⟨hop, h3, h7⟩
  · rintro ⟨hop, h3, h7⟩
    exact ⟨h7, h3, hop, trivial⟩

/-- A line with three registers. -/
theorem fixed_rLine : FixedAt w (print_inst (rLine f7 f3 op)) ↔
    opcode w = op ∧ funct3 w = f3 ∧ funct7 w = f7 := by
  show FixedAt w [binary (matchBits f7 f3 op) 25 7, .reg .rs2, .reg .rs1,
    binary (matchBits f7 f3 op) 12 3, .reg .rd, binary (matchBits f7 f3 op) 0 7] ↔ _
  unfold binary
  rw [matchBits_opcode, matchBits_funct3, matchBits_funct7]
  simp only [FixedAt, width, opcode, funct3, funct7]
  constructor
  · rintro ⟨h7, h3, hop, -⟩
    exact ⟨hop, h3, h7⟩
  · rintro ⟨hop, h3, h7⟩
    exact ⟨h7, h3, hop, trivial⟩

end

/-- A word of the manual passes the test of its instruction. -/
theorem encodes_test {i : Rv64i} {w : BitVec 32} (h : Encodes w i) : (rv64iEntry i).test w = true := by
  have hwidth := width_fastEntry _ _ (fastEntry_rv64iOp i)
  rw [test_iff_fixed _ (by omega)]
  cases i with
  | lui | auipc => exact (fixed_uLine _ w).mpr h
  | jal => exact (fixed_ujLine _ w).mpr h
  | beq | bne | blt | bge | bltu | bgeu => exact (fixed_branchLine _ w).mpr h
  | jalr | lb | lh | lw | ld | lbu | lhu | lwu => exact (fixed_iLine _ _ w).mpr h
  | addi | slti | sltiu | xori | ori | andi => exact (fixed_iLine _ _ w).mpr h
  | sb | sh | sw | sd => exact (fixed_storeLine _ w).mpr h
  | slli | srli | srai => exact (fixed_shiftLine _ _ w).mpr h
  | add | sub | slt | sltu | xor | or | and => exact (fixed_rLine _ _ _ w).mpr h

/-! ## First match -/

/-- The full-size part of the decoder, in the order of riscv-opcodes. -/
def fastChain (order : List FastOp) : List Entry := order.filterMap fastEntry

/-- A word that matches a full-size template decodes to it. -/
theorem fast_first {op : FastOp} {e : Entry} (he : e ∈ fastEntry op) {w : BitVec 32}
    (htest : e.test w = true) {order : List FastOp} (hop : op ∈ order) (rest : List Entry) :
    decoder (rvcChain ++ fastChain order ++ rest) w = e.build w := by
  obtain ⟨pre, post, rfl, hfresh⟩ := List.eq_append_cons_of_mem hop
  have hwidth := width_fastEntry _ _ he
  have hchain : rvcChain ++ fastChain (pre ++ op :: post) ++ rest
      = (rvcChain ++ fastChain pre) ++ e :: (fastChain post ++ rest) := by
    simp [fastChain, Option.mem_def.mp he]
  rw [hchain]
  refine decoder_eq htest ?_
  intro e' he'
  rcases List.mem_append.mp he' with hrvc | hfast
  · obtain ⟨op', hop', rfl⟩ := List.mem_map.mp hrvc
    exact test_of_conflict (by omega) (by rw [rvcEntry, width_RVC_bits]; omega)
      (fast_rvc_conflict he hop') htest
  · obtain ⟨op', hop', he'⟩ := List.mem_filterMap.mp hfast
    have hne : op ≠ op' := fun heq => hfresh (heq ▸ hop')
    exact test_of_conflict (by omega) (by rw [width_fastEntry _ _ he'])
      (fast_conflict hne he he') htest

theorem rv64i_first {i : Rv64i} {w : BitVec 32} (h : Encodes w i) {order : List FastOp}
    (hop : rv64iOp i ∈ order) (rest : List Entry) :
    decoder (rvcChain ++ fastChain order ++ rest) w = (rv64iEntry i).build w :=
  fast_first (fastEntry_rv64iOp i) (encodes_test h) hop rest

/-! ## Operands and immediates -/

/-- A five-bit register field as an operand byte. -/
theorem field_byte {lo : Nat} (h : lo + 5 ≤ 32) (w : BitVec 32) :
    ((RegExpr.x lo 5 0).eval w).setWidth 8 = (w.extractLsb' lo 5).setWidth 8 := by
  rw [eval_x_byte w (by omega) h]
  exact BitVec.add_zero _

theorem rv64i_bigimm (i : Rv64i) : (crunch (rv64iEntry i).ty (rv64iEntry i).bits).bigimm
    = decide (i.format = .U ∨ i.format = .J) := by
  cases i <;> decide

section
variable {i : Rv64i} (w : BitVec 32)

theorem rv64i_rd (h : i.format ≠ .S ∧ i.format ≠ .B) :
    ((rv64iEntry i).build w).rd = (rd w).setWidth 8 := by
  have hexpr : i.format ≠ .S ∧ i.format ≠ .B →
      (crunch (rv64iEntry i).ty (rv64iEntry i).bits).registers 0 = .x 7 5 0 := by
    cases i <;> decide
  rw [Entry.build_rd, Entry.regByte, hexpr h, field_byte (by omega)]
  rfl

theorem rv64i_rs1 (h : i.format ≠ .U ∧ i.format ≠ .J) :
    ((rv64iEntry i).build w).rs1 = (rs1 w).setWidth 8 := by
  have hexpr : i.format ≠ .U ∧ i.format ≠ .J →
      (crunch (rv64iEntry i).ty (rv64iEntry i).bits).registers 1 = .x 15 5 0 := by
    cases i <;> decide
  have hbig : (crunch (rv64iEntry i).ty (rv64iEntry i).bits).bigimm = false := by
    rw [rv64i_bigimm]
    simp [h]
  rw [Entry.build_rs1 _ w hbig, Entry.regByte, hexpr h, field_byte (by omega)]
  rfl

theorem rv64i_rs2 (h : i.format = .R ∨ i.format = .S ∨ i.format = .B) :
    ((rv64iEntry i).build w).rs2 = (rs2 w).setWidth 8 := by
  have hexpr : i.format = .R ∨ i.format = .S ∨ i.format = .B →
      (crunch (rv64iEntry i).ty (rv64iEntry i).bits).registers 2 = .x 20 5 0 := by
    cases i <;> decide
  have hbig : (crunch (rv64iEntry i).ty (rv64iEntry i).bits).bigimm = false := by
    rw [rv64i_bigimm]
    rcases h with h | h | h <;> simp [h]
  rw [Entry.build_rs2 _ w hbig, Entry.regByte, hexpr h, field_byte (by omega)]
  rfl

/-- How many bits of its immediate an entry of the format stores. -/
def storedBits (f : Format) : Nat := if f = .U ∨ f = .J then 32 else 13

/-- A template with an immediate stores it. -/
theorem rv64i_pieces (i : Rv64i) : ∀ s ∈ i.format.immPieces,
    0 < immLen s.2.1 s.2.2 ∧ immLen s.2.1 s.2.2 ≤ storedBits i.format ∧
    (s.1 = true ∨ immLen s.2.1 s.2.2 ≤ storedBits i.format - 1) ∧
    (crunch (rv64iEntry i).ty (rv64iEntry i).bits).registers 3 = .NOREG ∧
    (crunch (rv64iEntry i).ty (rv64iEntry i).bits).immed ≠ [] := by
  cases i <;> decide

/-- It takes it bit by bit from where the format puts it. -/
theorem rv64i_place (i : Rv64i) : ∀ s ∈ i.format.immPieces, ∀ k < storedBits i.format,
    immSource (rv64iEntry i).bits k = immPlace s.1 s.2.1 s.2.2 k := by
  cases i <;> decide

/-- The stored immediate is the one of the format, short or long. -/
theorem rv64i_immed {v : BitVec 64} (hv : i.format.imm w = some v) :
    ((rv64iEntry i).build w).immed = v := by
  rw [Format.imm_eq, Option.map_eq_some_iff] at hv
  obtain ⟨s, hs, rfl⟩ := hv
  obtain ⟨hpos, hlen, hsign, h3, himm⟩ := rv64i_pieces i s hs
  have hplace := rv64i_place i s hs
  by_cases hlong : i.format = .U ∨ i.format = .J
  · unfold storedBits at hlen hsign hplace
    rw [if_pos hlong] at hlen hsign hplace
    have hbig : (crunch (rv64iEntry i).ty (rv64iEntry i).bits).bigimm = true := by
      rw [rv64i_bigimm]
      simpa using hlong
    have h0 : i.format = .U ∨ i.format = .J → immSource (rv64iEntry i).bits 0 = none := by
      cases i <;> decide
    exact Entry.immed_eq_immOf_long _ w (wellFormed_rv64iEntry i) hbig (h0 hlong) hpos hlen hsign hplace
  · unfold storedBits at hlen hsign hplace
    rw [if_neg hlong] at hlen hsign hplace
    have hbig : (crunch (rv64iEntry i).ty (rv64iEntry i).bits).bigimm = false := by
      rw [rv64i_bigimm]
      simpa using hlong
    exact Entry.immed_eq_immOf _ w (wellFormed_rv64iEntry i) hbig h3 himm hpos hlen hsign hplace

end

end Cavatools.Uspike
