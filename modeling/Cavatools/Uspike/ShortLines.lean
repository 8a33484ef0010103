import Cavatools.Riscv.Machine
import Cavatools.Uspike.Expand

/-!
# The compressed lines, exactly

What each compressed line of RV.fast leaves, in the terms of the manual and
with the length of the instruction, and the same for the lines that are not
base instructions: the three shifts by a register and the word instructions.
With the lines of RV64I these are all instructions that the machine of the
manual knows and RV.fast has a line for.

`ShortDecoded` is the descriptor of a compressed instruction as the decoder
builds it, with the operands of the manual. As for RV64I there is a lemma for
each shape: what computes from a register and an immediate, or from two
registers, the shifts by a constant, loads, stores, branches on zero and jumps
(`short_imm` to `link_one`), and `short_runs` goes through the instructions
with them.

Where the code differs from the manual the statement has a condition on the
operands. A jump through a register goes where the register says, so its
target has to be even. A shift by a register has a value in C++ only below the
width of its type (`shift_line_runs`), and a word instruction only for
operands that its line is right for (`word_line_runs`).
-/

namespace Cavatools.Uspike

open Riscv

variable {τ : Type}

/-- The descriptor of a compressed instruction as the decoder builds it. -/
structure ShortDecoded (op : COp) (h : BitVec 16) (D : Insn) : Prop where
  opcode : D.opcode = .c op
  rd : D.rd = regNumber (operands h op).rd
  rs1 : D.rs1 = regNumber (operands h op).rs1
  rs2 : op ≠ .c_lui → D.rs2 = regNumber (operands h op).rs2
  imm : ∀ v, (operands h op).imm = some v → D.immed = v

theorem shortDecoded_build (op : COp) (b : BitVec 32) :
    ShortDecoded op (b.setWidth 16) ((rvcEntry op).build b) where
  opcode := by
    rw [Entry.build_opcode]
    rfl
  rd := rvc_rd op b
  rs1 := rvc_rs1 op b
  rs2 hlui := rvc_rs2 hlui b
  imm _ hv := rvc_immed hv

/-! ## The shapes of the lines -/

section
variable {D : Insn} {pc : Long} {m : Machine Unit τ} (h0 : m.xpr 0 = 0)
include h0

theorem compute_wrote {d : BitVec 5} (hrd : D.rd = d.setWidth 8) (len : Nat) {e : Act Unit τ Long} {v : Long}
    {m' : Machine Unit τ} (he : e m = .ok (v, m')) (hx : m'.xpr = m.xpr) (hm : m'.mem = m.mem) :
    Runs (compute D pc len e) m ((m.arch pc).wrote d v len) := by
  refine ⟨pc + BitVec.ofNat 64 len, { m' with xpr := Function.update m'.xpr d v }, ?_, ?_⟩
  · unfold compute
    rw [bind_ok he, bind_ok (wrd_ok hrd v m')]
    rfl
  · simp only [ArchState.wrote, Machine.arch, hx, hm, clear_write h0]

theorem store_cStored {n1 n2 : BitVec 5} (h1 : D.rs1 = n1.setWidth 8) (h2 : D.rs2 = n2.setWidth 8) {v : Long}
    (hv : D.immed = v) (n : Nat) :
    Runs (store D pc 2 (store_int mmu_t n)) m ((m.arch pc).cStored (m.xpr n1 + v) n (m.xpr n2)) := by
  have hst : store D pc 2 (store_int mmu_t n) m = .ok (pc + 2,
      { m.log (.store_model (m.xpr n1 + v) pc) with
        mem := m.mem.store (m.xpr n1 + v) n ((m.xpr n2).setWidth (8 * n)) }) := by
    unfold store imm
    rw [bind_ok (r1_ok h1 m), bind_ok (r2_ok h2 m), hv]
    rfl
  refine ⟨_, _, hst, ?_⟩
  simp only [ArchState.cStored, Machine.arch, Machine.log, clear_id h0]

variable (pc) in
theorem jump_runs (npc : Long) : Runs (jump_model mmu_t npc pc) m ⟨m.xpr, npc, m.mem⟩ := by
  have hjump : jump_model mmu_t npc pc m = .ok (npc, m.log (.jump_model npc pc)) := rfl
  refine ⟨_, _, hjump, ?_⟩
  simp only [Machine.log, clear_id h0]

variable (pc) in
/-- A branch of the compressed lines, which compares one register with zero. -/
theorem branch_to {n1 : BitVec 5} (h1 : D.rs1 = n1.setWidth 8) {v : Long} (hv : D.immed = v)
    (c : Long → Bool) : Runs (do branch D pc mmu_t 2 (c (← r1 D))) m
      ⟨m.xpr, if c (m.xpr n1) then pc + v else pc + 2, m.mem⟩ := by
  have hbr : (do branch D pc mmu_t 2 (c (← r1 D)) : Act Unit τ Long) m = branch D pc mmu_t 2 (c (m.xpr n1)) m :=
    bind_ok (r1_ok h1 m)
  cases hc : c (m.xpr n1) with
  | false =>
    refine ⟨pc + 2, m, by rw [hbr, hc]; rfl, ?_⟩
    simp only [clear_id h0, Bool.false_eq_true, if_false]
  | true =>
    refine ⟨pc + v, m.log (.jump_model (pc + v) pc), ?_, ?_⟩
    · rw [hbr, hc, branch, if_pos rfl, imm, hv]
      rfl
    · simp only [Machine.log, clear_id h0, if_true]

variable (pc) in
theorem link_one (hrd : D.rd = (1 : BitVec 5).setWidth 8) (npc : Long) :
    Runs (link D pc mmu_t 2 npc) m ⟨setX m.xpr 1 (pc + 2), npc, m.mem⟩ := by
  have hlk : link D pc mmu_t 2 npc m = .ok (npc, { m.log (.jump_model npc pc) with
      xpr := Function.update m.xpr 1 (pc + 2) }) := by
    have hjump : jump_model mmu_t npc pc m = .ok (npc, m.log (.jump_model npc pc)) := rfl
    unfold link
    rw [bind_ok hjump, bind_ok (wrd_ok hrd _ _)]
    rfl
  refine ⟨_, _, hlk, ?_⟩
  simp only [Machine.log, clear_write h0]

end

/-! ## The lines -/

/-- The 6-bit shift amounts. -/
theorem cImm6_lt (h : BitVec 16) : (cImm6 h false).toNat < 64 := by
  unfold cImm6 immOf
  rw [if_neg (by simp), BitVec.toNat_setWidth_of_le (by decide)]
  exact BitVec.isLt _

section
variable {op : COp} {h : BitVec 16} {D : Insn} (hD : ShortDecoded op h D) {pc : Long} {m : Machine Unit τ}
  (h0 : m.xpr 0 = 0)
include hD h0

/-- What computes from a register and an immediate. -/
theorem short_imm {d n1 : BitVec 5} {v : Long} (hrd : (operands h op).rd = some (.x d))
    (hrs1 : (operands h op).rs1 = some (.x n1)) (himm : (operands h op).imm = some v)
    (f : Long → Long → Long) : Runs (compute D pc 2 (return f (← r1 D) (imm D))) m
      ((m.arch pc).wrote d (f (m.xpr n1) v) 2) := by
  have h1 : D.rs1 = n1.setWidth 8 := by rw [hD.rs1, hrs1]; rfl
  have hv : imm D = v := hD.imm v himm
  rw [hv]
  exact compute_wrote h0 (by rw [hD.rd, hrd]; rfl) 2 (bind_ok (r1_ok h1 m)) rfl rfl

/-- The shifts by a constant. -/
theorem short_shift {d n1 : BitVec 5} {v : Long} (hrd : (operands h op).rd = some (.x d))
    (hrs1 : (operands h op).rs1 = some (.x n1)) (himm : (operands h op).imm = some v) (hlt : v.toNat < 64)
    (sh : Long → Long → Act Unit τ Long) (f : Long → Nat → Long)
    (hsh : ∀ a n m, n.toNat < 64 → sh a n m = .ok (f a n.toNat, m)) :
    Runs (compute D pc 2 (do sh (← r1 D) (imm D))) m ((m.arch pc).wrote d (f (m.xpr n1) v.toNat) 2) := by
  have h1 : D.rs1 = n1.setWidth 8 := by rw [hD.rs1, hrs1]; rfl
  have hv : imm D = v := hD.imm v himm
  rw [hv]
  exact compute_wrote h0 (by rw [hD.rd, hrd]; rfl) 2 ((bind_ok (r1_ok h1 m)).trans (hsh _ _ _ hlt)) rfl rfl

/-- The loads. -/
theorem short_load {d n1 : BitVec 5} {v : Long} (hrd : (operands h op).rd = some (.x d))
    (hrs1 : (operands h op).rs1 = some (.x n1)) (himm : (operands h op).imm = some v) (n : Nat)
    (ext : BitVec (8 * n) → Long)
    (hext : ∀ a pc (m : Machine Unit τ), load_int mmu_t n a pc m
      = .ok (ext (m.mem.load a n), m.log (.load_model a pc))) :
    Runs (compute D pc 2 (do load_int mmu_t n ((← r1 D) + imm D) pc)) m
      ((m.arch pc).wrote d (ext (m.mem.load (m.xpr n1 + v) n)) 2) := by
  have h1 : D.rs1 = n1.setWidth 8 := by rw [hD.rs1, hrs1]; rfl
  have hv : imm D = v := hD.imm v himm
  rw [hv]
  exact compute_wrote h0 (by rw [hD.rd, hrd]; rfl) 2 ((bind_ok (r1_ok h1 m)).trans (hext _ _ _)) rfl rfl

/-- What computes from two registers. -/
theorem short_reg {d n1 n2 : BitVec 5} (hrd : (operands h op).rd = some (.x d))
    (hrs1 : (operands h op).rs1 = some (.x n1)) (hrs2 : (operands h op).rs2 = some (.x n2)) (hlui : op ≠ .c_lui)
    (f : Long → Long → Long) : Runs (compute D pc 2 (return f (← r1 D) (← r2 D))) m
      ((m.arch pc).wrote d (f (m.xpr n1) (m.xpr n2)) 2) := by
  have h1 : D.rs1 = n1.setWidth 8 := by rw [hD.rs1, hrs1]; rfl
  have h2 : D.rs2 = n2.setWidth 8 := by rw [hD.rs2 hlui, hrs2]; rfl
  exact compute_wrote h0 (by rw [hD.rd, hrd]; rfl) 2 ((bind_ok (r1_ok h1 m)).trans (bind_ok (r2_ok h2 m))) rfl rfl

theorem short_store {n1 n2 : BitVec 5} {v : Long} (hrs1 : (operands h op).rs1 = some (.x n1))
    (hrs2 : (operands h op).rs2 = some (.x n2)) (hlui : op ≠ .c_lui) (himm : (operands h op).imm = some v)
    (n : Nat) : Runs (store D pc 2 (store_int mmu_t n)) m ((m.arch pc).cStored (m.xpr n1 + v) n (m.xpr n2)) :=
  store_cStored h0 (by rw [hD.rs1, hrs1]; rfl) (by rw [hD.rs2 hlui, hrs2]; rfl) (hD.imm v himm) n

end

/-- **Every compressed line** does what the manual says. -/
theorem short_runs {op : COp} {h : BitVec 16} {D : Insn} (hD : ShortDecoded op h D) (code : InsnSpace)
    (pc : Long) {m : Machine Unit τ} (h0 : m.xpr 0 = 0) (heven : EvenTarget h m.xpr op) {s : ArchState}
    (hexec : execC h (m.arch pc) op = some s) :
    ∃ act, D.opcode.action D pc mmu_t code = some act ∧ Runs act m s := by
  rw [hD.opcode]
  cases op <;> cases hexec
  case c_addi4spn | c_addi | c_addi16sp => exact ⟨_, rfl, short_imm hD h0 rfl rfl rfl (· + ·)⟩
  case c_addiw =>
    exact ⟨_, rfl, short_imm hD h0 rfl rfl rfl fun a b => ofInt32 (int32_t a + int32_t b)⟩
  case c_andi => exact ⟨_, rfl, short_imm hD h0 rfl rfl rfl (· &&& ·)⟩
  case c_slli => exact ⟨_, rfl, short_shift hD h0 rfl rfl rfl (cImm6_lt h) shl (fun a n => a <<< n) shl_ok⟩
  case c_srli => exact ⟨_, rfl, short_shift hD h0 rfl rfl rfl (cImm6_lt h) shr (fun a n => a >>> n) shr_ok⟩
  case c_srai =>
    exact ⟨_, rfl, short_shift hD h0 rfl rfl rfl (cImm6_lt h) sar (fun a n => a.sshiftRight n) sar_ok⟩
  case c_lw | c_lwsp => exact ⟨_, rfl, short_load hD h0 rfl rfl rfl 4 _ (load_int_ok 4)⟩
  case c_ld | c_ldsp =>
    have hld := load_int_ok (τ := τ) 8
    have hext : ∀ v : BitVec (8 * 8), v.signExtend 64 = v := fun v => BitVec.signExtend_eq v
    simp only [hext] at hld
    exact ⟨_, rfl, short_load hD h0 rfl rfl rfl 8 id hld⟩
  case c_sw | c_swsp => exact ⟨_, rfl, short_store hD h0 rfl rfl (by simp) rfl 4⟩
  case c_sd | c_sdsp => exact ⟨_, rfl, short_store hD h0 rfl rfl (by simp) rfl 8⟩
  case c_add => exact ⟨_, rfl, short_reg hD h0 rfl rfl rfl (by simp) (· + ·)⟩
  case c_addw =>
    exact ⟨_, rfl, short_reg hD h0 rfl rfl rfl (by simp) fun a b => ofInt32 (int32_t a + int32_t b)⟩
  case c_subw =>
    exact ⟨_, rfl, short_reg hD h0 rfl rfl rfl (by simp) fun a b => ofInt32 (int32_t a - int32_t b)⟩
  case c_li | c_lui =>
    have himm : imm D = _ := hD.imm _ rfl
    refine ⟨_, rfl, compute_wrote h0 hD.rd 2 ?_ rfl rfl⟩
    rw [himm]
    rfl
  case c_mv => exact ⟨_, rfl, compute_wrote h0 hD.rd 2 (r2_ok (hD.rs2 (by simp)) m) rfl rfl⟩
  case c_j =>
    have himm : imm D = _ := hD.imm _ rfl
    refine ⟨_, rfl, ?_⟩
    rw [himm]
    exact jump_runs pc h0 _
  case c_beqz =>
    have hbr := branch_to pc h0 hD.rs1 (hD.imm _ rfl) fun a => a == 0
    simp only [beq_iff_eq] at hbr
    exact ⟨_, rfl, hbr⟩
  case c_bnez =>
    have hbr := branch_to pc h0 hD.rs1 (hD.imm _ rfl) fun a => a != 0
    simp only [bne_iff_ne, ne_eq, ite_not] at hbr
    exact ⟨_, rfl, hbr⟩
  case c_jr =>
    obtain ⟨pc', m', hjump, hs⟩ := jump_runs pc h0 (m.xpr (cRd h))
    have hmask : m.xpr (cRd h) &&& ~~~1#64 = m.xpr (cRd h) := by
      have hadd := even_mask (heven (Or.inl rfl))
      rwa [show m.xpr (cRd h) + 0 = m.xpr (cRd h) from BitVec.add_zero _] at hadd
    refine ⟨_, rfl, pc', m', (bind_ok (r1_ok hD.rs1 m)).trans hjump, ?_⟩
    rw [← hs]
    exact congrArg (fun t => (⟨m.xpr, t, m.mem⟩ : ArchState)) hmask
  case c_jalr =>
    obtain ⟨pc', m', hlk, hs⟩ := link_one pc h0 hD.rd (m.xpr (cRd h))
    have hmask : m.xpr (cRd h) &&& ~~~1#64 = m.xpr (cRd h) := by
      have hadd := even_mask (heven (Or.inr rfl))
      rwa [show m.xpr (cRd h) + 0 = m.xpr (cRd h) from BitVec.add_zero _] at hadd
    refine ⟨_, rfl, pc', m', (bind_ok (r1_ok hD.rs1 m)).trans hlk, ?_⟩
    rw [← hs]
    exact congrArg (fun t => (⟨setX m.xpr 1 (pc + 2), t, m.mem⟩ : ArchState)) hmask

/-! ## The shifts by a register -/

def shiftOp : Shift → FastOp
  | .sll => .sll
  | .srl => .srl
  | .sra => .sra

theorem shift_test {i : Shift} {e : Entry} (he : e ∈ fastEntry (shiftOp i)) {w : BitVec 32}
    (h : i.Encodes w) : e.test w = true := by
  rw [test_iff_fixed _ (by rw [width_fastEntry _ _ he])]
  cases i <;> cases he <;> exact (fixed_rLine _ _ _ w).mpr h

theorem shift_bytes : ∀ i, ∀ e ∈ fastEntry (shiftOp i), e.op = .fast (shiftOp i) ∧
    (crunch e.ty e.bits).bigimm = false ∧ (crunch e.ty e.bits).registers 0 = .x 7 5 0 ∧
    (crunch e.ty e.bits).registers 1 = .x 15 5 0 ∧ (crunch e.ty e.bits).registers 2 = .x 20 5 0 := by
  intro i
  cases i <;> decide

/-- The line of a shift by a register, for an amount that C++ gives it a value for. -/
theorem shift_line_runs {i : Shift} {w : BitVec 32} (henc : i.Encodes w) {order : List FastOp}
    (horder : shiftOp i ∈ order) (rest : List Entry) (code : InsnSpace) (pc : Long) {m : Machine Unit τ}
    (h0 : m.xpr 0 = 0) (hlt : (m.xpr (rs2 w)).toNat < 64) :
    (decoder (rvcChain ++ fastChain order ++ rest) w).opcode = .fast (shiftOp i) ∧
    ∃ act, (decoder (rvcChain ++ fastChain order ++ rest) w).opcode.action
        (decoder (rvcChain ++ fastChain order ++ rest) w) pc mmu_t code = some act ∧
      Runs act m ((m.arch pc).wrote (rd w) (i.result (m.xpr (rs1 w)) (m.xpr (rs2 w))) 4) := by
  obtain ⟨e, he⟩ : ∃ e, fastEntry (shiftOp i) = some e := by cases i <;> exact ⟨_, rfl⟩
  obtain ⟨hop, hbig, h0e, h1e, h2e⟩ := shift_bytes i e he
  have hfield {k : Fin 4} {lo : Nat} (hlo : lo + 5 ≤ 32) (hk : (crunch e.ty e.bits).registers k = .x lo 5 0) :
      e.regByte w k = (w.extractLsb' lo 5).setWidth 8 := by
    rw [Entry.regByte, hk, field_byte hlo]
  rw [fast_first he (shift_test he henc) horder rest]
  have hopcode : (e.build w).opcode = .fast (shiftOp i) := (e.build_opcode w).trans hop
  have hrd : (e.build w).rd = (rd w).setWidth 8 := by
    rw [Entry.build_rd, hfield (by omega) h0e]
    rfl
  have hrs1 : (e.build w).rs1 = (rs1 w).setWidth 8 := by
    rw [Entry.build_rs1 _ _ hbig, hfield (by omega) h1e]
    rfl
  have hrs2 : (e.build w).rs2 = (rs2 w).setWidth 8 := by
    rw [Entry.build_rs2 _ _ hbig, hfield (by omega) h2e]
    rfl
  -- the manual takes the low six bits, which are all there is
  have hsix : ((m.xpr (rs2 w)).setWidth 6).toNat = (m.xpr (rs2 w)).toNat := by
    rw [BitVec.toNat_setWidth, Nat.mod_eq_of_lt hlt]
  have hruns (sh : Long → Long → Act Unit τ Long) (f : Long → Nat → Long)
      (hsh : ∀ a n m, n.toNat < 64 → sh a n m = .ok (f a n.toNat, m)) :
      Runs (compute (e.build w) pc 4 (do sh (← r1 (e.build w)) (← r2 (e.build w)))) m
        ((m.arch pc).wrote (rd w) (f (m.xpr (rs1 w)) ((m.xpr (rs2 w)).setWidth 6).toNat) 4) := by
    rw [hsix]
    exact compute_wrote h0 hrd 4
      ((bind_ok (r1_ok hrs1 m)).trans ((bind_ok (r2_ok hrs2 m)).trans (hsh _ _ _ hlt))) rfl rfl
  refine ⟨hopcode, ?_⟩
  rw [hopcode]
  cases i with
  | sll => exact ⟨_, rfl, hruns shl (fun a n => a <<< n) shl_ok⟩
  | srl => exact ⟨_, rfl, hruns shr (fun a n => a >>> n) shr_ok⟩
  | sra => exact ⟨_, rfl, hruns sar (fun a n => a.sshiftRight n) sar_ok⟩

/-! ## The word instructions -/

/-- The line of a full-size word instruction, for operands it is right for. -/
theorem word_line_runs {i : Word} (hfull : (wordFull i).isSome) {w : BitVec 32} (henc : i.Encodes w)
    {order : List FastOp} (horder : ∀ op ∈ wordFull i, op ∈ order) (rest : List Entry) (code : InsnSpace)
    (pc : Long) {m : Machine Unit τ} (h0 : m.xpr 0 = 0)
    (hright : WordRight (m.xpr (i.src1 w)) (i.operand w m.xpr) i) :
    ∃ act, (decoder (rvcChain ++ fastChain order ++ rest) w).opcode.action
        (decoder (rvcChain ++ fastChain order ++ rest) w) pc mmu_t code = some act ∧
      Runs act m ((m.arch pc).wrote (i.dest w) (i.value w m.xpr) 4) := by
  have hD := word_decoded henc horder rest
  obtain ⟨e, hact, he⟩ := word_line hD pc mmu_t code m
  have hamount : i = .slliw ∨ i = .srliw ∨ i = .sraiw → (i.operand w m.xpr).toNat < 32 := by
    rintro (rfl | rfl | rfl) <;> exact shamtw_lt w
  have hlen : wordLen i = 4 := by rw [wordLen, if_pos hfull]
  rw [hlen] at hact
  refine ⟨_, hact, _, _, (compute_iff hD pc m he _).mpr ((wordComputed_iff hamount).mpr hright), ?_⟩
  simp only [ArchState.wrote, Machine.arch, Uspike.wrote, clear_write h0]
  rfl

end Cavatools.Uspike
