import Cavatools.Uspike.FastDecode
import Cavatools.Uspike.Batch

/-!
# The RV64I instructions, from the word to the registers

One iteration of the interpreter on a predecoded RV64I word does what the
manual says, under the base class of the memory model. The decoder half is
FastDecode; here each line of RV.fast is run on the descriptor the decoder
built.

`Decoded` has that descriptor in the terms of the manual: the operand bytes
are the fields of the word, and the immediate is the one of the format. `Runs
act m s` says that an action ends, and that with register 0 cleared the
machine is in the architectural state `s`. Clearing is part of it, because a
line writes its destination as it would any register: writing any register and
then clearing register 0 drops a write to it, which is what the manual says of
`x0` (`clear_write`).

There is one lemma for each shape of line: `compute_runs` with its special
cases for immediates, registers and shifts by a constant, `load_runs`,
`store_runs`, `branch_runs` and `link_runs`. `fast_runs` goes through the
instructions with them, so each line of the file is looked at once, against
one line of the manual's table. The shifts of C++ have no meaning for large
amounts, but an amount of six bits is small enough.

`iteration_rv64i` is the iteration around it, whatever order riscv-opcodes
lists the instructions in and whatever else it lists.
-/

namespace Cavatools.Uspike

open Riscv

variable {τ : Type}

/-- The architectural state of a machine at a pc. -/
def Machine.arch {σ : Type} (m : Machine σ τ) (pc : Long) : ArchState := ⟨m.xpr, pc, m.mem⟩

/-- The action ends, and with register 0 cleared the state is `s`. -/
def Runs (act : Act Unit τ Long) (m : Machine Unit τ) (s : ArchState) : Prop :=
  ∃ pc' m', act m = .ok (pc', m') ∧
    s = ⟨Function.update m'.xpr 0 0, pc', m'.mem⟩

/-! ## Running an action -/

theorem bind_ok {σ α β : Type} {x : Act σ τ α} {f : α → Act σ τ β} {m m' : Machine σ τ} {a : α}
    (h : x m = .ok (a, m')) : (x >>= f) m = f a m' := by
  show (x m).bind (fun p => f p.1 p.2) = _
  rw [h]
  rfl

theorem toNat_field_byte (f : BitVec 5) : (f.setWidth 8).toNat < 32 := by
  rw [BitVec.toNat_setWidth_of_le (by omega)]
  exact f.isLt

theorem setWidth_field_byte (f : BitVec 5) : (f.setWidth 8).setWidth 5 = f := by
  rw [BitVec.setWidth_setWidth_of_le _ (by omega), BitVec.setWidth_eq]

theorem readX_field {σ : Type} (f : BitVec 5) (m : Machine σ τ) :
    readX (f.setWidth 8) m = .ok (m.xpr f, m) := by
  unfold readX
  rw [if_pos (toNat_field_byte f), setWidth_field_byte]

theorem writeX_field {σ : Type} (f : BitVec 5) (v : Long) (m : Machine σ τ) :
    writeX (f.setWidth 8) v m = .ok ((), { m with xpr := Function.update m.xpr f v }) := by
  unfold writeX
  rw [if_pos (toNat_field_byte f), setWidth_field_byte]

theorem r1_ok {σ : Type} {D : Insn} {f : BitVec 5} (h : D.rs1 = f.setWidth 8) (m : Machine σ τ) :
    r1 D m = .ok (m.xpr f, m) := by
  unfold r1
  rw [h, readX_field]

theorem r2_ok {σ : Type} {D : Insn} {f : BitVec 5} (h : D.rs2 = f.setWidth 8) (m : Machine σ τ) :
    r2 D m = .ok (m.xpr f, m) := by
  unfold r2
  rw [h, readX_field]

theorem wrd_ok {σ : Type} {D : Insn} {f : BitVec 5} (h : D.rd = f.setWidth 8) (v : Long)
    (m : Machine σ τ) : wrd D v m = .ok ((), { m with xpr := Function.update m.xpr f v }) := by
  unfold wrd
  rw [h, writeX_field]

theorem clear_id {x : BitVec 5 → Long} (h0 : x 0 = 0) : Function.update x 0 0 = x := by
  rw [← h0, Function.update_eq_self]

/-- Writing any register and then clearing register 0 drops a write to it. -/
theorem clear_write {x : BitVec 5 → Long} (h0 : x 0 = 0) (r : BitVec 5) (v : Long) :
    Function.update (Function.update x r v) 0 0 = setX x r v := by
  unfold setX
  split
  case isTrue hr =>
    subst hr
    rw [Function.update_idem, clear_id h0]
  case isFalse hr =>
    rw [Function.update_comm hr, clear_id h0]

/-! ## The shapes of the lines -/

/-- The descriptor of `i` as the decoder builds it, in the terms of the manual. -/
structure Decoded (i : Rv64i) (w : BitVec 32) (D : Insn) : Prop where
  opcode : D.opcode = .fast (rv64iOp i)
  rd : i.format ≠ .S ∧ i.format ≠ .B → D.rd = (rd w).setWidth 8
  rs1 : i.format ≠ .U ∧ i.format ≠ .J → D.rs1 = (rs1 w).setWidth 8
  rs2 : i.format = .R ∨ i.format = .S ∨ i.format = .B → D.rs2 = (rs2 w).setWidth 8
  imm : ∀ v, i.format.imm w = some v → D.immed = v

theorem decoded_build (i : Rv64i) (w : BitVec 32) : Decoded i w ((rv64iEntry i).build w) where
  opcode := by
    rw [Entry.build_opcode]
    cases i <;> rfl
  rd := rv64i_rd w
  rs1 := rv64i_rs1 w
  rs2 := rv64i_rs2 w
  imm _ hv := rv64i_immed w hv

section
variable {i : Rv64i} {D : Insn} {w : BitVec 32} {pc : Long} {m : Machine Unit τ}
  (hD : Decoded i w D) (h0 : m.xpr 0 = 0)
include hD h0

theorem compute_runs (hf : i.format ≠ .S ∧ i.format ≠ .B) {e : Act Unit τ Long} {v : Long}
    {m' : Machine Unit τ} (he : e m = .ok (v, m')) (hx : m'.xpr = m.xpr) (hm : m'.mem = m.mem) :
    Runs (compute D pc 4 e) m ((m.arch pc).setRd w v) := by
  refine ⟨pc + 4, { m' with xpr := Function.update m'.xpr (rd w) v }, ?_, ?_⟩
  · unfold compute
    rw [bind_ok he, bind_ok (wrd_ok (hD.rd hf) v m')]
    rfl
  · simp only [ArchState.setRd, Machine.arch, hx, hm, clear_write h0]

theorem const_runs (hf : i.format = .U) (f : Long → Long) :
    Runs (compute D pc 4 (return f (imm D))) m ((m.arch pc).setRd w (f (immU w))) := by
  have himm : imm D = immU w := hD.imm _ (by rw [hf]; rfl)
  rw [himm]
  exact compute_runs hD h0 (by rw [hf]; decide) rfl rfl rfl

theorem imm_runs (hf : i.format = .I) (f : Long → Long → Long) :
    Runs (compute D pc 4 (return f (← r1 D) (imm D))) m
      ((m.arch pc).setRd w (f (m.xpr (rs1 w)) (immI w))) := by
  have himm : imm D = immI w := hD.imm _ (by rw [hf]; rfl)
  have hr1 := r1_ok (hD.rs1 (by rw [hf]; decide)) m
  rw [himm]
  exact compute_runs hD h0 (by rw [hf]; decide) (bind_ok hr1) rfl rfl

theorem reg_runs (hf : i.format = .R) (f : Long → Long → Long) :
    Runs (compute D pc 4 (return f (← r1 D) (← r2 D))) m
      ((m.arch pc).setRd w (f (m.xpr (rs1 w)) (m.xpr (rs2 w)))) := by
  have hr1 := r1_ok (hD.rs1 (by rw [hf]; decide)) m
  have hr2 := r2_ok (hD.rs2 (by rw [hf]; decide)) m
  exact compute_runs hD h0 (by rw [hf]; decide) ((bind_ok hr1).trans (bind_ok hr2)) rfl rfl

/-- The three shifts by a constant; `sh` is the C++ shift and `f` what it
computes for an amount below 64. -/
theorem shift_runs (hf : i.format = .Sh) (sh : Long → Long → Act Unit τ Long)
    (f : Long → Nat → Long) (hsh : ∀ a n m, n.toNat < 64 → sh a n m = .ok (f a n.toNat, m)) :
    Runs (compute D pc 4 (do sh (← r1 D) (imm D))) m
      ((m.arch pc).setRd w (f (m.xpr (rs1 w)) (shamt w).toNat)) := by
  have himm : imm D = shamt w := hD.imm _ (by rw [hf]; rfl)
  have hr1 := r1_ok (hD.rs1 (by rw [hf]; decide)) m
  have hlt : (shamt w).toNat < 64 := by
    unfold shamt immOf
    rw [if_neg (by simp), BitVec.toNat_setWidth_of_le (by decide)]
    exact BitVec.isLt _
  rw [himm]
  exact compute_runs hD h0 (by rw [hf]; decide) ((bind_ok hr1).trans (hsh _ _ _ hlt)) rfl rfl

/-- The loads; `ext` is the conversion to `long`. -/
theorem load_runs (hf : i.format = .I) (n : Nat) (ld : Long → Long → Act Unit τ Long)
    (ext : BitVec (8 * n) → Long)
    (hld : ∀ a pc m, ld a pc m = .ok (ext (m.mem.load a n), m.log (.load_model a pc))) :
    Runs (compute D pc 4 (do ld ((← r1 D) + imm D) pc)) m
      ((m.arch pc).setRd w (ext ((m.arch pc).loaded w n))) := by
  have himm : imm D = immI w := hD.imm _ (by rw [hf]; rfl)
  have hr1 := r1_ok (hD.rs1 (by rw [hf]; decide)) m
  rw [himm]
  exact compute_runs hD h0 (by rw [hf]; decide) ((bind_ok hr1).trans (hld _ _ _)) rfl rfl

/-- The stores. -/
theorem store_runs (hf : i.format = .S) (n : Nat) :
    Runs (store D pc 4 (store_int mmu_t n)) m ((m.arch pc).stored w n) := by
  have himm : imm D = immS w := hD.imm _ (by rw [hf]; rfl)
  have hr1 := r1_ok (hD.rs1 (by rw [hf]; decide)) m
  have hr2 := r2_ok (hD.rs2 (by rw [hf]; decide)) m
  have hst : store D pc 4 (store_int mmu_t n) m = .ok (pc + 4,
      { m.log (.store_model (m.xpr (rs1 w) + immS w) pc) with
        mem := m.mem.store (m.xpr (rs1 w) + immS w) n ((m.xpr (rs2 w)).setWidth (8 * n)) }) := by
    unfold store
    rw [bind_ok hr1, bind_ok hr2, himm]
    rfl
  refine ⟨_, _, hst, ?_⟩
  simp only [ArchState.stored, Machine.arch, Machine.log, clear_id h0]

/-- The branches, each with its comparison. -/
theorem branch_runs (pc : Long) (hf : i.format = .B) (c : Long → Long → Bool) :
    Runs (do branch D pc mmu_t 4 (c (← r1 D) (← r2 D))) m
      ((m.arch pc).branch w (c (m.xpr (rs1 w)) (m.xpr (rs2 w)))) := by
  have himm : imm D = immB w := hD.imm _ (by rw [hf]; rfl)
  have hr1 := r1_ok (hD.rs1 (by rw [hf]; decide)) m
  have hr2 := r2_ok (hD.rs2 (by rw [hf]; decide)) m
  have hbr : (do branch D pc mmu_t 4 (c (← r1 D) (← r2 D)) : Act Unit τ Long) m
      = branch D pc mmu_t 4 (c (m.xpr (rs1 w)) (m.xpr (rs2 w))) m :=
    (bind_ok hr1).trans (bind_ok hr2)
  cases hc : c (m.xpr (rs1 w)) (m.xpr (rs2 w)) with
  | false =>
    refine ⟨pc + 4, m, by rw [hbr, hc]; rfl, ?_⟩
    simp only [ArchState.branch, Machine.arch, clear_id h0, Bool.false_eq_true, if_false]
  | true =>
    refine ⟨pc + immB w, m.log (.jump_model (pc + immB w) pc), ?_, ?_⟩
    · rw [hbr, hc, branch, if_pos rfl, himm]
      rfl
    · simp only [ArchState.branch, Machine.arch, Machine.log, clear_id h0, if_true]

theorem link_runs (pc : Long) (hf : i.format ≠ .S ∧ i.format ≠ .B) (npc : Long) :
    Runs (link D pc mmu_t 4 npc) m ((m.arch pc).linkTo w npc) := by
  have hlk : link D pc mmu_t 4 npc m = .ok (npc, { m.log (.jump_model npc pc) with
      xpr := Function.update m.xpr (rd w) (pc + 4) }) := by
    have hjump : jump_model mmu_t npc pc m = .ok (npc, m.log (.jump_model npc pc)) := rfl
    unfold link
    rw [bind_ok hjump, bind_ok (wrd_ok (hD.rd hf) _ _)]
    rfl
  refine ⟨_, _, hlk, ?_⟩
  simp only [ArchState.linkTo, Machine.arch, Machine.log, clear_write h0]

end

/-! ## The lines -/

theorem shl_ok (a n : Long) (m : Machine Unit τ) (h : n.toNat < 64) :
    shl a n m = .ok (a <<< n.toNat, m) := by
  unfold shl
  rw [if_pos h]
  rfl

theorem shr_ok (a n : Long) (m : Machine Unit τ) (h : n.toNat < 64) :
    shr a n m = .ok (a >>> n.toNat, m) := by
  unfold shr
  rw [if_pos h]
  rfl

theorem sar_ok (a n : Long) (m : Machine Unit τ) (h : n.toNat < 64) :
    sar a n m = .ok (a.sshiftRight n.toNat, m) := by
  unfold sar
  rw [if_pos h]
  rfl

theorem load_int_ok (n : Nat) (a pc : Long) (m : Machine Unit τ) : load_int mmu_t n a pc m
    = .ok ((m.mem.load a n).signExtend 64, m.log (.load_model a pc)) := rfl

theorem load_uint_ok (n : Nat) (a pc : Long) (m : Machine Unit τ) : load_uint mmu_t n a pc m
    = .ok ((m.mem.load a n).setWidth 64, m.log (.load_model a pc)) := rfl

/-- **Every line of RV.fast for an RV64I instruction** does what the manual says,
on the descriptor that the decoder built. -/
theorem fast_runs {i : Rv64i} {w : BitVec 32} {D : Insn} (hD : Decoded i w D) (code : InsnSpace)
    (pc : Long) {m : Machine Unit τ} (h0 : m.xpr 0 = 0) :
    ∃ act, D.opcode.action D pc mmu_t code = some act ∧ Runs act m (exec w (m.arch pc) i) := by
  rw [hD.opcode]
  cases i with
  | lui => exact ⟨_, rfl, const_runs hD h0 rfl id⟩
  | auipc => exact ⟨_, rfl, const_runs hD h0 rfl (pc + ·)⟩
  | jal =>
    have himm : imm D = immJ w := hD.imm _ rfl
    refine ⟨_, rfl, ?_⟩
    rw [himm]
    exact link_runs hD h0 pc (by decide) (pc + immJ w)
  | jalr =>
    have himm : imm D = immI w := hD.imm _ rfl
    have hr1 := r1_ok (hD.rs1 (by decide)) m
    obtain ⟨pc', m', hlk, hs⟩ := link_runs hD h0 pc (by decide)
      ((m.xpr (rs1 w) + immI w) &&& ~~~1#64)
    refine ⟨_, rfl, pc', m', ?_, hs⟩
    rw [himm, bind_ok hr1, hlk]
  | beq => exact ⟨_, rfl, branch_runs hD h0 pc rfl (· == ·)⟩
  | bne => exact ⟨_, rfl, branch_runs hD h0 pc rfl (· != ·)⟩
  | blt => exact ⟨_, rfl, branch_runs hD h0 pc rfl (·.slt ·)⟩
  | bge =>
    have hrun := branch_runs hD h0 pc rfl sge
    unfold sge at hrun
    rw [BitVec.sle_eq_not_slt] at hrun
    exact ⟨_, rfl, hrun⟩
  | bltu => exact ⟨_, rfl, branch_runs hD h0 pc rfl (·.ult ·)⟩
  | bgeu =>
    have hrun := branch_runs hD h0 pc rfl uge
    unfold uge at hrun
    rw [BitVec.ule_eq_not_ult] at hrun
    exact ⟨_, rfl, hrun⟩
  | lb => exact ⟨_, rfl, load_runs hD h0 rfl 1 _ _ (load_int_ok 1)⟩
  | lh => exact ⟨_, rfl, load_runs hD h0 rfl 2 _ _ (load_int_ok 2)⟩
  | lw => exact ⟨_, rfl, load_runs hD h0 rfl 4 _ _ (load_int_ok 4)⟩
  | ld =>
    have hld := load_int_ok (τ := τ) 8
    have hext : ∀ v : BitVec (8 * 8), v.signExtend 64 = v := fun v => BitVec.signExtend_eq v
    simp only [hext] at hld
    exact ⟨_, rfl, load_runs hD h0 rfl 8 _ id hld⟩
  | lbu => exact ⟨_, rfl, load_runs hD h0 rfl 1 _ _ (load_uint_ok 1)⟩
  | lhu => exact ⟨_, rfl, load_runs hD h0 rfl 2 _ _ (load_uint_ok 2)⟩
  | lwu => exact ⟨_, rfl, load_runs hD h0 rfl 4 _ _ (load_uint_ok 4)⟩
  | sb => exact ⟨_, rfl, store_runs hD h0 rfl 1⟩
  | sh => exact ⟨_, rfl, store_runs hD h0 rfl 2⟩
  | sw => exact ⟨_, rfl, store_runs hD h0 rfl 4⟩
  | sd => exact ⟨_, rfl, store_runs hD h0 rfl 8⟩
  | addi => exact ⟨_, rfl, imm_runs hD h0 rfl (· + ·)⟩
  | slti => exact ⟨_, rfl, imm_runs hD h0 rfl fun a b => ofBool (a.slt b)⟩
  | sltiu => exact ⟨_, rfl, imm_runs hD h0 rfl fun a b => ofBool (a.ult b)⟩
  | xori => exact ⟨_, rfl, imm_runs hD h0 rfl (· ^^^ ·)⟩
  | ori => exact ⟨_, rfl, imm_runs hD h0 rfl (· ||| ·)⟩
  | andi => exact ⟨_, rfl, imm_runs hD h0 rfl (· &&& ·)⟩
  | slli => exact ⟨_, rfl, shift_runs hD h0 rfl shl (fun a n => a <<< n) shl_ok⟩
  | srli => exact ⟨_, rfl, shift_runs hD h0 rfl shr (fun a n => a >>> n) shr_ok⟩
  | srai => exact ⟨_, rfl, shift_runs hD h0 rfl sar (fun a n => a.sshiftRight n) sar_ok⟩
  | add => exact ⟨_, rfl, reg_runs hD h0 rfl (· + ·)⟩
  | sub => exact ⟨_, rfl, reg_runs hD h0 rfl (· - ·)⟩
  | slt => exact ⟨_, rfl, reg_runs hD h0 rfl fun a b => ofBool (a.slt b)⟩
  | sltu => exact ⟨_, rfl, reg_runs hD h0 rfl fun a b => ofBool (a.ult b)⟩
  | xor => exact ⟨_, rfl, reg_runs hD h0 rfl (· ^^^ ·)⟩
  | or => exact ⟨_, rfl, reg_runs hD h0 rfl (· ||| ·)⟩
  | and => exact ⟨_, rfl, reg_runs hD h0 rfl (· &&& ·)⟩

/-! ## One iteration -/

/-- **One iteration of the loop on an RV64I word** leaves the registers, the pc
and the memory that the manual gives, whatever order riscv-opcodes lists the
instructions in and whatever else it lists behind them. The word is the one in
memory at the pc, and the text holds what the decoder makes of it. -/
theorem iteration_rv64i (env : Env Unit τ) (hmmu : env.mmu = mmu_t) {i : Rv64i}
    (order : List FastOp) (hi : rv64iOp i ∈ order) (rest : List Entry) (pc : Long) (h : Hart Unit τ)
    (henc : Encodes (h.mem.load pc 4) i)
    (hcode : env.code.at pc
      = some (decoder (rvcChain ++ fastChain order ++ rest) (h.mem.load pc 4)))
    (h0 : h.xpr 0 = 0) (insns : Int) :
    ∃ pc' h', iteration env insns pc h = .next pc' h' ∧
      h'.arch pc' = exec (h.mem.load pc 4) (h.arch pc) i := by
  rw [rv64i_first henc hi rest] at hcode
  have hD := decoded_build i (h.mem.load pc 4)
  have hecall : ((rv64iEntry i).build (h.mem.load pc 4)).opcode ≠ .fast .ecall := by
    rw [hD.opcode]
    cases i <;> decide
  obtain ⟨act, hact, pc', m', hrun, hs⟩ := fast_runs (m := h.log (.insn_model pc)) hD env.code pc h0
  refine ⟨pc', ((h.setMachine (h.log (.insn_model pc))).setMachine m').clear_x0, ?_, hs.symm⟩
  have hmodel : insn_model env.mmu pc h.toMachine = .ok ((), h.log (.insn_model pc)) := by
    rw [hmmu]
    rfl
  rw [iteration_eq env hmodel hcode, dispatch_fast env hecall (by rw [hmmu]; exact hact) hrun]
  rfl

/-- `addi x1, x1, -1` at the start of a text. -/
def addiEnv : Env Unit Unit :=
  { twoEcalls with
    code := ⟨0x1000, 0x1004, 0x1000,
      [decoder (rvcChain ++ fastChain listedFast ++ []) 0xfff08093#32, .ofCode .ZERO]⟩ }

def addiHart : Hart Unit Unit :=
  { freshHart 0x1000 with mem := Mem.store (fun _ => 0) 0x1000 4 0xfff08093#32 }

theorem iteration_rv64i_addi : ∃ pc' h', iteration addiEnv 0 0x1000 addiHart = .next pc' h' ∧
    pc' = 0x1004 ∧ h'.xpr 1 = 0xffffffffffffffff := by
  have hword : addiHart.mem.load 0x1000 4 = 0xfff08093#32 := by decide
  obtain ⟨pc', h', hit, harch⟩ := iteration_rv64i addiEnv rfl (i := .addi) listedFast (by decide) []
    0x1000 addiHart (by rw [hword]; unfold Encodes; decide) (by rw [hword]; rfl) rfl 0
  rw [hword] at harch
  have hx := congrArg (fun s => s.x 1) harch
  exact ⟨pc', h', hit, (congrArg ArchState.pc harch).trans (by decide), hx.trans (by decide)⟩

end Cavatools.Uspike
