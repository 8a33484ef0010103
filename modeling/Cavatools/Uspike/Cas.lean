import Cavatools.Riscv.Atomic
import Cavatools.Uspike.Rv64iStep

/-!
# `substitute_cas`

After predecoding, `substitute_cas` replaces every load-reserved that starts
an LR, branch, SC sequence by one compare-and-swap opcode. The replacement
reads all its registers before it writes any, compares in the width of the
load-reserved and stores in that width; the three instructions do neither.

The file goes from the text to the state.

- `casAt_spec` and `casInsn_spec` say what the matcher has checked when it
  replaces something: the opcodes of the three, and which of their registers
  are the same. `siteAt` reads such a site off the descriptors.
- The operands of a predecoded descriptor name integer registers (`IsGp`),
  because the decoder has built them; so the line of RV.fast around `cas` can
  be run (`cas_ok`, `casLine_ok`, `iteration_cas`), and leaves `substituted`.
- The three instructions leave `CasSite.original`. `Agrees` is a condition on
  the state before them: where both comparisons succeed, the two store the
  same; where only one does, its store changes nothing, and going on and
  branching out come to the same (`Idle`). `substituted_eq_original_iff` shows
  that it is exact, case by case of the two comparisons.
- The sweep changes load-reserves into compare-and-swaps and nothing else
  (`Swept`), so the descriptors around a site are still there when the text
  runs.

`substitute_cas_iff` is the result for every site that `substitute_cas`
accepts and every state. `Agrees` holds in every state for the sites that
compilers emit (`agrees_of_distinct`), and fails for others that the matcher
lets through.
-/

namespace Cavatools.Uspike

open Riscv

/-! ## The matcher -/

/-- `code.set`. -/
def InsnSpace.set (code : InsnSpace) (pc : Long) (i : Insn) : InsnSpace :=
  { code with predecoded := code.predecoded.set (code.slot pc) i }

/-- How long the branch of a sequence is. -/
def branchLen (i2 : Insn) : Nat := if i2.opcode = .c .c_bnez then 2 else 4

/-- The checks on the registers, and the descriptor that replaces the load-reserved. -/
def casInsn (i i2 i3 : Insn) : Option Insn :=
  let load_reg := i.rd
  let addr_reg := i.rs1
  let test_reg := if i2.opcode = .c .c_bnez then 0 else i2.rs2
  let newv_reg := i3.rs2
  let flag_reg := i3.rd
  if i2.rs1 ≠ load_reg then none
  else if i3.rs1 ≠ addr_reg then none
  else
    let op : FastOp :=
      if 4 + branchLen i2 = 8 then
        if i.opcode = .spike .lr_w then .cas12_w else .cas12_d
      else if i.opcode = .spike .lr_w then .cas10_w else .cas10_d
    some (reg3insn (.fast op) flag_reg addr_reg test_reg newv_reg)

/-- The body of the loop at `pc`: what replaces the descriptor there, if anything.
The outer `none` is a pc that `at` does not accept. -/
def casAt (code : InsnSpace) (pc : Long) : Option (Option Insn) :=
  match code.at pc with
  | none => none
  | some i =>
    if ¬(i.opcode = .spike .lr_w ∨ i.opcode = .spike .lr_d) then some none
    else match code.at (pc + 4) with
      | none => none
      | some i2 =>
        if i2.opcode ≠ .fast .bne ∧ i2.opcode ≠ .c .c_bnez then some none
        else match code.at (pc + BitVec.ofNat 64 (4 + branchLen i2)) with
          | none => none
          | some i3 =>
            if i3.opcode ≠ .spike .sc_w ∧ i3.opcode ≠ .spike .sc_d then some none
            else some (casInsn i i2 i3)

/-- The loop from `pc` on, with the counts of load-reserves found and replaced. -/
def casSweep (hi pc : Int) (code : InsnSpace) (possible replaced : Nat) :
    Option (InsnSpace × Nat × Nat) :=
  if pc < hi then
    match code.at (BitVec.ofInt 64 pc), casAt code (BitVec.ofInt 64 pc) with
    | some i, some r =>
      let possible := if i.opcode = .spike .lr_w ∨ i.opcode = .spike .lr_d then possible + 1 else possible
      match r with
      | none => casSweep hi (pc + if i.compressed then 2 else 4) code possible replaced
      | some c =>
        casSweep hi (pc + if c.compressed then 2 else 4) (code.set (BitVec.ofInt 64 pc) c) possible
          (replaced + 1)
    | _, _ => none
  else some (code, possible, replaced)
termination_by (hi - pc).toNat
decreasing_by
  all_goals split <;> omega

/-- The process exits when some load-reserved starts no such sequence. -/
def substitute_cas (code : InsnSpace) (lo hi : Long) : Option InsnSpace :=
  match casSweep hi.toInt lo.toInt code 0 0 with
  | some (code, possible, replaced) => if replaced ≠ possible then none else some code
  | none => none

/-! ## What a site is -/

/-- The sequence that three descriptors make. -/
def casSite (i i2 i3 : Insn) : CasSite where
  lrBytes := if i.opcode = .spike .lr_w then 4 else 8
  branchLen := branchLen i2
  scBytes := if i3.opcode = .spike .sc_w then 4 else 8
  load_reg := i.rd.setWidth 5
  addr_reg := i.rs1.setWidth 5
  test_reg := if i2.opcode = .c .c_bnez then 0 else i2.rs2.setWidth 5
  newv_reg := i3.rs2.setWidth 5
  flag_reg := i3.rd.setWidth 5
  offset := i2.immed

/-- The sequence at `pc`. -/
def siteAt (code : InsnSpace) (pc : Long) : Option CasSite := do
  let i ← code.at pc
  let i2 ← code.at (pc + 4)
  let i3 ← code.at (pc + BitVec.ofNat 64 (4 + branchLen i2))
  return casSite i i2 i3

/-- What the loop has looked at when it replaces a descriptor: three instructions in a row, of the
right opcodes. -/
theorem casAt_spec {code : InsnSpace} {pc : Long} {c : Insn} (h : casAt code pc = some (some c)) :
    ∃ i i2 i3, code.at pc = some i ∧ code.at (pc + 4) = some i2 ∧
      code.at (pc + BitVec.ofNat 64 (4 + branchLen i2)) = some i3 ∧
      (i.opcode = .spike .lr_w ∨ i.opcode = .spike .lr_d) ∧
      (i2.opcode = .fast .bne ∨ i2.opcode = .c .c_bnez) ∧
      (i3.opcode = .spike .sc_w ∨ i3.opcode = .spike .sc_d) ∧ casInsn i i2 i3 = some c := by
  unfold casAt at h
  cases hi : code.at pc with
  | none => rw [hi] at h; cases h
  | some i =>
    rw [hi] at h
    dsimp only at h
    split at h
    · cases h
    rename_i hlr
    cases hi2 : code.at (pc + 4) with
    | none => rw [hi2] at h; cases h
    | some i2 =>
      rw [hi2] at h
      dsimp only at h
      split at h
      · cases h
      rename_i hbr
      cases hi3 : code.at (pc + BitVec.ofNat 64 (4 + branchLen i2)) with
      | none => rw [hi3] at h; cases h
      | some i3 =>
        rw [hi3] at h
        dsimp only at h
        split at h
        · cases h
        rename_i hsc
        exact ⟨i, i2, i3, rfl, rfl, hi3, not_not.mp hlr, (not_and_or.mp hbr).imp not_not.mp not_not.mp,
          (not_and_or.mp hsc).imp not_not.mp not_not.mp, Option.some.inj h⟩

/-- The registers that the checks have found equal, and the operands of the replacement. -/
theorem casInsn_spec {i i2 i3 c : Insn} (h : casInsn i i2 i3 = some c) :
    i2.rs1 = i.rd ∧ i3.rs1 = i.rs1 ∧ c.rd = i3.rd ∧ c.rs1 = i.rs1 ∧
    c.rs2 = (if i2.opcode = .c .c_bnez then 0 else i2.rs2) ∧ c.rs3 = i3.rs2 ∧
    c.opcode = .fast (if i2.opcode = .c .c_bnez then
        if i.opcode = .spike .lr_w then .cas10_w else .cas10_d
      else if i.opcode = .spike .lr_w then .cas12_w else .cas12_d) := by
  unfold casInsn at h
  dsimp only at h
  split at h
  · cases h
  split at h
  · cases h
  rename_i h1 h2
  cases h
  refine ⟨not_not.mp h1, not_not.mp h2, rfl, rfl, rfl, rfl, ?_⟩
  unfold branchLen
  by_cases hb : i2.opcode = .c .c_bnez
  · simp only [hb, if_true]
    rfl
  · simp only [hb, if_false]
    rfl

/-! ## The operand bytes of a predecoded text -/

/-- What is behind the full-size instructions in the decoder is Spike's, and has
the standard lines where it is one of the four that the matcher looks for. -/
def StandardRest (rest : List Entry) : Prop :=
  ∀ e ∈ rest, ∃ op : SpikeOp, e.op = .spike op ∧ ∀ e' ∈ lrscEntry op, e = e'

/-- Every descriptor of a sequence came from the decoder. -/
def Predecoded (chain : List Entry) (code : InsnSpace) : Prop :=
  ∀ pc i, code.at pc = some i →
    (i.opcode = .fast .bne ∨ i.opcode = .c .c_bnez ∨ ∃ op, i.opcode = .spike op) →
    ∃ w, i = decoder chain w

theorem decoder_mem {chain : List Entry} {w : BitVec 32}
    (h : (decoder chain w).opcode ≠ .UNKNOWN) :
    ∃ e ∈ chain, (decoder chain w).opcode = e.op ∧ decoder chain w = e.build w := by
  rw [decoder] at h ⊢
  cases hf : chain.find? (fun e => e.test w) with
  | none =>
    rw [hf] at h
    exact absurd rfl h
  | some e => exact ⟨e, List.mem_of_find?_eq_some hf, e.build_opcode w, rfl⟩

section
variable {order : List FastOp} {rest : List Entry} (hrest : StandardRest rest)
include hrest

/-- An entry with a given opcode is the one its table lists. -/
theorem entry_of_op {e : Entry} (he : e ∈ rvcChain ++ fastChain order ++ rest) :
    (∀ op, e.op = .c op → e = rvcEntry op) ∧
    (∀ op, e.op = .fast op → fastEntry op = some e) ∧
    (∀ op, e.op = .spike op → ∀ e' ∈ lrscEntry op, e = e') := by
  rcases List.mem_append.mp he with hcf | hr
  · rcases List.mem_append.mp hcf with hc | hf
    · obtain ⟨op, -, rfl⟩ := List.mem_map.mp hc
      exact ⟨fun op' h => by cases h; rfl, fun op' h => (by cases h), fun op' h => (by cases h)⟩
    · obtain ⟨op, -, hop⟩ := List.mem_filterMap.mp hf
      have heop : e.op = .fast op := by
        unfold fastEntry at hop
        rw [Option.map_eq_some_iff] at hop
        obtain ⟨l, -, rfl⟩ := hop
        rfl
      refine ⟨fun op' h => ?_, fun op' h => ?_, fun op' h => ?_⟩ <;> rw [heop] at h <;> cases h
      exact hop
  · obtain ⟨op, heop, hstd⟩ := hrest e hr
    refine ⟨fun op' h => ?_, fun op' h => ?_, fun op' h => ?_⟩ <;> rw [heop] at h <;> cases h
    exact hstd

end

/-- The four instructions as the decoder builds them. -/
theorem lrsc_bytes : ∀ op, ∀ e ∈ lrscEntry op,
    (crunch e.ty e.bits).bigimm = false ∧
    (crunch e.ty e.bits).registers 0 = .x 7 5 0 ∧
    (crunch e.ty e.bits).registers 1 = .x 15 5 0 ∧
    (op = .sc_w ∨ op = .sc_d → (crunch e.ty e.bits).registers 2 = .x 20 5 0) := by
  intro op e he
  cases op with
  | other n => cases he
  | _ => revert e he; decide

/-- A register byte that names an integer register. -/
def IsGp (r : BitVec 8) : Prop := r.toNat < 32

theorem isGp_field (f : BitVec 5) : IsGp (f.setWidth 8) := toNat_field_byte f

theorem isGp_expr {e : Entry} {w : BitVec 32} {k : Fin 4} {lo : Nat} (hlo : lo + 5 ≤ 32)
    (h : (crunch e.ty e.bits).registers k = .x lo 5 0) : IsGp (e.regByte w k) := by
  unfold Entry.regByte
  rw [h, field_byte hlo]
  exact isGp_field _

section
variable {order : List FastOp} {rest : List Entry} (hrest : StandardRest rest) {w : BitVec 32}
include hrest

theorem isGp_lrsc {op : SpikeOp} (hstd : (lrscEntry op).isSome)
    (h : (decoder (rvcChain ++ fastChain order ++ rest) w).opcode = .spike op) :
    IsGp (decoder (rvcChain ++ fastChain order ++ rest) w).rd ∧
    IsGp (decoder (rvcChain ++ fastChain order ++ rest) w).rs1 ∧
    (op = .sc_w ∨ op = .sc_d → IsGp (decoder (rvcChain ++ fastChain order ++ rest) w).rs2) := by
  obtain ⟨e, he, heop, hbuild⟩ := decoder_mem (by rw [h]; exact Opcode.noConfusion)
  obtain ⟨e', he'⟩ := Option.isSome_iff_exists.mp hstd
  obtain rfl : e = e' := (entry_of_op hrest he).2.2 op (by rw [← heop, h]) e' he'
  obtain ⟨hbig, h0, h1, h2⟩ := lrsc_bytes op e he'
  rw [hbuild, Entry.build_rd, Entry.build_rs1 e w hbig, Entry.build_rs2 e w hbig]
  exact ⟨isGp_expr (by omega) h0, isGp_expr (by omega) h1, fun hsc => isGp_expr (by omega) (h2 hsc)⟩

theorem isGp_bne (h : (decoder (rvcChain ++ fastChain order ++ rest) w).opcode = .fast .bne) :
    IsGp (decoder (rvcChain ++ fastChain order ++ rest) w).rs2 := by
  obtain ⟨e, he, heop, hbuild⟩ := decoder_mem (by rw [h]; exact Opcode.noConfusion)
  have hentry := (entry_of_op hrest he).2.1 .bne (by rw [← heop, h])
  obtain rfl : rv64iEntry .bne = e := Option.some.inj ((fastEntry_rv64iOp .bne).symm.trans hentry)
  rw [hbuild, rv64i_rs2 w (Or.inr (Or.inr rfl))]
  exact isGp_field _

/-- The bytes the compare-and-swap takes from a sequence. -/
theorem isGp_site {code : InsnSpace} (hcode : Predecoded (rvcChain ++ fastChain order ++ rest) code)
    {pc pc2 pc3 : Long} {i i2 i3 : Insn} (hi : code.at pc = some i) (hi2 : code.at pc2 = some i2)
    (hi3 : code.at pc3 = some i3) (hlr : i.opcode = .spike .lr_w ∨ i.opcode = .spike .lr_d)
    (hbr : i2.opcode = .fast .bne ∨ i2.opcode = .c .c_bnez)
    (hsc : i3.opcode = .spike .sc_w ∨ i3.opcode = .spike .sc_d) :
    IsGp i.rd ∧ IsGp i.rs1 ∧ (i2.opcode ≠ .c .c_bnez → IsGp i2.rs2) ∧ IsGp i3.rd ∧ IsGp i3.rs2 := by
  have hload : IsGp i.rd ∧ IsGp i.rs1 := by
    obtain ⟨w, rfl⟩ := hcode pc i hi (Or.inr (Or.inr (by rcases hlr with h | h <;> exact ⟨_, h⟩)))
    rcases hlr with h | h
    · exact ⟨(isGp_lrsc hrest rfl h).1, (isGp_lrsc hrest rfl h).2.1⟩
    · exact ⟨(isGp_lrsc hrest rfl h).1, (isGp_lrsc hrest rfl h).2.1⟩
  have hstore : IsGp i3.rd ∧ IsGp i3.rs2 := by
    obtain ⟨w, rfl⟩ := hcode pc3 i3 hi3 (Or.inr (Or.inr (by rcases hsc with h | h <;> exact ⟨_, h⟩)))
    rcases hsc with h | h
    · exact ⟨(isGp_lrsc hrest rfl h).1, (isGp_lrsc hrest rfl h).2.2 (Or.inl rfl)⟩
    · exact ⟨(isGp_lrsc hrest rfl h).1, (isGp_lrsc hrest rfl h).2.2 (Or.inr rfl)⟩
  refine ⟨hload.1, hload.2, ?_, hstore.1, hstore.2⟩
  intro hne
  have hbne : i2.opcode = .fast .bne := hbr.resolve_right hne
  obtain ⟨w, rfl⟩ := hcode pc2 i2 hi2 (Or.inl hbne)
  exact isGp_bne hrest hbne

end

/-! ## Running the compare-and-swap -/

section
variable {τ : Type} {m : Machine Unit τ} {r : BitVec 8}

theorem readX_gp (hr : IsGp r) : readX r m = .ok (m.xpr (r.setWidth 5), m) := if_pos hr

/-- A register byte of the decoder writes an integer register. -/
theorem write_reg_gp (hr : IsGp r) (v : Long) :
    write_reg r v m = .ok ((), { m with xpr := setX m.xpr (r.setWidth 5) v }) := by
  unfold write_reg setX
  by_cases h : r = 0
  · subst h
    rfl
  · -- a byte below 32 that is not 0 does not name register 0
    have hne : r.setWidth 5 ≠ 0 := by
      intro h0
      apply h
      have hlt : r.toNat < 32 := hr
      have := congrArg BitVec.toNat h0
      rw [BitVec.toNat_setWidth, Nat.mod_eq_of_lt (by omega)] at this
      exact BitVec.eq_of_toNat_eq this
    rw [if_neg h, if_neg hne]
    exact if_pos hr

theorem fetch_ok {σ : Type} {code : InsnSpace} {pc : Long} {i : Insn} (h : code.at pc = some i)
    (m : Machine σ τ) : fetch code pc m = .ok (i, m) := by
  unfold fetch
  rw [h]
  rfl

end

/-- The state after the compare-and-swap that replaces a sequence: all registers
are read first, and the load-reserved's width is used throughout. -/
def substituted (t : CasSite) (s : ArchState) : ArchState :=
  let oldval := s.mem.load (s.x t.addr_reg) t.lrBytes
  let x := setX s.x t.load_reg (oldval.signExtend 64)
  if oldval = (s.x t.test_reg).setWidth (8 * t.lrBytes) then
    { x := setX x t.flag_reg 0, pc := s.pc + BitVec.ofNat 64 (4 + t.branchLen + 4),
      mem := s.mem.store (s.x t.addr_reg) t.lrBytes ((s.x t.newv_reg).setWidth (8 * t.lrBytes)) }
  else { s with x := x, pc := s.pc + t.offset + 4 }

/-- The comparison the compare-and-swap makes. -/
def Matches (t : CasSite) (s : ArchState) : Prop :=
  s.mem.load (s.x t.addr_reg) t.lrBytes = (s.x t.test_reg).setWidth (8 * t.lrBytes)

/-- The registers once the loaded word is in `load_reg`. -/
def afterLoad (t : CasSite) (s : ArchState) : BitVec 5 → Long :=
  setX s.x t.load_reg ((s.mem.load (s.x t.addr_reg) t.lrBytes).signExtend 64)

/-- The memory after the compare-and-swap has stored. -/
def casMem (t : CasSite) (s : ArchState) : Mem :=
  s.mem.store (s.x t.addr_reg) t.lrBytes ((s.x t.newv_reg).setWidth (8 * t.lrBytes))

theorem substituted_of_matches {t : CasSite} {s : ArchState} (h : Matches t s) :
    substituted t s = ⟨setX (afterLoad t s) t.flag_reg 0,
      s.pc + BitVec.ofNat 64 (4 + t.branchLen + 4), casMem t s⟩ := if_pos h

theorem substituted_of_not_matches {t : CasSite} {s : ArchState} (h : ¬Matches t s) :
    substituted t s = ⟨afterLoad t s, s.pc + t.offset + 4, s.mem⟩ := if_neg h

section
variable {τ : Type} {code : InsnSpace} {pc : Long} {c i2 : Insn} (hc : code.at pc = some c)
  (h2 : code.at (pc + 4) = some i2) (hrs1 : IsGp c.rs1) (hrs2 : IsGp c.rs2) (hrs3 : IsGp c.rs3)
  (hrd : IsGp c.rd) (hload : IsGp i2.rs1)
include hc h2 hrs1 hrs2 hrs3 hrd hload

/-- The body of `hart_t::cas` on integer registers: compare in the width, store or not, and the
loaded value to its register. -/
theorem cas_ok (n : Nat) (m : Machine Unit τ) :
    cas pc code n m =
      if m.mem.load (m.xpr (c.rs1.setWidth 5)) n = (m.xpr (c.rs2.setWidth 5)).setWidth (8 * n) then
        .ok (true, { m with
          xpr := setX (setX m.xpr (i2.rs1.setWidth 5)
            ((m.mem.load (m.xpr (c.rs1.setWidth 5)) n).signExtend 64)) (c.rd.setWidth 5) 0
          mem := m.mem.store (m.xpr (c.rs1.setWidth 5)) n
            ((m.xpr (c.rs3.setWidth 5)).setWidth (8 * n)) })
      else
        .ok (false, { m with
          xpr := setX m.xpr (i2.rs1.setWidth 5)
            ((m.mem.load (m.xpr (c.rs1.setWidth 5)) n).signExtend 64) }) := by
  unfold cas
  rw [bind_ok (fetch_ok hc m), bind_ok (readX_gp hrs1), bind_ok (readX_gp hrs2),
    bind_ok (readX_gp hrs3)]
  have hget : (get : Act Unit τ _) m = .ok (m, m) := rfl
  rw [bind_ok hget]
  dsimp only
  by_cases heq : m.mem.load (m.xpr (c.rs1.setWidth 5)) n = (m.xpr (c.rs2.setWidth 5)).setWidth (8 * n)
  · have hmod (f : Machine Unit τ → Machine Unit τ) :
        (modify f : Act Unit τ PUnit) m = .ok ((), f m) := rfl
    simp only [if_pos heq]
    rw [bind_ok (hmod _), bind_ok (fetch_ok h2 _), bind_ok (write_reg_gp hload _),
      bind_ok (write_reg_gp hrd _), decide_eq_true heq]
    rfl
  · simp only [if_neg heq]
    rw [bind_ok (fetch_ok h2 _), bind_ok (write_reg_gp hload _), decide_eq_false heq]
    rfl

/-- The line of RV.fast around it. -/
theorem casLine_ok (t : CasSite) (n len : Nat) (hn : n = t.lrBytes) (hlen : len = 4 + t.branchLen + 4)
    (hl : t.load_reg = i2.rs1.setWidth 5) (ha : t.addr_reg = c.rs1.setWidth 5)
    (ht : t.test_reg = c.rs2.setWidth 5) (hv : t.newv_reg = c.rs3.setWidth 5)
    (hf : t.flag_reg = c.rd.setWidth 5) (ho : t.offset = i2.immed) (m : Machine Unit τ) :
    ∃ pc' m', casLine pc mmu_t code len n m = .ok (pc', m') ∧
      m'.arch pc' = substituted t (m.arch pc) := by
  subst hn hlen
  have hcas := cas_ok hc h2 hrs1 hrs2 hrs3 hrd hload t.lrBytes m
  rw [← hl, ← ha, ← ht, ← hv, ← hf] at hcas
  unfold casLine
  by_cases heq : Matches t (m.arch pc)
  · rw [bind_ok (hcas.trans (if_pos heq)), substituted_of_matches heq]
    exact ⟨_, _, rfl, rfl⟩
  · rw [bind_ok (hcas.trans (if_neg heq)), substituted_of_not_matches heq, ho,
      if_pos (show (!false) = true from rfl), bind_ok (fetch_ok h2 _)]
    exact ⟨_, _, rfl, rfl⟩

end

theorem setX_zero {x : BitVec 5 → Long} (h0 : x 0 = 0) (r : BitVec 5) (v : Long) :
    setX x r v 0 = 0 := by
  unfold setX
  split
  case isTrue => exact h0
  case isFalse hr => rw [Function.update_of_ne (Ne.symm hr), h0]

theorem substituted_x0 {t : CasSite} {s : ArchState} (h0 : s.x 0 = 0) : (substituted t s).x 0 = 0 := by
  by_cases h : Matches t s
  · rw [substituted_of_matches h]
    exact setX_zero (setX_zero h0 _ _) _ _
  · rw [substituted_of_not_matches h]
    exact setX_zero h0 _ _

/-- One iteration on a replaced descriptor. The text is the one after the
replacement; the branch behind it is still there. -/
theorem iteration_cas {τ : Type} {env : Env Unit τ} (hmmu : env.mmu = mmu_t) {pc : Long}
    {i i2 i3 c : Insn} (hc : env.code.at pc = some c) (h2 : env.code.at (pc + 4) = some i2)
    (hcas : casInsn i i2 i3 = some c)
    (hgp : IsGp i.rd ∧ IsGp i.rs1 ∧ (i2.opcode ≠ .c .c_bnez → IsGp i2.rs2) ∧ IsGp i3.rd ∧ IsGp i3.rs2)
    (h : Hart Unit τ) (h0 : h.xpr 0 = 0) (insns : Int) :
    ∃ pc' h', iteration env insns pc h = .next pc' h' ∧
      h'.arch pc' = substituted (casSite i i2 i3) (h.arch pc) := by
  obtain ⟨hrs1, -, crd, crs1, crs2, crs3, cop⟩ := casInsn_spec hcas
  obtain ⟨grd, gaddr, gtest, gflag, gnewv⟩ := hgp
  have gcrs2 : IsGp c.rs2 := by
    rw [crs2]
    split
    · exact isGp_field 0
    · exact gtest ‹_›
  have hrun (len n : Nat) (hn : n = (casSite i i2 i3).lrBytes)
      (hlen : len = 4 + (casSite i i2 i3).branchLen + 4) :=
    casLine_ok hc h2 (by rw [crs1]; exact gaddr) gcrs2 (by rw [crs3]; exact gnewv)
      (by rw [crd]; exact gflag) (by rw [hrs1]; exact grd) (casSite i i2 i3) n len hn hlen
      (by rw [hrs1]; rfl) (by rw [crs1]; rfl)
      (by
        rw [crs2]
        show (if i2.opcode = .c .c_bnez then 0 else i2.rs2.setWidth 5) = _
        split <;> rfl)
      (by rw [crs3]; rfl) (by rw [crd]; rfl) rfl (h.log (.insn_model pc))
  have hact : ∃ len n, n = (casSite i i2 i3).lrBytes ∧ len = 4 + (casSite i i2 i3).branchLen + 4 ∧
      c.opcode.action c pc mmu_t env.code = some (casLine (τ := τ) pc mmu_t env.code len n) := by
    rw [cop]
    simp only [casSite, branchLen]
    by_cases hb : i2.opcode = .c .c_bnez <;> by_cases hw : i.opcode = .spike .lr_w <;>
      simp only [hb, hw, if_true, if_false] <;> exact ⟨_, _, rfl, rfl, rfl⟩
  obtain ⟨len, n, hn, hlen, hact⟩ := hact
  obtain ⟨pc', m', hok, harch⟩ := hrun len n hn hlen
  have hmodel : insn_model env.mmu pc h.toMachine = .ok ((), h.log (.insn_model pc)) := by
    rw [hmmu]
    rfl
  have hecall : c.opcode ≠ .fast .ecall := by
    rw [cop]
    split <;> split <;> decide
  refine ⟨pc', ((h.setMachine (h.log (.insn_model pc))).setMachine m').clear_x0, ?_, ?_⟩
  · rw [iteration_eq env hmodel hc, dispatch_fast env hecall (by rw [hmmu]; exact hact) hok]
    rfl
  · have hx0 : m'.xpr 0 = 0 := by
      have := substituted_x0 (t := casSite i i2 i3) (s := (h.log (.insn_model pc)).arch pc) h0
      rw [← harch] at this
      exact this
    have hclear : Function.update m'.xpr 0 0 = m'.xpr := clear_id hx0
    show (⟨Function.update m'.xpr 0 0, pc', m'.mem⟩ : ArchState) = _
    rw [hclear]
    exact harch

/-! ## When the two end alike -/

/-- The comparison the branch makes: whole registers, after the load. -/
def FallsThrough (t : CasSite) (s : ArchState) : Prop :=
  afterLoad t s t.load_reg = afterLoad t s t.test_reg

/-- The memory after the store-conditional has stored. -/
def scMem (t : CasSite) (s : ArchState) : Mem :=
  s.mem.store (afterLoad t s t.addr_reg) t.scBytes ((afterLoad t s t.newv_reg).setWidth (8 * t.scBytes))

/-- Whether the sequence goes on or branches out makes no difference but for the
store: the branch goes to the end of the sequence, and the flag is zero anyway. -/
def Idle (t : CasSite) (s : ArchState) : Prop :=
  t.offset = BitVec.ofNat 64 (t.branchLen + 4) ∧ afterLoad t s t.flag_reg = 0

/-- The states in which the replacement is right, in terms of the state before it. -/
structure Agrees (t : CasSite) (s : ArchState) : Prop where
  both : FallsThrough t s → Matches t s → ∀ b, scMem t s b = casMem t s b
  onlySc : FallsThrough t s → ¬Matches t s → Idle t s ∧ ∀ b, scMem t s b = s.mem b
  onlyCas : ¬FallsThrough t s → Matches t s → Idle t s ∧ ∀ b, casMem t s b = s.mem b

/-- The three instructions, where the branch falls through. -/
theorem original_of_fallsThrough {t : CasSite} {s : ArchState} (h : FallsThrough t s) :
    t.original s = ⟨setX (afterLoad t s) t.flag_reg 0,
      s.pc + BitVec.ofNat 64 (4 + t.branchLen + 4), scMem t s⟩ := by
  have heq : (s.lr t.lrBytes t.load_reg t.addr_reg).x t.load_reg
      = (s.lr t.lrBytes t.load_reg t.addr_reg).x t.test_reg := h
  have hpc : s.pc + 4 + BitVec.ofNat 64 t.branchLen + 4 = s.pc + BitVec.ofNat 64 (4 + t.branchLen + 4) := by
    rw [BitVec.ofNat_add, BitVec.ofNat_add, BitVec.add_assoc, BitVec.add_assoc, BitVec.add_assoc]
    rfl
  unfold CasSite.original
  simp only [ArchState.bne, ne_eq, heq, not_true, if_false]
  rw [← hpc]
  rfl

theorem original_of_not_fallsThrough {t : CasSite} {s : ArchState} (h : ¬FallsThrough t s) :
    t.original s = ⟨afterLoad t s, s.pc + t.offset + 4, s.mem⟩ := by
  have hne : (s.lr t.lrBytes t.load_reg t.addr_reg).x t.load_reg
      ≠ (s.lr t.lrBytes t.load_reg t.addr_reg).x t.test_reg := h
  have hpc : s.pc + 4 + t.offset = s.pc + t.offset + 4 := by
    rw [BitVec.add_assoc, BitVec.add_comm 4, BitVec.add_assoc]
  unfold CasSite.original
  simp only [if_neg hne, ArchState.bne, if_pos hne]
  rw [← hpc]
  rfl

theorem setX_eq_self_iff {x : BitVec 5 → Long} (h0 : x 0 = 0) (r : BitVec 5) :
    setX x r 0 = x ↔ x r = 0 := by
  unfold setX
  split
  case isTrue hr =>
    subst hr
    exact ⟨fun _ => h0, fun _ => rfl⟩
  case isFalse hr =>
    rw [Function.update_eq_self_iff]
    exact eq_comm

theorem end_eq_target_iff (pc offset : Long) (n : Nat) :
    pc + BitVec.ofNat 64 (4 + n + 4) = pc + offset + 4 ↔ offset = BitVec.ofNat 64 (n + 4) := by
  rw [show 4 + n + 4 = n + 4 + 4 by omega, BitVec.ofNat_add, ← BitVec.add_assoc]
  constructor
  · intro h
    exact (add_left_cancel (add_right_cancel h)).symm
  · rintro rfl
    rfl

/-- The two sides of the comparison differ: one goes on and stores, the other
branches out. -/
theorem went_on_eq_iff {t : CasSite} {s : ArchState} (h0 : s.x 0 = 0) (mem : Mem) :
    (⟨setX (afterLoad t s) t.flag_reg 0, s.pc + BitVec.ofNat 64 (4 + t.branchLen + 4), mem⟩ : ArchState)
      = ⟨afterLoad t s, s.pc + t.offset + 4, s.mem⟩ ↔ Idle t s ∧ ∀ b, mem b = s.mem b := by
  have hload : afterLoad t s 0 = 0 := setX_zero h0 _ _
  rw [ArchState.mk.injEq, setX_eq_self_iff hload, end_eq_target_iff, funext_iff, Idle,
    ← and_assoc, and_comm (a := afterLoad t s t.flag_reg = 0)]

/-- **The compare-and-swap and the three instructions end in the same state
exactly where `Agrees` says so.** -/
theorem substituted_eq_original_iff {t : CasSite} {s : ArchState} (h0 : s.x 0 = 0) :
    substituted t s = t.original s ↔ Agrees t s := by
  -- whether the original stores, against whether the compare-and-swap does
  by_cases hf : FallsThrough t s <;> by_cases hm : Matches t s
  · rw [substituted_of_matches hm, original_of_fallsThrough hf, ArchState.mk.injEq, funext_iff (f := casMem t s)]
    constructor
    · rintro ⟨-, -, hmem⟩
      exact ⟨fun _ _ b => (hmem b).symm, fun _ h => absurd hm h, fun h => absurd hf h⟩
    · intro h
      exact ⟨rfl, rfl, fun b => (h.both hf hm b).symm⟩
  · rw [substituted_of_not_matches hm, original_of_fallsThrough hf, eq_comm, went_on_eq_iff h0]
    exact ⟨fun h => ⟨fun _ h' => absurd h' hm, fun _ _ => h, fun h' => absurd hf h'⟩,
      fun h => h.onlySc hf hm⟩
  · rw [substituted_of_matches hm, original_of_not_fallsThrough hf, went_on_eq_iff h0]
    exact ⟨fun h => ⟨fun h' => absurd h' hf, fun h' => absurd h' hf, fun _ _ => h⟩,
      fun h => h.onlyCas hf hm⟩
  · rw [substituted_of_not_matches hm, original_of_not_fallsThrough hf]
    exact ⟨fun _ => ⟨fun h => absurd h hf, fun h => absurd h hf, fun _ h => absurd h hm⟩,
      fun _ => rfl⟩

/-- The sites compilers emit: one width, the loaded register is not `x0` and none
of the others, and the expected value fits the width. There the replacement is
right in every state. -/
theorem agrees_of_distinct {t : CasSite} {s : ArchState} (hbytes : t.lrBytes ≤ 8)
    (hwidth : t.scBytes = t.lrBytes) (hload : t.load_reg ≠ 0) (htest : t.test_reg ≠ t.load_reg)
    (haddr : t.addr_reg ≠ t.load_reg) (hnewv : t.newv_reg ≠ t.load_reg)
    (hfits : ((s.x t.test_reg).setWidth (8 * t.lrBytes)).signExtend 64 = s.x t.test_reg) :
    Agrees t s := by
  -- the load changes none of the other registers, so both sides compare the same
  have hother {r : BitVec 5} (hr : r ≠ t.load_reg) : afterLoad t s r = s.x r := by
    unfold afterLoad setX
    rw [if_neg hload, Function.update_of_ne hr]
  have hself : afterLoad t s t.load_reg = (s.mem.load (s.x t.addr_reg) t.lrBytes).signExtend 64 := by
    unfold afterLoad setX
    rw [if_neg hload, Function.update_self]
  have hiff : FallsThrough t s ↔ Matches t s := by
    unfold FallsThrough Matches
    rw [hself, hother htest]
    constructor
    · intro h
      rw [← h, Lib.setWidth_signExtend (by omega)]
    · intro h
      rw [h, hfits]
  have hmem : scMem t s = casMem t s := by
    unfold scMem casMem
    rw [hother haddr, hother hnewv, hwidth]
  exact ⟨fun _ _ b => congrFun hmem b, fun hf hm => absurd (hiff.mp hf) hm,
    fun hf hm => absurd (hiff.mpr hm) hf⟩

/-! ## The text after the sweep -/

def Insn.isLr (i : Insn) : Prop := i.opcode = .spike .lr_w ∨ i.opcode = .spike .lr_d

def Insn.isCas (i : Insn) : Prop :=
  i.opcode = .fast .cas12_w ∨ i.opcode = .fast .cas12_d ∨ i.opcode = .fast .cas10_w ∨
    i.opcode = .fast .cas10_d

theorem casInsn_isCas {i i2 i3 c : Insn} (h : casInsn i i2 i3 = some c) : c.isCas := by
  have hop := (casInsn_spec h).2.2.2.2.2.2
  unfold Insn.isCas
  rw [hop]
  split <;> split <;> simp

theorem not_isCas_of_isLr {i : Insn} (h : i.isLr) : ¬i.isCas := by
  rcases h with h | h <;> rw [Insn.isCas, h] <;> simp

/-- What a text holds after one descriptor was replaced: what it held, or the new descriptor where
there was one. -/
theorem at_set (code : InsnSpace) (p : Long) (c : Insn) (q : Long) :
    (code.set p c).at q = code.at q ∨ ((code.set p c).at q = some c ∧
      ∀ i, code.at p = some i → code.at q = some i) := by
  have hvalid : (code.set p c).valid q = code.valid q := rfl
  have hslot : (code.set p c).slot q = code.slot q := rfl
  rw [InsnSpace.at, InsnSpace.at, hvalid, hslot]
  by_cases hv : code.valid q
  · rw [if_pos hv, if_pos hv]
    -- two pcs of one slot, or of two
    by_cases heq : code.slot p = code.slot q
    · rcases Nat.lt_or_ge (code.slot q) code.predecoded.length with hlt | hge
      · refine Or.inr ⟨?_, ?_⟩
        · rw [← heq]
          exact List.getElem?_set_self (by rw [heq]; exact hlt)
        · intro i hi
          rw [InsnSpace.at] at hi
          split at hi
          · rw [← heq]
            exact hi
          · cases hi
      · left
        rw [List.getElem?_eq_none hge, List.getElem?_eq_none]
        unfold InsnSpace.set
        rw [List.length_set]
        exact hge
    · left
      exact List.getElem?_set_ne heq
  · left
    rw [if_neg hv, if_neg hv]

/-- What the sweep has changed so far: load-reserves into compare-and-swaps. -/
def Swept (code t : InsnSpace) : Prop :=
  ∀ q, t.at q = code.at q ∨ ∃ i c, code.at q = some i ∧ i.isLr ∧ t.at q = some c ∧ c.isCas

/-- One more replacement at a site. -/
theorem swept_set {code t : InsnSpace} (h : Swept code t) {p : Long} {c : Insn}
    (hsite : casAt t p = some (some c)) : Swept code (t.set p c) := by
  obtain ⟨i, i2, i3, hi, -, -, hlr, -, -, hcas⟩ := casAt_spec hsite
  intro q
  rcases at_set t p c q with hsame | ⟨hset, hold⟩
  · rw [hsame]
    exact h q
  · -- a slot that still holds a load-reserved has not been changed before
    refine Or.inr ⟨i, c, ?_, hlr, hset, casInsn_isCas hcas⟩
    rcases h q with hq | ⟨i', c', -, -, hc', hcas'⟩
    · rw [← hq, hold i hi]
    · rw [hold i hi] at hc'
      cases hc'
      exact absurd hcas' (not_isCas_of_isLr hlr)

/-- The loop has replaced nothing but load-reserves, by induction along the sweep. -/
theorem casSweep_swept {code : InsnSpace} {hi : Int} {t' : InsnSpace} {n k : Nat} (pc : Int)
    (t : InsnSpace) (possible replaced : Nat) (h : Swept code t)
    (hrun : casSweep hi pc t possible replaced = some (t', n, k)) : Swept code t' := by
  fun_induction casSweep hi pc t possible replaced with
  -- no site here: the text is as it was
  | case1 pc t possible replaced hlt i hat possible' hnone ih => exact ih h hrun
  -- a site: one load-reserved is gone
  | case2 pc t possible replaced hlt i hat possible' c hsite ih => exact ih (swept_set h hsite) hrun
  | case3 => cases hrun
  | case4 =>
    cases hrun
    exact h

/-- After `substitute_cas`, every descriptor is the predecoded one or a
compare-and-swap in the place of a load-reserved. -/
theorem substitute_cas_swept {code code' : InsnSpace} {lo hi : Long}
    (h : substitute_cas code lo hi = some code') : Swept code code' := by
  unfold substitute_cas at h
  split at h
  · rename_i t possible replaced hrun
    split at h
    · cases h
    · cases h
      exact casSweep_swept _ _ _ _ (fun q => Or.inl rfl) hrun
  · cases h

theorem at_of_swept {code code' : InsnSpace} (h : Swept code code') {q : Long} {i : Insn}
    (hi : code.at q = some i) (hlr : ¬i.isLr) : code'.at q = some i := by
  rcases h q with hq | ⟨i', c, hi', hlr', -⟩
  · rw [hq, hi]
  · rw [hi] at hi'
    cases hi'
    exact absurd hlr' hlr

/-- **A replaced sequence does what it did before exactly where `Agrees` says so**:
for every site that `substitute_cas` accepts and replaces in a predecoded text,
every register file and every memory. -/
theorem substitute_cas_iff {τ : Type} (env : Env Unit τ) (hmmu : env.mmu = mmu_t)
    (order : List FastOp) {rest : List Entry} (hrest : StandardRest rest) (code : InsnSpace)
    (hcode : Predecoded (rvcChain ++ fastChain order ++ rest) code) (lo hi : Long)
    (hsub : substitute_cas code lo hi = some env.code) (pc : Long) (c : Insn)
    (hsite : casAt code pc = some (some c)) (hrep : env.code.at pc = some c) (h : Hart Unit τ)
    (h0 : h.xpr 0 = 0) (insns : Int) :
    ∃ t, siteAt code pc = some t ∧
      ((∃ pc' h', iteration env insns pc h = .next pc' h' ∧ h'.arch pc' = t.original (h.arch pc))
        ↔ Agrees t (h.arch pc)) := by
  obtain ⟨i, i2, i3, hi, hi2, hi3, hlr, hbr, hsc, hcas⟩ := casAt_spec hsite
  refine ⟨casSite i i2 i3, ?_, ?_⟩
  · simp only [siteAt, hi, hi2, hi3, Option.bind_eq_bind, Option.bind_some]
    rfl
  · have hgp := isGp_site hrest hcode hi hi2 hi3 hlr hbr hsc
    have hnlr : ¬i2.isLr := by
      unfold Insn.isLr
      rcases hbr with h | h <;> simp [h]
    obtain ⟨pc₁, h₁, hit, harch⟩ := iteration_cas hmmu hrep
      (at_of_swept (substitute_cas_swept hsub) hi2 hnlr) hcas hgp h h0 insns
    rw [← substituted_eq_original_iff (t := casSite i i2 i3) (s := h.arch pc) h0]
    constructor
    · rintro ⟨pc', h', hit', harch'⟩
      rw [hit] at hit'
      cases hit'
      rw [← harch, harch']
    · intro heq
      exact ⟨pc₁, h₁, hit, harch.trans heq⟩

/-! ## A site that breaks -/

/-- The lines of load-reserved and store-conditional, behind the full-size instructions. -/
def lrscRest : List Entry := [SpikeOp.lr_w, .lr_d, .sc_w, .sc_d].filterMap lrscEntry

theorem standardRest_lrscRest : StandardRest lrscRest := by
  intro e he
  obtain ⟨op, -, hop⟩ := List.mem_filterMap.mp he
  refine ⟨op, ?_, fun e' he' => Option.some.inj (hop.symm.trans he')⟩
  unfold lrscEntry at hop
  rw [Option.map_eq_some_iff] at hop
  obtain ⟨l, -, rfl⟩ := hop
  rfl

/-- `lr.w a5,(a0)`, `bne a5,a4,16`, `sc.w a3,a2,(a0)` at the start of a text. -/
def lrscText : InsnSpace :=
  let insn := decoder (rvcChain ++ fastChain listedFast ++ lrscRest)
  ⟨0x1000, 0x100c, 0x1000,
    [insn 0x100527af, ⟨.ZERO, 0, 0, 0, 0, 0⟩, insn 0x00e79863, ⟨.ZERO, 0, 0, 0, 0, 0⟩,
      insn 0x18c526af, ⟨.ZERO, 0, 0, 0, 0, 0⟩]⟩

/-- The three descriptors are those of the decoder. -/
theorem predecoded_lrscText :
    Predecoded (rvcChain ++ fastChain listedFast ++ lrscRest) lrscText := by
  intro pc i hat hop
  rw [InsnSpace.at] at hat
  split at hat
  case isFalse => cases hat
  case isTrue =>
    have hmem := List.mem_of_getElem? hat
    simp only [lrscText, List.mem_cons, List.not_mem_nil, or_false] at hmem
    rcases hmem with rfl | rfl | rfl | rfl | rfl | rfl
    case inl => exact ⟨_, rfl⟩
    case inr.inr.inl => exact ⟨_, rfl⟩
    case inr.inr.inr.inr.inl => exact ⟨_, rfl⟩
    all_goals rcases hop with h | h | ⟨op, h⟩ <;> cases h

/-- The descriptor that replaces its load-reserved. -/
def lrscCas : Insn := reg3insn (.fast .cas12_w) 13 10 14 12

theorem casAt_lrscText : casAt lrscText 0x1000 = some (some lrscCas) := by rfl

/-- The sweep over this text finds one load-reserved and replaces it. -/
theorem substitute_cas_lrscText :
    substitute_cas lrscText 0x1000 0x100c = some (lrscText.set 0x1000 lrscCas) := by
  have hsweep : casSweep 0x100c 0x1000 lrscText 0 0 = some (lrscText.set 0x1000 lrscCas, 1, 1) := by
    unfold casSweep
    rw [if_pos (by decide)]
    show casSweep 0x100c 0x1004 (lrscText.set 0x1000 lrscCas) 1 1 = _
    unfold casSweep
    rw [if_pos (by decide)]
    show casSweep 0x100c 0x1008 (lrscText.set 0x1000 lrscCas) 1 1 = _
    unfold casSweep
    rw [if_pos (by decide)]
    show casSweep 0x100c 0x100c (lrscText.set 0x1000 lrscCas) 1 1 = _
    unfold casSweep
    rw [if_neg (by decide)]
  unfold substitute_cas
  rw [show (0x100c : Long).toInt = 0x100c by decide,
    show (0x1000 : Long).toInt = 0x1000 by decide, hsweep]
  rfl

def lrscEnv : Env Unit Unit := { twoEcalls with code := lrscText.set 0x1000 lrscCas }

/-- The lock word is 1, and `a4` is what it is expected to be. -/
def lrscHart (expected : Long) : Hart Unit Unit :=
  { freshHart 0x1000 with
    xpr := fun r => if r = 10 then 0x2000 else if r = 14 then expected else 0
    mem := Mem.store (fun _ => 0) 0x2000 4 1#32 }

/-- The lock word is the expected one. -/
theorem substitute_cas_iff_lrsc : ∃ t, siteAt lrscText 0x1000 = some t ∧
    ∃ pc' h', iteration lrscEnv 0 0x1000 (lrscHart 1) = .next pc' h' ∧
      h'.arch pc' = t.original ((lrscHart 1).arch 0x1000) := by
  obtain ⟨t, ht, hiff⟩ := substitute_cas_iff lrscEnv rfl listedFast standardRest_lrscRest lrscText
    predecoded_lrscText 0x1000 0x100c substitute_cas_lrscText 0x1000 lrscCas casAt_lrscText rfl
    (lrscHart 1) rfl 0
  have hsite : siteAt lrscText 0x1000 = some ⟨4, 4, 4, 15, 10, 14, 12, 13, 16⟩ := by rfl
  obtain rfl := Option.some.inj (hsite.symm.trans ht)
  exact ⟨_, ht, hiff.mpr (agrees_of_distinct (by decide) rfl (by decide) (by decide) (by decide)
    (by decide) (by decide))⟩

/-- The expected value has a bit set above the word: the branch of the original
sequence leaves, the compare-and-swap of the low words stores. -/
theorem substitute_cas_upper_half :
    ¬ ∀ (env : Env Unit Unit) (code : InsnSpace) (lo hi pc : Long) (c : Insn) (h : Hart Unit Unit)
        (t : CasSite),
      env.mmu = mmu_t →
      Predecoded (rvcChain ++ fastChain listedFast ++ lrscRest) code →
      substitute_cas code lo hi = some env.code → casAt code pc = some (some c) →
      env.code.at pc = some c → h.xpr 0 = 0 → siteAt code pc = some t →
      ∃ pc' h', iteration env 0 pc h = .next pc' h' ∧ h'.arch pc' = t.original (h.arch pc) := by
  intro hall
  obtain ⟨pc', h', hit, harch⟩ := hall lrscEnv lrscText 0x1000 0x100c 0x1000 lrscCas
    (lrscHart 0x100000001) ⟨4, 4, 4, 15, 10, 14, 12, 13, 16⟩ rfl predecoded_lrscText
    substitute_cas_lrscText casAt_lrscText rfl rfl rfl
  have hpc : pc' = 0x1014 := (congrArg ArchState.pc harch).trans (by decide)
  have hleave : ∃ h', iteration lrscEnv 0 0x1000 (lrscHart 0x100000001) = .next 0x100c h' := ⟨_, rfl⟩
  obtain ⟨h'', hit'⟩ := hleave
  rw [hit, hpc] at hit'
  cases hit'

end Cavatools.Uspike
