import Cavatools.Riscv.Expand
import Cavatools.Uspike.WordOps

/-!
# The compressed lines against the full-size ones

RV.fast writes the lines of the compressed instructions out a second time. One
iteration on a compressed instruction is compared here with one on the word of
its expansion: every line agrees with its double up to the length of the
instruction, under every memory model, but for `c.jr` and `c.jalr`, which do
not clear bit 0 of their target as `jalr` does.

The first step is about the decoder. The two descriptors have the operands in
common that the architecture shares between the two instructions (`Doubles`,
`doubles`): the compressed side by what its template stores, the full-size
side by the fields of the assembled word, where the immediate has to fit the
boxes of the format that it goes to (`fits_operands`).

The second is about the lines. They are actions on any model, so equality is
stated of what they end in (`SameEnd`): the same crash, or states that differ
in the pc behind the instruction and in the link (`Shortened`). There are few
shapes of lines, and for each one lemma compares it with itself at another
length: `compute_same`, `store_same`, `branch_same`, and `jump_same` and
`link_same` for the jumps. `lines_same` goes through the table with them.

The third is about an iteration around the two lines (`iteration_same`), and
the last about when they agree: for the two jumps through a register, exactly
if their target is even (`EvenTarget`, `ends_iff`). So `expansion_iff` has
both directions, for every legal compressed instruction that has a line.
-/

namespace Cavatools.Uspike

open Riscv

variable {σ τ : Type}

/-- States that differ in the fall-through pc and in the link at most. -/
structure Shortened (op : COp) (pc : Long) (s2 s4 : ArchState) : Prop where
  mem : s2.mem = s4.mem
  regs : ∀ r, r = 1 ∧ op = .c_jalr ∨ s2.x r = s4.x r
  link : op = .c_jalr → s2.x 1 = pc + 2 ∧ s4.x 1 = pc + 4
  pc : s2.pc = s4.pc ∨ s2.pc = pc + 2 ∧ s4.pc = pc + 4

/-! ## The two descriptors -/

def fullOp : Full → FastOp
  | .base i => rv64iOp i
  | .addiw => .addiw
  | .addw => .addw
  | .subw => .subw

theorem fullOp_ne_ecall (f : Full) : fullOp f ≠ .ecall := by
  cases f with
  | base i => cases i <;> decide
  | _ => decide

/-- The descriptor of a full-size instruction as the decoder builds it, in the terms of the manual. -/
structure FullDecoded (f : Full) (w : BitVec 32) (D : Insn) : Prop where
  opcode : D.opcode = .fast (fullOp f)
  rd : f.row.format ≠ .S ∧ f.row.format ≠ .B → D.rd = (rd w).setWidth 8
  rs1 : f.row.format ≠ .U ∧ f.row.format ≠ .J → D.rs1 = (rs1 w).setWidth 8
  rs2 : f.row.format = .R ∨ f.row.format = .S ∨ f.row.format = .B → D.rs2 = (rs2 w).setWidth 8
  imm : ∀ v, f.row.format.imm w = some v → D.immed = v

theorem row_format (i : Rv64i) : (Full.base i).row.format = i.format := by
  cases i <;> rfl

/-- The word of a full-size instruction decodes to its line of the table, with its fields as
operands. -/
theorem full_decoded {f : Full} {w : BitVec 32} (henc : f.Encodes w) {order : List FastOp}
    (hop : fullOp f ∈ order) (rest : List Entry) :
    FullDecoded f w (decoder (rvcChain ++ fastChain order ++ rest) w) := by
  cases f with
  | base i =>
    rw [rv64i_first henc hop rest]
    have hD := decoded_build i w
    refine ⟨hD.opcode, ?_, ?_, ?_, ?_⟩ <;> rw [row_format]
    · exact hD.rd
    · exact hD.rs1
    · exact hD.rs2
    · exact hD.imm
  | addiw =>
    have hD := word_decoded (i := .addiw) henc (by rintro op ⟨⟩; exact hop) rest
    exact ⟨hD.opcode, fun _ => hD.rd, fun _ => hD.rs1, fun h => absurd h (by decide),
      fun v hv => (hD.imm rfl).trans (Option.some.inj hv)⟩
  | addw =>
    have hD := word_decoded (i := .addw) henc (by rintro op ⟨⟩; exact hop) rest
    exact ⟨hD.opcode, fun _ => hD.rd, fun _ => hD.rs1, fun _ => hD.rs2 rfl, fun v hv => (by cases hv)⟩
  | subw =>
    have hD := word_decoded (i := .subw) henc (by rintro op ⟨⟩; exact hop) rest
    exact ⟨hD.opcode, fun _ => hD.rd, fun _ => hD.rs1, fun _ => hD.rs2 rfl, fun v hv => (by cases hv)⟩

/-- The immediate of a compressed instruction has no more digits than the format it goes to. -/
theorem pieces_room (op : COp) : ∀ f ∈ expandsTo op, ∀ p ∈ immPieces op, 0 < immLen p.2.1 p.2.2 ∧
    ∀ q ∈ f.row.format.immPieces, immLen p.2.1 p.2.2 ≤ immLen f.row.format.immBits q.2.2 ∧
      (q.1 = true → p.1 = true ∨ immLen p.2.1 p.2.2 < immLen f.row.format.immBits q.2.2) ∧
      (q.1 = false → p.1 = false) ∧ ∀ k < q.2.2, immPlace p.1 p.2.1 p.2.2 k = none := by
  cases op <;> decide

/-- What a compressed instruction names fits the format of its double. -/
theorem fits_operands (h : BitVec 16) (op : COp) : ∀ f ∈ expandsTo op,
    f.row.format.Fits ((operands h op).imm.getD 0) := by
  intro f hf
  rw [operands_imm]
  cases hp : immPieces op with
  | none =>
    -- what has no immediate becomes an R format or a jump to offset zero
    have hzero : ∀ op, ∀ f ∈ expandsTo op, immPieces op = none →
        ∀ q ∈ f.row.format.immPieces, immOf q.1 f.row.format.immBits q.2.2 0#64 = 0#64 := by
      intro op
      cases op <;> decide
    exact hzero op f hf hp
  | some p =>
    obtain ⟨hpos, hroom⟩ := pieces_room op f hf p hp
    exact fits_immOf h hpos (fun q hq => (hroom q hq).1) (fun q hq => (hroom q hq).2.1)
      (fun q hq => (hroom q hq).2.2.1) (fun q hq => (hroom q hq).2.2.2)

/-- The descriptors of a legal halfword and of its expansion, by the operands they share. -/
structure Doubles (op : COp) (f : Full) (o : Operands) (D2 D4 : Insn) : Prop where
  opcode2 : D2.opcode = .c op
  rd2 : D2.rd = regNumber o.rd
  rs12 : D2.rs1 = regNumber o.rs1
  rs22 : op ≠ .c_lui → D2.rs2 = regNumber o.rs2
  imm2 : ∀ v, o.imm = some v → D2.immed = v
  opcode4 : D4.opcode = .fast (fullOp f)
  rd4 : f.row.format ≠ .S ∧ f.row.format ≠ .B → D4.rd = (xNumber o.rd).setWidth 8
  rs14 : f.row.format ≠ .U ∧ f.row.format ≠ .J → D4.rs1 = (xNumber o.rs1).setWidth 8
  rs24 : f.row.format = .R ∨ f.row.format = .S ∨ f.row.format = .B →
    D4.rs2 = (xNumber o.rs2).setWidth 8
  imm4 : f.row.format ≠ .R → D4.immed = o.imm.getD 0

/-- **The two descriptors** hold the same operands, each decoded from its own word. -/
theorem doubles {op : COp} {b : BitVec 32} (hlegal : Legal (b.setWidth 16) op) {f : Full}
    (hf : f ∈ expandsTo op) {order : List FastOp} (hop : fullOp f ∈ order) (rest : List Entry)
    {w : BitVec 32} (hw : w ∈ expand (b.setWidth 16) op) :
    Doubles op f (operands (b.setWidth 16) op) (decoder (rvcChain ++ fastChain order ++ rest) b)
      (decoder (rvcChain ++ fastChain order ++ rest) w) := by
  obtain rfl : f.row.assemble (xNumber (operands (b.setWidth 16) op).rd)
      (xNumber (operands (b.setWidth 16) op).rs1) (xNumber (operands (b.setWidth 16) op).rs2)
      ((operands (b.setWidth 16) op).imm.getD 0) = w := by
    rw [expand, Option.mem_def.mp hf] at hw
    exact Option.some.inj hw
  have hD := full_decoded (f.encodes_assemble (xNumber (operands (b.setWidth 16) op).rd)
      (xNumber (operands (b.setWidth 16) op).rs1) (xNumber (operands (b.setWidth 16) op).rs2)
      ((operands (b.setWidth 16) op).imm.getD 0)) hop rest
  have hfit := fits_operands (b.setWidth 16) op f hf
  rw [List.append_assoc, rvc_first hlegal, ← List.append_assoc]
  refine ⟨by rw [Entry.build_opcode]; rfl, rvc_rd op b, rvc_rs1 op b, fun hlui => rvc_rs2 hlui b,
    fun v hv => rvc_immed hv, hD.opcode, ?_, ?_, ?_, ?_⟩ <;> intro hfmt
  · rw [hD.rd hfmt]
    exact congrArg _ (rd_assemble _ _ _ _ _ _ _ hfmt)
  · rw [hD.rs1 hfmt]
    exact congrArg _ (rs1_assemble _ _ _ _ _ _ _ hfmt)
  · rw [hD.rs2 hfmt]
    exact congrArg _ (rs2_assemble _ _ _ _ _ _ _ hfmt)
  · have hsome (w : BitVec 32) : ∃ u, f.row.format.imm w = some u := by
      cases h : f.row.format with
      | R => exact absurd h hfmt
      | _ => exact ⟨_, rfl⟩
    obtain ⟨u, hu⟩ := hsome _
    rw [hD.imm u hu]
    exact imm_assemble _ _ _ _ _ _ _ hfit u hu

/-! ## The two lines -/

/-- The state that a line leaves once register 0 is cleared. -/
def cleared (pc : Long) (m : Machine σ τ) : ArchState := ⟨Function.update m.xpr 0 0, pc, m.mem⟩

/-- The ends of the two lines: the same crash, or states that differ in the length only. -/
inductive SameEnd (op : COp) (pc : Long) :
    Except (Machine σ τ) (Long × Machine σ τ) → Except (Machine σ τ) (Long × Machine σ τ) → Prop
  | crash (m : Machine σ τ) : SameEnd op pc (.error m) (.error m)
  | ok {pc2 pc4 : Long} {m2 m4 : Machine σ τ} (h : Shortened op pc (cleared pc2 m2) (cleared pc4 m4)) :
      SameEnd op pc (.ok (pc2, m2)) (.ok (pc4, m4))

section
variable {op : COp} {pc : Long} {m : Machine σ τ}

theorem same_refl (hop : op ≠ .c_jalr) (r : Except (Machine σ τ) (Long × Machine σ τ)) :
    SameEnd op pc r r := by
  cases r with
  | error m => exact .crash m
  | ok r => exact .ok ⟨rfl, fun _ => Or.inr rfl, fun h => absurd h hop, Or.inl rfl⟩

/-- Two lines that do the same and then go on. -/
theorem fall_same (hop : op ≠ .c_jalr) {α : Type} (x : Act σ τ α) :
    SameEnd op pc ((do let _ ← x; return pc + BitVec.ofNat 64 2) m)
      ((do let _ ← x; return pc + BitVec.ofNat 64 4) m) := by
  cases hx : x m with
  | error m' =>
    have herr (len : Nat) : (do let _ ← x; return pc + BitVec.ofNat 64 len : Act σ τ Long) m = .error m' := by
      show (x m).bind _ = _
      rw [hx]
      rfl
    rw [herr, herr]
    exact .crash m'
  | ok r =>
    rw [bind_ok hx, bind_ok hx]
    exact .ok ⟨rfl, fun _ => Or.inr rfl, fun h => absurd h hop, Or.inr ⟨rfl, rfl⟩⟩

variable {D2 D4 : Insn}

/-- Lines that compute the same value. -/
theorem compute_same (hop : op ≠ .c_jalr) (hrd : D2.rd = D4.rd) {e2 e4 : Act σ τ Long} (he : e2 m = e4 m) :
    SameEnd op pc (compute D2 pc 2 e2 m) (compute D4 pc 4 e4 m) := by
  have hassoc (D : Insn) (len : Nat) (e : Act σ τ Long) :
      compute D pc len e = do let _ ← (do wrd D (← e)); return pc + BitVec.ofNat 64 len := by
    unfold compute
    rw [bind_assoc]
  have hwrite : compute D2 pc 2 e2 m = compute D4 pc 2 e4 m := by
    show (e2 m).bind _ = (e4 m).bind _
    unfold wrd
    rw [he, hrd]
  rw [hwrite, hassoc, hassoc]
  exact fall_same hop _

/-- Lines that store the same value at the same address. -/
theorem store_same (hop : op ≠ .c_jalr) (hrs1 : D2.rs1 = D4.rs1) (hrs2 : D2.rs2 = D4.rs2)
    (himm : D2.immed = D4.immed) (st : Long → Long → Long → Act σ τ Unit) :
    SameEnd op pc (store D2 pc 2 st m) (store D4 pc 4 st m) := by
  have hassoc (D : Insn) (len : Nat) : store D pc len st
      = do let _ ← (do st ((← r1 D) + imm D) pc (← r2 D)); return pc + BitVec.ofNat 64 len := by
    unfold store
    simp only [bind_assoc]
  have hsame : store D2 pc 2 st m = store D4 pc 2 st m := by
    unfold store r1 r2 imm
    rw [hrs1, hrs2, himm]
  rw [hsame, hassoc, hassoc]
  exact fall_same hop _

theorem branch_same (hop : op ≠ .c_jalr) (himm : D2.immed = D4.immed) (mmu : Mmu σ) (c : Bool) :
    SameEnd op pc (branch D2 pc mmu 2 c m) (branch D4 pc mmu 4 c m) := by
  unfold branch imm
  rw [himm]
  cases c with
  | true => exact same_refl hop _
  | false => exact fall_same hop (pure ())

/-- A jump against one that links into `x0`. -/
theorem jump_same (hop : op ≠ .c_jalr) (hrd : D4.rd = (0 : BitVec 5).setWidth 8) (mmu : Mmu σ) (npc : Long) :
    SameEnd op pc (jump_model mmu npc pc m) (link D4 pc mmu 4 npc m) := by
  cases hj : (jump_model mmu npc pc m : Except _ (Long × Machine σ τ)) with
  | error m' =>
    have herr : link D4 pc mmu 4 npc m = .error m' := by
      show (jump_model mmu npc pc m).bind _ = _
      rw [hj]
      rfl
    rw [herr]
    exact .crash m'
  | ok r =>
    unfold link
    rw [bind_ok hj, bind_ok (wrd_ok hrd _ _)]
    refine .ok ⟨rfl, fun _ => Or.inr ?_, fun h => absurd h hop, Or.inl rfl⟩
    simp only [cleared, Function.update_idem]

/-- Two jumps that link into `x1`. -/
theorem link_same (h2 : D2.rd = (1 : BitVec 5).setWidth 8) (h4 : D4.rd = (1 : BitVec 5).setWidth 8)
    (mmu : Mmu σ) (npc : Long) :
    SameEnd .c_jalr pc (link D2 pc mmu 2 npc m) (link D4 pc mmu 4 npc m) := by
  cases hj : (jump_model mmu npc pc m : Except _ (Long × Machine σ τ)) with
  | error m' =>
    have herr (D : Insn) (len : Nat) : link D pc mmu len npc m = .error m' := by
      show (jump_model mmu npc pc m).bind _ = _
      rw [hj]
      rfl
    rw [herr, herr]
    exact .crash m'
  | ok r =>
    unfold link
    rw [bind_ok hj, bind_ok (wrd_ok h2 _ _), bind_ok hj, bind_ok (wrd_ok h4 _ _)]
    refine .ok ⟨rfl, ?_, fun _ => ⟨rfl, rfl⟩, Or.inl rfl⟩
    intro r
    by_cases hr : r = 1
    · exact Or.inl ⟨hr, rfl⟩
    · refine Or.inr ?_
      simp only [cleared, Function.update_apply, if_neg hr]

end

section
variable {op : COp} {f : Full} {o : Operands} {D2 D4 : Insn} (hp : Doubles op f o D2 D4)

include hp

theorem Doubles.rd {n : BitVec 5} (ho : o.rd = some (.x n)) (hf : f.row.format ≠ .S ∧ f.row.format ≠ .B) :
    D2.rd = D4.rd := by
  rw [hp.rd2, hp.rd4 hf, ho]
  rfl

theorem Doubles.rs1 {n : BitVec 5} (ho : o.rs1 = some (.x n)) (hf : f.row.format ≠ .U ∧ f.row.format ≠ .J) :
    D2.rs1 = D4.rs1 := by
  rw [hp.rs12, hp.rs14 hf, ho]
  rfl

theorem Doubles.rs2 {n : BitVec 5} (ho : o.rs2 = some (.x n)) (hlui : op ≠ .c_lui)
    (hf : f.row.format = .R ∨ f.row.format = .S ∨ f.row.format = .B) : D2.rs2 = D4.rs2 := by
  rw [hp.rs22 hlui, hp.rs24 hf, ho]
  rfl

theorem Doubles.imm {v : BitVec 64} (ho : o.imm = some v) (hf : f.row.format ≠ .R) : D2.immed = D4.immed := by
  rw [hp.imm2 v ho, hp.imm4 hf, ho]
  rfl

variable (pc : Long) (m : Machine σ τ)

/-- What computes from a register and an immediate. -/
theorem imm_lines {nd n1 : BitVec 5} {v : BitVec 64} (hd : o.rd = some (.x nd)) (h1 : o.rs1 = some (.x n1))
    (hv : o.imm = some v) (hf : f.row.format = .I ∨ f.row.format = .Sh) (hop : op ≠ .c_jalr)
    (g : Long → Long → Act σ τ Long) :
    SameEnd op pc (compute D2 pc 2 (do g (← r1 D2) (Uspike.imm D2)) m)
      (compute D4 pc 4 (do g (← r1 D4) (Uspike.imm D4)) m) := by
  have hfmt : f.row.format ≠ .S ∧ f.row.format ≠ .B ∧ f.row.format ≠ .U ∧ f.row.format ≠ .J ∧
      f.row.format ≠ .R := by
    rcases hf with hf | hf <;> rw [hf] <;> decide
  refine compute_same hop (hp.rd hd ⟨hfmt.1, hfmt.2.1⟩) ?_
  unfold r1 Uspike.imm
  rw [hp.rs1 h1 ⟨hfmt.2.2.1, hfmt.2.2.2.1⟩, hp.imm hv hfmt.2.2.2.2]

/-- What computes from two registers. -/
theorem reg_lines {nd n1 n2 : BitVec 5} (hd : o.rd = some (.x nd)) (h1 : o.rs1 = some (.x n1))
    (h2 : o.rs2 = some (.x n2)) (hf : f.row.format = .R) (hlui : op ≠ .c_lui) (hop : op ≠ .c_jalr)
    (g : Long → Long → Act σ τ Long) :
    SameEnd op pc (compute D2 pc 2 (do g (← r1 D2) (← r2 D2)) m)
      (compute D4 pc 4 (do g (← r1 D4) (← r2 D4)) m) := by
  refine compute_same hop (hp.rd hd (by rw [hf]; decide)) ?_
  unfold r1 r2
  rw [hp.rs1 h1 (by rw [hf]; decide), hp.rs2 h2 hlui (Or.inl hf)]

theorem store_lines {n1 n2 : BitVec 5} {v : BitVec 64} (h1 : o.rs1 = some (.x n1)) (h2 : o.rs2 = some (.x n2))
    (hv : o.imm = some v) (hf : f.row.format = .S) (hlui : op ≠ .c_lui) (hop : op ≠ .c_jalr)
    (st : Long → Long → Long → Act σ τ Unit) :
    SameEnd op pc (store D2 pc 2 st m) (store D4 pc 4 st m) :=
  store_same hop (hp.rs1 h1 (by rw [hf]; decide)) (hp.rs2 h2 hlui (Or.inr (Or.inl hf)))
    (hp.imm hv (by rw [hf]; decide)) st

/-- The branches on zero against those on `x0`. -/
theorem branch_lines {n1 : BitVec 5} {v : BitVec 64} (h1 : o.rs1 = some (.x n1)) (h2 : o.rs2 = none)
    (hv : o.imm = some v) (hf : f.row.format = .B) (hop : op ≠ .c_jalr) (h0 : m.xpr 0 = 0) (mmu : Mmu σ)
    (c : Long → Long → Bool) :
    SameEnd op pc ((do branch D2 pc mmu 2 (c (← r1 D2) 0)) m)
      ((do branch D4 pc mmu 4 (c (← r1 D4) (← r2 D4))) m) := by
  have hrs2 : D4.rs2 = (0 : BitVec 5).setWidth 8 := by
    rw [hp.rs24 (Or.inr (Or.inr hf)), h2]
    rfl
  have hrs12 : D2.rs1 = n1.setWidth 8 := by
    rw [hp.rs12, h1]
    rfl
  have hrs14 := (hp.rs1 h1 (by rw [hf]; decide)).symm.trans hrs12
  rw [bind_ok (r1_ok hrs12 m), bind_ok (r1_ok hrs14 m), bind_ok (r2_ok hrs2 m), h0]
  exact branch_same hop (hp.imm hv (by rw [hf]; decide)) mmu _

end

/-- The compressed opcodes with a line are those that have an expansion. -/
theorem fast_isSome_iff (op : COp) (i : Insn) (pc : Long) (mmu : Mmu σ) :
    (op.fast i pc mmu : Option (Act σ τ Long)).isSome ↔ (expandsTo op).isSome := by
  cases op <;> exact iff_of_eq rfl

/-- So have their expansions. -/
theorem full_isSome {op : COp} {f : Full} (hf : f ∈ expandsTo op) (i : Insn) (pc : Long) (mmu : Mmu σ)
    (code : InsnSpace) : ((fullOp f).fast i pc mmu code : Option (Act σ τ Long)).isSome := by
  cases op <;> cases hf <;> rfl

/-- The operands for which a compressed line does what its double does. -/
def EvenTarget (h : BitVec 16) (x : BitVec 5 → Long) (op : COp) : Prop :=
  op = .c_jr ∨ op = .c_jalr → (x (cRd h)).getLsbD 0 = false

/-- Clearing bit 0 of an even target does nothing. -/
theorem even_mask {t : Long} (h : t.getLsbD 0 = false) : (t + 0) &&& ~~~1#64 = t := by
  apply BitVec.eq_of_getLsbD_eq
  intro k hk
  have hzero : t + 0 = t := BitVec.add_zero t
  rw [hzero, BitVec.getLsbD_and, BitVec.getLsbD_not]
  by_cases hk0 : k = 0
  · rw [hk0, h]
    rfl
  · simp [hk, hk0]

/-- **The lines.** -/
theorem lines_same {op : COp} {f : Full} (hf : f ∈ expandsTo op) {h : BitVec 16} {D2 D4 : Insn}
    (hp : Doubles op f (operands h op) D2 D4) (pc : Long) (mmu : Mmu σ) (code2 code4 : InsnSpace)
    {m : Machine σ τ} (h0 : m.xpr 0 = 0) (heven : EvenTarget h m.xpr op) {act2 act4 : Act σ τ Long}
    (hact2 : D2.opcode.action D2 pc mmu code2 = some act2)
    (hact4 : D4.opcode.action D4 pc mmu code4 = some act4) : SameEnd op pc (act2 m) (act4 m) := by
  rw [hp.opcode2] at hact2
  rw [hp.opcode4] at hact4
  cases op <;> cases hf <;> cases hact2 <;> cases hact4
  case c_addi4spn | c_addi | c_addi16sp =>
    exact imm_lines hp pc m rfl rfl rfl (by decide) (by decide) fun a b => pure (a + b)
  case c_addiw =>
    exact imm_lines hp pc m rfl rfl rfl (by decide) (by decide) fun a b =>
      pure (ofInt32 (int32_t a + int32_t b))
  case c_andi => exact imm_lines hp pc m rfl rfl rfl (by decide) (by decide) fun a b => pure (a &&& b)
  case c_srli => exact imm_lines hp pc m rfl rfl rfl (by decide) (by decide) shr
  case c_srai => exact imm_lines hp pc m rfl rfl rfl (by decide) (by decide) sar
  case c_slli => exact imm_lines hp pc m rfl rfl rfl (by decide) (by decide) shl
  case c_lw | c_lwsp =>
    exact imm_lines hp pc m rfl rfl rfl (by decide) (by decide) fun a b => load_int32 mmu (a + b) pc
  case c_ld | c_ldsp =>
    exact imm_lines hp pc m rfl rfl rfl (by decide) (by decide) fun a b => load_int64 mmu (a + b) pc
  case c_sw | c_swsp => exact store_lines hp pc m rfl rfl rfl rfl (by decide) (by decide) (store_int32 mmu)
  case c_sd | c_sdsp => exact store_lines hp pc m rfl rfl rfl rfl (by decide) (by decide) (store_int64 mmu)
  case c_add => exact reg_lines hp pc m rfl rfl rfl rfl (by decide) (by decide) fun a b => pure (a + b)
  case c_addw =>
    exact reg_lines hp pc m rfl rfl rfl rfl (by decide) (by decide) fun a b =>
      pure (ofInt32 (int32_t a + int32_t b))
  case c_subw =>
    exact reg_lines hp pc m rfl rfl rfl rfl (by decide) (by decide) fun a b =>
      pure (ofInt32 (int32_t a - int32_t b))
  case c_beqz => exact branch_lines hp pc m rfl rfl rfl rfl (by decide) h0 mmu (· == ·)
  case c_bnez => exact branch_lines hp pc m rfl rfl rfl rfl (by decide) h0 mmu (· != ·)
  case c_lui =>
    have himm := hp.imm rfl (by decide)
    exact compute_same (by decide) (hp.rd rfl (by decide)) (by rw [imm, imm, himm])
  case c_li =>
    -- the double adds `x0`
    have himm := hp.imm rfl (by decide)
    have hx : m.xpr (xNumber (operands h .c_li).rs1) = 0 := h0
    refine compute_same (by decide) (hp.rd rfl (by decide)) ?_
    rw [bind_ok (r1_ok (hp.rs14 (by decide)) m), imm, imm, himm, hx]
    exact congrArg (fun v => (pure v : Act σ τ Long) m) (BitVec.zero_add _).symm
  case c_mv =>
    have hx : m.xpr (xNumber (operands h .c_mv).rs1) = 0 := h0
    have h24 := hp.rs24 (by decide)
    have h22 := (hp.rs2 rfl (by decide) (by decide)).trans h24
    refine compute_same (by decide) (hp.rd rfl (by decide)) ?_
    rw [bind_ok (r1_ok (hp.rs14 (by decide)) m), bind_ok (r2_ok h24 m), r2_ok h22 m, hx]
    exact congrArg (fun v => (pure v : Act σ τ Long) m) (BitVec.zero_add _).symm
  case c_j =>
    have himm := hp.imm rfl (by decide)
    rw [imm, imm, himm]
    exact jump_same (by decide) (hp.rd4 (by decide)) mmu _
  case c_jr =>
    have h4 := hp.rs14 (by decide)
    have himm : imm D4 = 0 := hp.imm4 (by decide)
    rw [bind_ok (r1_ok hp.rs12 m), bind_ok (r1_ok h4 m), himm]
    have hmask : (m.xpr (xNumber (operands h .c_jr).rs1) + 0) &&& ~~~1#64 = m.xpr (cRd h) :=
      even_mask (heven (Or.inl rfl))
    rw [hmask]
    exact jump_same (by decide) (hp.rd4 (by decide)) mmu _
  case c_jalr =>
    have h4 := hp.rs14 (by decide)
    have himm : imm D4 = 0 := hp.imm4 (by decide)
    have hmask : (m.xpr (xNumber (operands h .c_jalr).rs1) + 0) &&& ~~~1#64 = m.xpr (cRd h) :=
      even_mask (heven (Or.inr rfl))
    rw [bind_ok (r1_ok hp.rs12 m), bind_ok (r1_ok h4 m), himm, hmask]
    exact link_same hp.rd2 (hp.rd4 (by decide)) mmu _
/-! ## One iteration -/

/-- A line of a full-size instruction ends, under the base class. -/
theorem full_ends {f : Full} {w : BitVec 32} (henc : f.Encodes w) {order : List FastOp}
    (hop : fullOp f ∈ order) (rest : List Entry) (pc : Long) (code : InsnSpace) {m : Machine Unit τ}
    (h0 : m.xpr 0 = 0) :
    ∃ act pc' m', (decoder (rvcChain ++ fastChain order ++ rest) w).opcode.action
        (decoder (rvcChain ++ fastChain order ++ rest) w) pc mmu_t code = some act ∧
      act m = .ok (pc', m') := by
  have hword {i : Word} (hi : i.Encodes w) (hmem : ∀ op ∈ wordFull i, op ∈ order)
      (hv : ∀ a b, (wordComputed a b i).isSome) :
      ∃ act pc' m', (decoder (rvcChain ++ fastChain order ++ rest) w).opcode.action
        (decoder (rvcChain ++ fastChain order ++ rest) w) pc mmu_t code = some act ∧
      act m = .ok (pc', m') := by
    have hD := word_decoded hi hmem rest
    obtain ⟨e, hact, he⟩ := word_line hD pc mmu_t code m
    obtain ⟨v, hv⟩ := Option.isSome_iff_exists.mp (hv (m.xpr (i.src1 w)) (i.operand w m.xpr))
    exact ⟨_, _, _, hact, (compute_iff hD pc m he v).mpr hv⟩
  cases f with
  | base i =>
    rw [rv64i_first henc hop rest]
    obtain ⟨act, hact, pc', m', hrun, -⟩ := fast_runs (decoded_build i w) code pc h0
    exact ⟨act, pc', m', hact, hrun⟩
  | addiw => exact hword (i := .addiw) henc (by rintro op ⟨⟩; exact hop) fun _ _ => rfl
  | addw => exact hword (i := .addw) henc (by rintro op ⟨⟩; exact hop) fun _ _ => rfl
  | subw => exact hword (i := .subw) henc (by rintro op ⟨⟩; exact hop) fun _ _ => rfl

/-- Where the jumps through a register go: the full-size one clears bit 0. -/
theorem jump_targets {op : COp} (hop : op = .c_jr ∨ op = .c_jalr) {h : BitVec 16} {f : Full}
    (hf : f ∈ expandsTo op) {D2 D4 : Insn} (hp : Doubles op f (operands h op) D2 D4) (pc : Long)
    (code2 code4 : InsnSpace) (m : Machine Unit τ) {act2 act4 : Act Unit τ Long}
    (hact2 : D2.opcode.action D2 pc mmu_t code2 = some act2)
    (hact4 : D4.opcode.action D4 pc mmu_t code4 = some act4) :
    (∃ m2, act2 m = .ok (m.xpr (cRd h), m2)) ∧
      ∃ m4, act4 m = .ok ((m.xpr (cRd h) + 0) &&& ~~~1#64, m4) := by
  rw [hp.opcode2] at hact2
  rw [hp.opcode4] at hact4
  have hlink {D : Insn} {d : BitVec 5} (hrd : D.rd = d.setWidth 8) (len : Nat) (npc : Long) :
      ∃ m', link D pc mmu_t len npc m = .ok (npc, m') := by
    have hjump : jump_model mmu_t npc pc m = .ok (npc, m.log (.jump_model npc pc)) := rfl
    unfold link
    rw [bind_ok hjump, bind_ok (wrd_ok hrd _ _)]
    exact ⟨_, rfl⟩
  rcases hop with rfl | rfl <;> cases hf <;> cases hact2 <;> cases hact4 <;>
    have himm : imm D4 = 0 := hp.imm4 (by decide)
  · rw [bind_ok (r1_ok hp.rs12 m), bind_ok (r1_ok (hp.rs14 (by decide)) m), himm]
    exact ⟨⟨_, rfl⟩, hlink (hp.rd4 (by decide)) _ _⟩
  · rw [bind_ok (r1_ok hp.rs12 m), bind_ok (r1_ok (hp.rs14 (by decide)) m), himm]
    exact ⟨hlink hp.rd2 _ _, hlink (hp.rd4 (by decide)) _ _⟩

/-- Either way the two next pcs are both odd or both even. -/
theorem Shortened.parity {op : COp} {pc : Long} {s2 s4 : ArchState} (h : Shortened op pc s2 s4) :
    s2.pc.getLsbD 0 = s4.pc.getLsbD 0 := by
  have hstep : (pc + 2).getLsbD 0 = (pc + 4).getLsbD 0 := by
    have h2 : (2 : Long).toNat = 2 := rfl
    have h4 : (4 : Long).toNat = 4 := rfl
    unfold BitVec.getLsbD
    rw [Nat.testBit_zero, Nat.testBit_zero, BitVec.toNat_add, BitVec.toNat_add, h2, h4]
    congr 2
    omega
  rcases h.pc with heq | ⟨heq2, heq4⟩
  · rw [heq]
  · rw [heq2, heq4, hstep]

/-- The two lines end, and the states agree up to the length exactly for an even target. -/
theorem ends_iff {op : COp} {b : BitVec 32} (hlegal : Legal (b.setWidth 16) op) {f : Full}
    (hf : f ∈ expandsTo op) {order : List FastOp} (hop : fullOp f ∈ order) (rest : List Entry)
    {w : BitVec 32} (hw : w ∈ expand (b.setWidth 16) op) (pc : Long) (code2 code4 : InsnSpace)
    {m : Machine Unit τ} (h0 : m.xpr 0 = 0) :
    ∃ act2 act4 pc2 m2 pc4 m4,
      (decoder (rvcChain ++ fastChain order ++ rest) b).opcode.action
        (decoder (rvcChain ++ fastChain order ++ rest) b) pc mmu_t code2 = some act2 ∧
      (decoder (rvcChain ++ fastChain order ++ rest) w).opcode.action
        (decoder (rvcChain ++ fastChain order ++ rest) w) pc mmu_t code4 = some act4 ∧
      act2 m = .ok (pc2, m2) ∧ act4 m = .ok (pc4, m4) ∧
      (Shortened op pc (cleared pc2 m2) (cleared pc4 m4) ↔ EvenTarget (b.setWidth 16) m.xpr op) := by
  have hp := doubles hlegal hf hop rest hw
  have henc : f.Encodes w := by
    rw [expand, Option.mem_def.mp hf] at hw
    cases hw
    exact f.encodes_assemble _ _ _ _
  obtain ⟨act4, pc4, m4, hact4, hrun4⟩ := full_ends henc hop rest pc code4 h0
  obtain ⟨act2, hact2⟩ : ∃ act2, (decoder (rvcChain ++ fastChain order ++ rest) b).opcode.action
      (decoder (rvcChain ++ fastChain order ++ rest) b) pc mmu_t code2 = some act2 := by
    have hsome : (expandsTo op).isSome := Option.isSome_iff_exists.mpr ⟨f, hf⟩
    have hfast : (op.fast (decoder (rvcChain ++ fastChain order ++ rest) b) pc mmu_t :
        Option (Act Unit τ Long)).isSome := (fast_isSome_iff op _ pc mmu_t).mpr hsome
    rw [hp.opcode2]
    exact Option.isSome_iff_exists.mp hfast
  by_cases heven : EvenTarget (b.setWidth 16) m.xpr op
  · have hsame := lines_same hf hp pc mmu_t code2 code4 h0 heven hact2 hact4
    rw [hrun4] at hsame
    cases hrun2 : act2 m with
    | error m2 =>
      rw [hrun2] at hsame
      cases hsame
    | ok r =>
      rw [hrun2] at hsame
      cases hsame with
      | ok h => exact ⟨_, _, _, _, _, _, hact2, hact4, hrun2, hrun4, iff_of_true h heven⟩
  · have hjump : op = .c_jr ∨ op = .c_jalr := by
      by_contra hne
      exact heven fun h => absurd h hne
    obtain ⟨⟨m2, hrun2⟩, ⟨m4', hrun4'⟩⟩ := jump_targets hjump hf hp pc code2 code4 m hact2 hact4
    refine ⟨_, _, _, _, _, _, hact2, hact4, hrun2, hrun4', iff_of_false ?_ heven⟩
    intro h
    refine heven fun _ => ?_
    have hpar : (m.xpr (cRd (b.setWidth 16))).getLsbD 0
        = ((m.xpr (cRd (b.setWidth 16)) + 0) &&& ~~~1#64).getLsbD 0 := h.parity
    rw [hpar, BitVec.getLsbD_and]
    simp

/-- The ends of two iterations: the same crash, or next states that differ in the length only. -/
inductive SameStep (op : COp) (pc : Long) : Step σ τ → Step σ τ → Prop
  | crash (m : Machine σ τ) : SameStep op pc (.stop (.crash m)) (.stop (.crash m))
  | next {pc2 pc4 : Long} {h2 h4 : Hart σ τ} (h : Shortened op pc (h2.arch pc2) (h4.arch pc4)) :
      SameStep op pc (.next pc2 h2) (.next pc4 h4)

/-- The switch takes the ends of the two lines to those of the iterations. -/
theorem dispatch_same {env2 env4 : Env σ τ} {op : COp} {pc : Long} {D2 D4 : Insn}
    (hecall2 : D2.opcode ≠ .fast .ecall) (hecall4 : D4.opcode ≠ .fast .ecall) {act2 act4 : Act σ τ Long}
    (hact2 : D2.opcode.action D2 pc env2.mmu env2.code = some act2)
    (hact4 : D4.opcode.action D4 pc env4.mmu env4.code = some act4) {h : Hart σ τ}
    (hsame : SameEnd op pc (act2 h.toMachine) (act4 h.toMachine)) (insns : Int) :
    SameStep op pc (dispatch env2 insns D2 pc h).clear_x0 (dispatch env4 insns D4 pc h).clear_x0 := by
  unfold dispatch
  rw [if_neg hecall2, if_neg hecall4, hact2, hact4]
  dsimp only
  cases hrun2 : act2 h.toMachine with
  | error m2 =>
    rw [hrun2] at hsame
    cases hrun4 : act4 h.toMachine with
    | error m4 =>
      rw [hrun4] at hsame
      cases hsame
      exact .crash m2
    | ok r4 =>
      rw [hrun4] at hsame
      cases hsame
  | ok r2 =>
    rw [hrun2] at hsame
    cases hrun4 : act4 h.toMachine with
    | error m4 =>
      rw [hrun4] at hsame
      cases hsame
    | ok r4 =>
      rw [hrun4] at hsame
      cases hsame with
      | ok hshort => exact .next hshort

theorem insn_model_xpr {mmu : Mmu σ} {pc : Long} {m m' : Machine σ τ} {u : Unit}
    (h : insn_model mmu pc m = .ok (u, m')) : m'.xpr = m.xpr := by
  unfold insn_model at h
  dsimp only at h
  split at h
  · cases h
    rfl
  · cases h

/-- **One iteration**, under every memory model. -/
theorem iteration_same {op : COp} {b : BitVec 32} (hlegal : Legal (b.setWidth 16) op) {f : Full}
    (hf : f ∈ expandsTo op) {order : List FastOp} (hop : fullOp f ∈ order) (rest : List Entry)
    {w : BitVec 32} (hw : w ∈ expand (b.setWidth 16) op) {pc : Long} {env2 env4 : Env σ τ}
    (hmmu : env2.mmu = env4.mmu)
    (hcode2 : env2.code.at pc = some (decoder (rvcChain ++ fastChain order ++ rest) b))
    (hcode4 : env4.code.at pc = some (decoder (rvcChain ++ fastChain order ++ rest) w)) {h : Hart σ τ}
    (h0 : h.xpr 0 = 0) (heven : EvenTarget (b.setWidth 16) h.xpr op) (insns : Int) :
    SameStep op pc (iteration env2 insns pc h) (iteration env4 insns pc h) := by
  have hp := doubles hlegal hf hop rest hw
  cases hmodel : insn_model env4.mmu pc h.toMachine with
  | error m =>
    unfold iteration
    rw [hmmu, hmodel]
    exact .crash m
  | ok r =>
    obtain ⟨⟨⟩, m⟩ := r
    have hxpr := insn_model_xpr hmodel
    obtain ⟨act2, hact2⟩ := Option.isSome_iff_exists.mp ((fast_isSome_iff (τ := τ) op
      (decoder (rvcChain ++ fastChain order ++ rest) b) pc env2.mmu).mpr (Option.isSome_iff_exists.mpr ⟨f, hf⟩))
    obtain ⟨act4, hact4⟩ := Option.isSome_iff_exists.mp (full_isSome (τ := τ) hf
      (decoder (rvcChain ++ fastChain order ++ rest) w) pc env4.mmu env4.code)
    have hline2 : (decoder (rvcChain ++ fastChain order ++ rest) b).opcode.action
        (decoder (rvcChain ++ fastChain order ++ rest) b) pc env2.mmu env2.code = some act2 := by
      rw [hp.opcode2]
      exact hact2
    have hline4 : (decoder (rvcChain ++ fastChain order ++ rest) w).opcode.action
        (decoder (rvcChain ++ fastChain order ++ rest) w) pc env4.mmu env4.code = some act4 := by
      rw [hp.opcode4]
      exact hact4
    rw [iteration_eq env2 (by rw [hmmu]; exact hmodel) hcode2, iteration_eq env4 hmodel hcode4]
    refine dispatch_same (by rw [hp.opcode2]; exact Opcode.noConfusion)
      (by rw [hp.opcode4]; exact fun h => fullOp_ne_ecall f (Opcode.fast.inj h)) hline2 hline4 ?_ insns
    rw [hmmu] at hline2
    rw [← hxpr] at h0 heven
    exact lines_same hf hp pc env4.mmu env2.code env4.code h0 heven hline2 hline4

/-- The next state of an iteration, from the end of its line. -/
theorem iteration_line {env : Env Unit τ} (hmmu : env.mmu = mmu_t) {pc pc' : Long} {D : Insn}
    (hcode : env.code.at pc = some D) (hecall : D.opcode ≠ .fast .ecall) {act : Act Unit τ Long}
    (hact : D.opcode.action D pc mmu_t env.code = some act) {h : Hart Unit τ} {m' : Machine Unit τ}
    (hrun : act (h.log (.insn_model pc)) = .ok (pc', m')) (insns : Int) :
    ∃ h', iteration env insns pc h = .next pc' h' ∧ h'.arch pc' = cleared pc' m' := by
  refine ⟨((h.setMachine (h.log (.insn_model pc))).setMachine m').clear_x0, ?_, rfl⟩
  have hmodel : insn_model env.mmu pc h.toMachine = .ok ((), h.log (.insn_model pc)) := by
    rw [hmmu]
    rfl
  rw [iteration_eq env hmodel hcode, dispatch_fast env hecall (by rw [hmmu]; exact hact) hrun]
  rfl

/-- **Compressed instructions.** One iteration on a legal compressed instruction that has a line
leaves the registers, the memory and the pc of one on its expansion, up to its length, exactly if
it is not a jump to an odd address: under every memory model if the target is even, and under the
base class only then. -/
theorem expansion_iff {op : COp} {b : BitVec 32} (hlegal : Legal (b.setWidth 16) op)
    (order : List FastOp) (horder : ∀ f ∈ expandsTo op, fullOp f ∈ order) (rest : List Entry) (pc : Long)
    (hfast : (op.fast (decoder (rvcChain ++ fastChain order ++ rest) b) pc mmu_t :
      Option (Act Unit τ Long)).isSome) :
    ∃ w, expand (b.setWidth 16) op = some w ∧
      (∀ {σ : Type} (env2 env4 : Env σ τ), env2.mmu = env4.mmu →
        env2.code.at pc = some (decoder (rvcChain ++ fastChain order ++ rest) b) →
        env4.code.at pc = some (decoder (rvcChain ++ fastChain order ++ rest) w) →
        ∀ (h : Hart σ τ) (insns : Int), h.xpr 0 = 0 → EvenTarget (b.setWidth 16) h.xpr op →
          SameStep op pc (iteration env2 insns pc h) (iteration env4 insns pc h)) ∧
      ∀ env2 env4 : Env Unit τ, env2.mmu = mmu_t → env4.mmu = mmu_t →
        env2.code.at pc = some (decoder (rvcChain ++ fastChain order ++ rest) b) →
        env4.code.at pc = some (decoder (rvcChain ++ fastChain order ++ rest) w) →
        ∀ (h : Hart Unit τ) (insns : Int), h.xpr 0 = 0 →
          ∃ pc2 h2 pc4 h4, iteration env2 insns pc h = .next pc2 h2 ∧
            iteration env4 insns pc h = .next pc4 h4 ∧
            (Shortened op pc (h2.arch pc2) (h4.arch pc4) ↔ EvenTarget (b.setWidth 16) h.xpr op) := by
  obtain ⟨f, hf⟩ := Option.isSome_iff_exists.mp ((fast_isSome_iff op _ pc mmu_t).mp hfast)
  have hw : expand (b.setWidth 16) op = some _ := congrArg (Option.map _) hf
  refine ⟨_, hw, ?_, ?_⟩
  · intro σ env2 env4 hmmu hcode2 hcode4 h insns h0 heven
    exact iteration_same hlegal hf (horder f hf) rest hw hmmu hcode2 hcode4 h0 heven insns
  intro env2 env4 hmmu2 hmmu4 hcode2 hcode4 h insns h0
  obtain ⟨act2, act4, pc2, m2, pc4, m4, hact2, hact4, hrun2, hrun4, hiff⟩ :=
    ends_iff hlegal hf (horder f hf) rest hw pc env2.code env4.code (m := h.log (.insn_model pc)) h0
  have hp := doubles hlegal hf (horder f hf) rest hw
  obtain ⟨h2, hit2, harch2⟩ := iteration_line hmmu2 hcode2 (by rw [hp.opcode2]; exact Opcode.noConfusion)
    hact2 hrun2 insns
  obtain ⟨h4, hit4, harch4⟩ := iteration_line hmmu4 hcode4
    (by rw [hp.opcode4]; exact fun h => fullOp_ne_ecall f (Opcode.fast.inj h)) hact4 hrun4 insns
  refine ⟨pc2, h2, pc4, h4, hit2, hit4, ?_⟩
  rw [harch2, harch4]
  exact hiff

/-! ### Runs -/

/-- A one-instruction text at 0x1000. -/
def oneInsn (b : BitVec 32) : Env Unit Unit :=
  { twoEcalls with
    code := ⟨0x1000, 0x1004, 0x1000, [decoder (rvcChain ++ fastChain listedFast ++ []) b, .ofCode .ZERO]⟩ }

def jumpHart (target : Long) : Hart Unit Unit :=
  { freshHart 0x1000 with xpr := fun r => if r = 5 then target else 0 }

/-- `c.jr x5` to an even address goes where `jalr x0, 0(x5)` goes. -/
theorem expansion_c_jr : expand 0x8282#16 .c_jr = some 0x28067#32 ∧
    ∃ pc2 h2 pc4 h4, iteration (oneInsn 0x8282#32) 0 0x1000 (jumpHart 0x2000) = .next pc2 h2 ∧
      iteration (oneInsn 0x28067#32) 0 0x1000 (jumpHart 0x2000) = .next pc4 h4 ∧
      Shortened .c_jr 0x1000 (h2.arch pc2) (h4.arch pc4) := by
  have hlegal : Legal ((0x8282#32).setWidth 16) .c_jr := by
    unfold Legal
    decide
  obtain ⟨w, hw, -, hall⟩ := expansion_iff hlegal listedFast (by decide) [] 0x1000 rfl
  have hexpand : expand 0x8282#16 .c_jr = some 0x28067#32 := by decide
  obtain rfl : w = 0x28067#32 := Option.some.inj (hw.symm.trans hexpand)
  obtain ⟨pc2, h2, pc4, h4, hit2, hit4, hiff⟩ := hall (oneInsn 0x8282#32) (oneInsn 0x28067#32) rfl rfl rfl rfl
    (jumpHart 0x2000) 0 rfl
  exact ⟨hexpand, pc2, h2, pc4, h4, hit2, hit4, hiff.mpr (by unfold EvenTarget; decide)⟩

/-- `c.jr x5` to an odd address keeps bit 0, `jalr x0, 0(x5)` clears it. -/
theorem c_jr_odd : expand 0x8282#16 .c_jr = some 0x28067#32 ∧
    ∃ h2 h4, iteration (oneInsn 0x8282#32) 0 0x1000 (jumpHart 0x2001) = .next 0x2001 h2 ∧
      iteration (oneInsn 0x28067#32) 0 0x1000 (jumpHart 0x2001) = .next 0x2000 h4 ∧
      ¬ Shortened .c_jr 0x1000 (h2.arch 0x2001) (h4.arch 0x2000) :=
  ⟨by decide, _, _, rfl, rfl, fun h => absurd h.parity (by decide)⟩

end Cavatools.Uspike
