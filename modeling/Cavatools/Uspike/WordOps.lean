import Cavatools.Riscv.Word
import Cavatools.Uspike.Rv64iStep

/-!
# The word instructions of RV.fast

Each line is a C++ expression of type `int32_t` or `uint32_t` that is stored
in a 64-bit register. The additions, subtractions and arithmetic shifts are
`int32_t` and are sign extended; the logical shifts are `uint32_t` and are
zero extended, and the register shifts take all 32 bits of the amount. The
manual sign-extends every result, and takes five bits of an amount.

The first section decodes: a word instruction, full-size or compressed, has a
descriptor with the operands and the immediate of the manual (`WordDecoded`,
`word_decoded`). The second runs the lines. `wordComputed` is what the
expression of a line is for two operands, and it has no value where C++ gives
it none, for an amount of 32 or more; every line computes that from its two
operands and writes it (`word_line`), and an action that does so leaves the
value that is right exactly if its expression is (`compute_iff`).

What remains is arithmetic on two words. `WordRight` is the condition for each
instruction: bit 31 of an unsigned result is clear, and the amount of a
register shift is below 32. `wordComputed_iff` compares the expression with
the manual's result, where a zero extension is the sign extension of a word
exactly if its top bit is clear (`ofUint32_eq_iff`). `word_iff` is the result,
exact over all operands of every word instruction.
-/

namespace Cavatools.Uspike

open Riscv

/-! ## The decoder -/

def wordOp : Word → Opcode
  | .addiw => .fast .addiw | .slliw => .fast .slliw | .srliw => .fast .srliw | .sraiw => .fast .sraiw
  | .addw => .fast .addw | .subw => .fast .subw
  | .sllw => .fast .sllw | .srlw => .fast .srlw | .sraw => .fast .sraw
  | .c_addiw => .c .c_addiw | .c_addw => .c .c_addw | .c_subw => .c .c_subw

/-- The opcode of a full-size one. -/
def wordFull (i : Word) : Option FastOp :=
  match wordOp i with
  | .fast op => some op
  | _ => none

def wordLen (i : Word) : Nat := if (wordFull i).isSome then 4 else 2

/-- The descriptor of `i` as the decoder builds it, in the terms of the manual. -/
structure WordDecoded (i : Word) (w : BitVec 32) (D : Insn) : Prop where
  opcode : D.opcode = wordOp i
  rd : D.rd = (i.dest w).setWidth 8
  rs1 : D.rs1 = (i.src1 w).setWidth 8
  rs2 : i.usesReg = true → D.rs2 = (i.src2 w).setWidth 8
  imm : i.usesReg = false → D.immed = i.imm w

theorem wordFull_listed : ∀ i, ∀ op ∈ wordFull i, op ∈ listedFast ∧ (fastEntry op).isSome := by
  intro i
  cases i <;> decide

theorem word_test {i : Word} {op : FastOp} (hop : op ∈ wordFull i) {e : Entry} (he : e ∈ fastEntry op)
    {w : BitVec 32} (h : i.Encodes w) : e.test w = true := by
  rw [test_iff_fixed _ (by rw [width_fastEntry _ _ he])]
  cases i with
  | addiw => cases hop; cases he; exact (fixed_iLine _ _ w).mpr h
  | slliw | srliw | sraiw => cases hop; cases he; exact (fixed_shiftwLine _ _ w).mpr h
  | addw | subw | sllw | srlw | sraw => cases hop; cases he; exact (fixed_rLine _ _ _ w).mpr h
  | c_addiw | c_addw | c_subw => cases hop

/-- The operand bytes and the form of the full-size templates. -/
theorem wordFull_bytes : ∀ i, ∀ op ∈ wordFull i, ∀ e ∈ fastEntry op,
    (crunch e.ty e.bits).bigimm = false ∧
    (crunch e.ty e.bits).registers 0 = .x 7 5 0 ∧
    (crunch e.ty e.bits).registers 1 = .x 15 5 0 ∧
    (i.usesReg = true → (crunch e.ty e.bits).registers 2 = .x 20 5 0) ∧
    (crunch e.ty e.bits).registers 3 = .NOREG ∧
    (i.usesReg = false → (crunch e.ty e.bits).immed ≠ []) := by
  intro i
  cases i <;> decide

/-- The manual's immediate of a full-size one, as data. -/
def wordPieces (i : Word) : Bool × List (Nat × Nat) × Nat :=
  if i = .addiw then (true, [(31, 20)], 0) else (false, [(24, 20)], 0)

theorem wordFull_place : ∀ i, ∀ op ∈ wordFull i, ∀ e ∈ fastEntry op, i.usesReg = false →
    WellFormed e.bits ∧ ∀ k < 13, immSource e.bits k
      = immPlace (wordPieces i).1 (wordPieces i).2.1 (wordPieces i).2.2 k := by
  intro i
  cases i <;> decide

theorem wordPieces_fit (i : Word) : 0 < immLen (wordPieces i).2.1 (wordPieces i).2.2 ∧
    immLen (wordPieces i).2.1 (wordPieces i).2.2 ≤ 13 ∧
    ((wordPieces i).1 = true ∨ immLen (wordPieces i).2.1 (wordPieces i).2.2 ≤ 12) := by
  cases i <;> decide

theorem word_imm {i : Word} (hfull : (wordFull i).isSome) (hreg : i.usesReg = false) (w : BitVec 32) :
    i.imm w = immOf (wordPieces i).1 (wordPieces i).2.1 (wordPieces i).2.2 w := by
  cases i <;> first | cases hreg; done | rfl | cases hfull

/-- The full-size ones, by the fields of their formats. -/
theorem word_decoded_full {i : Word} {op : FastOp} (hop : op ∈ wordFull i) {e : Entry}
    (he : e ∈ fastEntry op) (w : BitVec 32) : WordDecoded i w (e.build w) := by
  obtain ⟨hbig, h0, h1, h2, h3, himm⟩ := wordFull_bytes i op hop e he
  have hfield {k : Fin 4} {lo : Nat} (hlo : lo + 5 ≤ 32)
      (hk : (crunch e.ty e.bits).registers k = .x lo 5 0) :
      e.regByte w k = (w.extractLsb' lo 5).setWidth 8 := by
    rw [Entry.regByte, hk, field_byte hlo]
  have hdest : i.dest w = rd w ∧ i.src1 w = rs1 w ∧ i.src2 w = rs2 w := by
    cases i <;> first | exact ⟨rfl, rfl, rfl⟩ | cases hop
  refine ⟨?_, ?_, ?_, ?_, ?_⟩
  · rw [Entry.build_opcode]
    cases i <;> cases hop <;> cases he <;> rfl
  · rw [Entry.build_rd, hfield (by omega) h0, hdest.1]
    rfl
  · rw [Entry.build_rs1 _ _ hbig, hfield (by omega) h1, hdest.2.1]
    rfl
  · intro hreg
    rw [Entry.build_rs2 _ _ hbig, hfield (by omega) (h2 hreg), hdest.2.2]
    rfl
  · intro hreg
    obtain ⟨hwf, hplace⟩ := wordFull_place i op hop e he hreg
    obtain ⟨hpos, hlen, hsign⟩ := wordPieces_fit i
    rw [word_imm (by rw [Option.mem_def.mp hop]; rfl) hreg]
    exact Entry.immed_eq_immOf e w hwf hbig h3 (himm hreg) hpos hlen hsign hplace

/-- The compressed ones are what `rvc_rd` and its like say. -/
theorem word_decoded_rvc {i : Word} {op : COp} (hop : wordOp i = .c op) (w : BitVec 32) :
    WordDecoded i w ((rvcEntry op).build w) := by
  have hrd := rvc_rd op w
  have hrs1 := rvc_rs1 op w
  cases i with
  | c_addiw =>
    cases hop
    exact ⟨rfl, hrd, hrs1, fun h => (by cases h), fun _ => rvc_immed rfl⟩
  | c_addw =>
    cases hop
    have hrs2 := rvc_rs2 (show COp.c_addw ≠ .c_lui by decide) w
    exact ⟨rfl, hrd, hrs1, fun _ => hrs2, fun h => (by cases h)⟩
  | c_subw =>
    cases hop
    have hrs2 := rvc_rs2 (show COp.c_subw ≠ .c_lui by decide) w
    exact ⟨rfl, hrd, hrs1, fun _ => hrs2, fun h => (by cases h)⟩
  | _ => cases hop

/-- **The descriptor** of a word instruction, whatever else the decoder lists. -/
theorem word_decoded {i : Word} {w : BitVec 32} (henc : i.Encodes w) {order : List FastOp}
    (horder : ∀ op ∈ wordFull i, op ∈ order) (rest : List Entry) :
    WordDecoded i w (decoder (rvcChain ++ fastChain order ++ rest) w) := by
  have hfull {op : FastOp} (hop : op ∈ wordFull i) :
      WordDecoded i w (decoder (rvcChain ++ fastChain order ++ rest) w) := by
    obtain ⟨e, he⟩ := Option.isSome_iff_exists.mp (wordFull_listed i op hop).2
    rw [fast_first he (word_test hop he henc) (horder op hop)]
    exact word_decoded_full hop he w
  have hrvc {op : COp} (hop : wordOp i = .c op) (hlegal : Legal (w.setWidth 16) op) :
      WordDecoded i w (decoder (rvcChain ++ fastChain order ++ rest) w) := by
    rw [List.append_assoc, rvc_first hlegal]
    exact word_decoded_rvc hop w
  cases i with
  | c_addiw => exact hrvc rfl henc
  | c_addw => exact hrvc rfl henc
  | c_subw => exact hrvc rfl henc
  | _ => exact hfull rfl

/-! ## The lines -/

/-- A zero extension is the sign extension of a word whose top bit is clear. -/
theorem ofUint32_eq_iff (v : BitVec 32) : ofUint32 v = v.signExtend 64 ↔ v.getLsbD 31 = false := by
  rw [← BitVec.msb_eq_getLsbD_last v]
  constructor
  · intro h
    have hbit := congrArg (fun u => u.getLsbD 63) h
    simp only [ofUint32, BitVec.getLsbD_setWidth, BitVec.getLsbD_signExtend] at hbit
    simpa using hbit.symm
  · intro h
    exact (BitVec.signExtend_eq_setWidth_of_msb_false h).symm

theorem getLsbD_shl (a : Long) {n : Nat} (hn : n < 32) :
    (a.setWidth 32 <<< n).getLsbD 31 = a.getLsbD (31 - n) := by
  simp [show ¬ 31 < n by omega]

theorem getLsbD_shr (a : Long) (n : Nat) :
    (a.setWidth 32 >>> n).getLsbD 31 = false ↔ (n = 0 → a.getLsbD 31 = false) := by
  rw [BitVec.getLsbD_ushiftRight, BitVec.getLsbD_setWidth]
  by_cases hn : n = 0
  · simp [hn]
  · simp [hn, show ¬ n + 31 < 32 by omega]

/-- An amount below 32 is its own low five bits. -/
theorem setWidth_amount {b : Long} (h : b.toNat < 32) : (b.setWidth 5).toNat = b.toNat := by
  rw [BitVec.toNat_setWidth, Nat.mod_eq_of_lt h]

theorem toNat_ofUint32 (v : BitVec 32) : (ofUint32 v).toNat = v.toNat :=
  BitVec.toNat_setWidth_of_le (by omega)

/-- A negative amount is no small one. -/
theorem toNat_ofInt32_lt (v : BitVec 32) : (ofInt32 v).toNat < 32 ↔ v.toNat < 32 := by
  cases hmsb : v.msb with
  | false =>
    rw [ofInt32, BitVec.signExtend_eq_setWidth_of_msb_false hmsb, BitVec.toNat_setWidth_of_le (by omega)]
  | true =>
    have hv : 2 ^ 31 ≤ v.toNat := BitVec.toNat_ge_of_msb_true hmsb
    have hext : (ofInt32 v).msb = true := by
      rw [ofInt32, BitVec.msb_signExtend, hmsb]
      rfl
    have hlong := BitVec.toNat_ge_of_msb_true hext
    omega

theorem toNat_ofInt32 {v : BitVec 32} (h : v.toNat < 32) : (ofInt32 v).toNat = v.toNat := by
  have hmsb : v.msb = false := BitVec.msb_eq_false_iff_two_mul_lt.mpr (by omega)
  rw [ofInt32, BitVec.signExtend_eq_setWidth_of_msb_false hmsb, BitVec.toNat_setWidth_of_le (by omega)]

/-- What the expression of a line is for two operands, if C++ gives it a value. -/
def wordComputed (a b : Long) : Word → Option Long
  | .addiw | .addw | .c_addiw | .c_addw => some (ofInt32 (int32_t a + int32_t b))
  | .subw | .c_subw => some (ofInt32 (int32_t a - int32_t b))
  | .slliw => if b.toNat < 32 then some (ofUint32 (uint32_t a <<< b.toNat)) else none
  | .srliw => if b.toNat < 32 then some (ofUint32 (uint32_t a >>> b.toNat)) else none
  | .sraiw => if b.toNat < 32 then some (ofInt32 ((int32_t a).sshiftRight b.toNat)) else none
  | .sllw =>
    let n := ofUint32 (uint32_t b)
    if n.toNat < 32 then some (ofUint32 (uint32_t a <<< n.toNat)) else none
  | .srlw =>
    let n := ofUint32 (uint32_t b)
    if n.toNat < 32 then some (ofUint32 (uint32_t a >>> n.toNat)) else none
  | .sraw =>
    let n := ofInt32 (int32_t b)
    if n.toNat < 32 then some (ofInt32 ((int32_t a).sshiftRight n.toNat)) else none

/-- The C++ shifts of a word, with `f` what they compute for an amount below 32. -/
def shiftBy {σ τ : Type} (f : BitVec 32 → Nat → BitVec 32) (a : BitVec 32) (n : Long) : Act σ τ (BitVec 32) :=
  if n.toNat < 32 then pure (f a n.toNat) else crash

/-- How an action ends that only computes. -/
def Computes {σ τ : Type} (e : Act σ τ Long) (m : Machine σ τ) : Option Long → Prop
  | some v => e m = .ok (v, m)
  | none => e m = .error m

section
variable {σ τ : Type} {i : Word} {w : BitVec 32} {D : Insn} (hD : WordDecoded i w D) (pc : Long)
  (mmu : Mmu σ) (code : InsnSpace) (m : Machine σ τ)

/-- The machine after a line has written `v` to the destination. -/
def wrote (i : Word) (w : BitVec 32) (v : Long) (m : Machine σ τ) : Machine σ τ :=
  { m with xpr := Function.update m.xpr (i.dest w) v }

theorem wrote_inj {v v' : Long} : wrote i w v m = wrote i w v' m ↔ v = v' := by
  constructor
  · intro h
    have hx := congrArg (fun m => m.xpr (i.dest w)) h
    simpa [wrote] using hx
  · intro h
    rw [h]

include hD

/-- A line writes a value exactly if that is what its expression computes. -/
theorem compute_iff {len : Nat} {e : Act σ τ Long} {c : Option Long} (he : Computes e m c) (v : Long) :
    compute D pc len e m = .ok (pc + BitVec.ofNat 64 len, wrote i w v m) ↔ c = some v := by
  cases c with
  | some u =>
    have hrun : compute D pc len e m = .ok (pc + BitVec.ofNat 64 len, wrote i w u m) := by
      unfold compute
      rw [bind_ok he, bind_ok (wrd_ok hD.rd u m)]
      rfl
    rw [hrun, Except.ok.injEq, Prod.mk.injEq, wrote_inj, Option.some_inj, and_iff_right rfl]
  | none =>
    have hrun : compute D pc len e m = .error m := by
      show (e m).bind _ = _
      rw [show e m = .error m from he]
      rfl
    rw [hrun]
    exact ⟨fun h => (by cases h), fun h => (by cases h)⟩

/-- The second operand as the line reads it. -/
def r2OrImm (i : Word) (D : Insn) : Act σ τ Long := if i.usesReg then r2 D else return imm D

theorem r2OrImm_ok : r2OrImm i D m = .ok (i.operand w m.xpr, m) := by
  unfold r2OrImm Word.operand
  cases hreg : i.usesReg with
  | true =>
    rw [if_pos rfl, if_pos rfl]
    exact r2_ok (hD.rs2 hreg) m
  | false =>
    rw [if_neg (by simp), if_neg (by simp), ← hD.imm hreg]
    rfl

/-- The shifts: `amount` is the type that the amount is converted to. -/
theorem shift_computes (f : BitVec 32 → Nat → BitVec 32) (ext : BitVec 32 → Long) (amount : Long → Long) :
    Computes (do return ext (← shiftBy f (uint32_t (← r1 D)) (amount (← r2OrImm i D)))) m
      (if (amount (i.operand w m.xpr)).toNat < 32 then
        some (ext (f (uint32_t (m.xpr (i.src1 w))) (amount (i.operand w m.xpr)).toNat))
      else none) := by
  have hrun : (do return ext (← shiftBy f (uint32_t (← r1 D)) (amount (← r2OrImm i D))) : Act σ τ Long) m
      = (do return ext (← shiftBy f (uint32_t (m.xpr (i.src1 w))) (amount (i.operand w m.xpr))) :
          Act σ τ Long) m := (bind_ok (r1_ok hD.rs1 m)).trans (bind_ok (r2OrImm_ok hD m))
  split
  case isTrue hlt =>
    refine hrun.trans ?_
    rw [shiftBy, if_pos hlt]
    rfl
  case isFalse hlt =>
    refine hrun.trans ?_
    rw [shiftBy, if_neg hlt]
    rfl

/-- Every line computes from its two operands. -/
theorem word_line : ∃ e : Act σ τ Long,
    D.opcode.action D pc mmu code = some (compute D pc (wordLen i) e) ∧
      Computes e m (wordComputed (m.xpr (i.src1 w)) (i.operand w m.xpr) i) := by
  have hpure (f : Long → Long → Long) : Computes (do return f (← r1 D) (← r2OrImm i D)) m
      (some (f (m.xpr (i.src1 w)) (i.operand w m.xpr))) :=
    (bind_ok (r1_ok hD.rs1 m)).trans (bind_ok (r2OrImm_ok hD m))
  rw [hD.opcode]
  cases i with
  | addiw | addw | c_addiw | c_addw => exact ⟨_, rfl, hpure fun a b => ofInt32 (int32_t a + int32_t b)⟩
  | subw | c_subw => exact ⟨_, rfl, hpure fun a b => ofInt32 (int32_t a - int32_t b)⟩
  | slliw => exact ⟨_, rfl, shift_computes hD m (fun a n => a <<< n) ofUint32 id⟩
  | srliw => exact ⟨_, rfl, shift_computes hD m (fun a n => a >>> n) ofUint32 id⟩
  | sraiw => exact ⟨_, rfl, shift_computes hD m BitVec.sshiftRight ofInt32 id⟩
  | sllw => exact ⟨_, rfl, shift_computes hD m (fun a n => a <<< n) ofUint32 fun b => ofUint32 (uint32_t b)⟩
  | srlw => exact ⟨_, rfl, shift_computes hD m (fun a n => a >>> n) ofUint32 fun b => ofUint32 (uint32_t b)⟩
  | sraw => exact ⟨_, rfl, shift_computes hD m BitVec.sshiftRight ofInt32 fun b => ofInt32 (int32_t b)⟩

end

/-! ## When a line is right -/

/-- The operands for which a line writes what the manual defines: bit 31 of an unsigned
result is clear, and a register shift has an amount below 32. -/
def WordRight (a b : Long) : Word → Prop
  | .slliw => a.getLsbD (31 - b.toNat) = false
  | .srliw => b = 0 → a.getLsbD 31 = false
  | .sllw => (uint32_t b).toNat < 32 ∧ a.getLsbD (31 - (uint32_t b).toNat) = false
  | .srlw => (uint32_t b).toNat < 32 ∧ (uint32_t b = 0 → a.getLsbD 31 = false)
  | .sraw => (uint32_t b).toNat < 32
  | _ => True

/-- A shift is right if its amount is below 32 and what it leaves is. -/
theorem shifted_iff {n : Nat} {v r : Long} {P : Prop} (h : n < 32 → (v = r ↔ P)) :
    (if n < 32 then some v else none) = some r ↔ n < 32 ∧ P := by
  rw [Option.ite_none_right_eq_some, Option.some_inj]
  exact and_congr_right h

theorem shl_right_iff (a : Long) {n m : Nat} (hn : n < 32) (hm : m = n) :
    ofUint32 (uint32_t a <<< n) = (a.setWidth 32 <<< m).signExtend 64 ↔ a.getLsbD (31 - n) = false := by
  rw [hm, uint32_t, ofUint32_eq_iff, getLsbD_shl a hn]

theorem shr_right_iff (a : Long) {n m : Nat} (hm : m = n) :
    ofUint32 (uint32_t a >>> n) = (a.setWidth 32 >>> m).signExtend 64 ↔ (n = 0 → a.getLsbD 31 = false) := by
  rw [hm, uint32_t, ofUint32_eq_iff, getLsbD_shr a n]

theorem sar_right_iff (a : Long) {n m : Nat} (hm : m = n) :
    ofInt32 ((int32_t a).sshiftRight n) = ((a.setWidth 32).sshiftRight m).signExtend 64 ↔ True := by
  rw [hm]
  exact iff_of_true rfl trivial

/-- **The expression** of a line is what the manual writes exactly for the operands it is right for;
the cases are the instructions. -/
theorem wordComputed_iff {a b : Long} {i : Word}
    (hamount : i = .slliw ∨ i = .srliw ∨ i = .sraiw → b.toNat < 32) :
    wordComputed a b i = some ((i.result a b).signExtend 64) ↔ WordRight a b i := by
  -- the five bits the manual takes of an amount, where the code takes all of them
  have hreg (h : (uint32_t b).toNat < 32) : (b.setWidth 5).toNat = (uint32_t b).toNat := by
    rw [← BitVec.setWidth_setWidth_of_le b (show 5 ≤ 32 by omega), BitVec.toNat_setWidth]
    exact Nat.mod_eq_of_lt h
  cases i with
  | addiw | addw | subw | c_addiw | c_addw | c_subw => exact iff_of_true rfl trivial
  | slliw =>
    have hlt := hamount (Or.inl rfl)
    refine (shifted_iff fun hn => shl_right_iff a hn (setWidth_amount hn)).trans ?_
    exact and_iff_right hlt
  | srliw =>
    have hlt := hamount (Or.inr (Or.inl rfl))
    refine (shifted_iff fun hn => shr_right_iff a (setWidth_amount hn)).trans ?_
    rw [and_iff_right hlt, WordRight, ← BitVec.toNat_inj]
    rfl
  | sraiw =>
    have hlt := hamount (Or.inr (Or.inr rfl))
    refine (shifted_iff fun hn => sar_right_iff a (setWidth_amount hn)).trans ?_
    exact iff_of_true ⟨hlt, trivial⟩ trivial
  | sllw =>
    have hn := toNat_ofUint32 (uint32_t b)
    refine (shifted_iff fun h => shl_right_iff a h ?_).trans ?_
    · rw [hn] at h ⊢
      exact hreg h
    · rw [hn]
      rfl
  | srlw =>
    have hn := toNat_ofUint32 (uint32_t b)
    refine (shifted_iff fun h => shr_right_iff a ?_).trans ?_
    · rw [hn] at h ⊢
      exact hreg h
    · rw [hn, WordRight, ← BitVec.toNat_inj]
      rfl
  | sraw =>
    refine (shifted_iff fun h => sar_right_iff a ?_).trans ?_
    · have hlt := (toNat_ofInt32_lt (int32_t b)).mp h
      rw [toNat_ofInt32 hlt]
      exact hreg hlt
    · rw [and_true, toNat_ofInt32_lt]
      rfl

/-- **The word instructions.** The line of a decoded word instruction writes to `rd` what the
manual defines, and goes on to the next instruction, exactly for the operands of `WordRight`. -/
theorem word_iff {σ τ : Type} {i : Word} {w : BitVec 32} (henc : i.Encodes w) (order : List FastOp)
    (horder : ∀ op ∈ wordFull i, op ∈ order) (rest : List Entry) (pc : Long) (mmu : Mmu σ)
    (code : InsnSpace) (m : Machine σ τ) :
    ∃ act, (decoder (rvcChain ++ fastChain order ++ rest) w).opcode.action
        (decoder (rvcChain ++ fastChain order ++ rest) w) pc mmu code = some act ∧
      (act m = .ok (pc + BitVec.ofNat 64 (wordLen i),
          { m with xpr := Function.update m.xpr (i.dest w) (i.value w m.xpr) }) ↔
        WordRight (m.xpr (i.src1 w)) (i.operand w m.xpr) i) := by
  have hD := word_decoded henc horder rest
  obtain ⟨e, hact, he⟩ := word_line hD pc mmu code m
  have hamount : i = .slliw ∨ i = .srliw ∨ i = .sraiw → (i.operand w m.xpr).toNat < 32 := by
    rintro (rfl | rfl | rfl) <;> exact shamtw_lt w
  exact ⟨_, hact, (compute_iff hD pc m he _).trans (wordComputed_iff hamount)⟩

/-- A machine with the given value in `x6`. -/
def wordMachine (v : Long) : Machine Unit Unit :=
  { xpr := fun r => if r = 6 then v else 0, mem := fun _ => 0, rest := (), mmu := (), trace := [] }

def noText : InsnSpace := ⟨0x1000, 0x1004, 0x1000, []⟩

/-- `srliw x5, x6, 1` of a word with bit 31 set. -/
theorem word_iff_srliw : ∃ act,
    (decoder (rvcChain ++ fastChain listedFast ++ []) 0x0013529b#32).opcode.action
      (decoder (rvcChain ++ fastChain listedFast ++ []) 0x0013529b#32) 0x1000 mmu_t noText = some act ∧
    ∃ m', act (wordMachine 0x80000002) = .ok (0x1004, m') ∧ m'.xpr 5 = 0x40000001 := by
  obtain ⟨act, hact, hiff⟩ := word_iff (i := .srliw) (w := 0x0013529b#32) (by unfold Word.Encodes; decide)
    listedFast (by decide) [] 0x1000 mmu_t noText (wordMachine 0x80000002)
  exact ⟨act, hact, _, hiff.mpr (by unfold WordRight; decide), by decide⟩

/-- `slliw x5, x6, 1` into bit 31: the result is not sign extended. -/
theorem slliw_zero_extends : ∃ act m',
    (decoder (rvcChain ++ fastChain listedFast ++ []) 0x0013129b#32).opcode.action
      (decoder (rvcChain ++ fastChain listedFast ++ []) 0x0013129b#32) 0x1000 mmu_t noText = some act ∧
    act (wordMachine 0x40000000) = .ok (0x1004, m') ∧ m'.xpr 5 = 0x80000000 ∧
    Word.value 0x0013129b#32 .slliw (wordMachine 0x40000000).xpr = 0xffffffff80000000 := by
  refine ⟨_, _, rfl, rfl, ?_, ?_⟩ <;> decide

end Cavatools.Uspike
