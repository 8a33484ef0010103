import Cavatools.Uspike.TemplateLaw
import Cavatools.Uspike.Opcodes
import Cavatools.Riscv.Format

/-!
# Reading the generated decoder

What an entry of the decoder does to a word, in the terms a specification
uses. An entry is generated code: masks, shifts and a constructor. None of
these appears in what is proved about instructions, since the lemmas of this
file replace them once and for all.

- Its test is a conjunction of field equations: every string of digits in the
  template stands in the word at its place (`fixedAt_iff`, `test_iff_fixed`).
- Its operands are fields of the word (`xField_eq_extract`).
- Its immediate takes every bit from one place of the word, or none
  (`immSource`, `getLsbD_evalImmed`). With that it is compared with the
  manual's immediate bit by bit (`immed_eq_immOf`, and `immed_eq_immOf_long`
  for those that are stored in 32 bits).
- The constructor that make_headers picks stores all of them: there are five
  (`build_cases`), and `build_rd` to `build_immed_long` say what the
  descriptor holds whichever it was.

The decoder returns the first entry that matches (`decoder_eq`). Two entries
whose templates fix some bit to different digits never match the same word
(`test_of_conflict`), which is all that first-match order needs:
`Entry.conflict` is decided for pairs of entries, from masks and codes that
are computed once for a table (`clash`).
-/

namespace Cavatools.Uspike

open Riscv (immLen immOf immOf_eq immPlace immPlace_min)

/-! ## Tests as field equations -/

/-- Every 0/1 string of the template stands in the word. -/
def FixedAt (b : BitVec 32) : Template → Prop
  | [] => True
  | .bits (n := n) ds :: t => b.extractLsb' (width t) n = ds ∧ FixedAt b t
  | _ :: t => FixedAt b t

/-- The strings of a template stand in the word exactly if each fixed cell does. The induction is on
the words of the template: one in front of others stands above all of their cells. -/
theorem fixedAt_iff (b : BitVec 32) (t : Template) :
    FixedAt b t ↔ ∀ i d, (cells t)[i]? = some (.fixed d) → b.getLsbD i = d := by
  induction t with
  | nil => simp [FixedAt, cells]
  | cons tok t ih =>
    have htail (h : ∀ i d, (cells (tok :: t))[i]? = some (.fixed d) → b.getLsbD i = d) :
        ∀ i d, (cells t)[i]? = some (.fixed d) → b.getLsbD i = d :=
      fun i d hc => h i d (getElem?_cells_cons tok hc)
    have hskip (hno : ∀ c ∈ tok.cells, ∀ d, c ≠ .fixed d) : FixedAt b t ↔
        ∀ i d, (cells (tok :: t))[i]? = some (.fixed d) → b.getLsbD i = d := by
      rw [ih]
      refine ⟨?_, htail⟩
      intro h i d hc
      unfold cells at hc
      rw [List.getElem?_append] at hc
      split at hc
      · exact h i d hc
      · exact absurd rfl (hno _ (List.mem_of_getElem? hc) d)
    cases tok with
    | bits ds =>
      rename_i n
      unfold FixedAt
      rw [ih]
      constructor
      · rintro ⟨hds, h⟩ i d hc
        unfold cells at hc
        rw [List.getElem?_append] at hc
        split at hc
        · exact h i d hc
        · rename_i hge
          rw [length_cells] at hge hc
          unfold Token.cells at hc
          rw [List.getElem?_map] at hc
          obtain ⟨k, hk, hkd⟩ := Option.map_eq_some_iff.mp hc
          obtain ⟨hlt, rfl⟩ := List.getElem?_eq_some_iff.mp hk
          rw [List.length_range] at hlt
          rw [List.getElem_range, Cell.fixed.injEq] at hkd
          rw [← hkd, ← hds, BitVec.getLsbD_extractLsb']
          simp [hlt, show width t + (i - width t) = i by omega]
      · intro h
        refine ⟨?_, htail h⟩
        apply BitVec.eq_of_getLsbD_eq
        intro k hk
        rw [BitVec.getLsbD_extractLsb']
        simp only [hk, decide_true, Bool.true_and]
        refine h _ _ ?_
        unfold cells
        rw [List.getElem?_append_right (by simp), length_cells, Nat.add_sub_cancel_left,
          Token.cells, List.getElem?_map, List.getElem?_range hk]
        rfl
    | reg r =>
      refine hskip ?_
      intro c hc d
      obtain ⟨i, -, rfl⟩ := List.mem_map.mp hc
      exact Cell.noConfusion
    | imm s first rest =>
      refine hskip ?_
      intro c hc d
      obtain ⟨j, top, rfl⟩ := imm_cells s first rest c hc
      exact Cell.noConfusion

theorem test_iff_fixed (e : Entry) (hw : width e.bits ≤ 32) (b : BitVec 32) :
    e.test b = true ↔ FixedAt b e.bits :=
  (test_iff hw b).trans (fixedAt_iff b e.bits).symm

/-! ## Operands as fields -/

theorem xField_eq_extract (b : BitVec 32) {lo w : Nat} (hw : w ≤ 30) (hb : lo + w ≤ 32) :
    xField b lo w = (b.extractLsb' lo w).setWidth 32 := by
  refine xField_eq_of_bits hw hb ?_
  intro i hi
  simp [hi]

/-- An operand expression as the `int8_t` that the constructors store. -/
theorem eval_x_byte (b : BitVec 32) {lo w off : Nat} (hw : w ≤ 8) (hb : lo + w ≤ 32) :
    ((RegExpr.x lo w off).eval b).setWidth 8
      = (b.extractLsb' lo w).setWidth 8 + BitVec.ofNat 8 off := by
  rw [RegExpr.eval, xField_eq_extract b (by omega) hb, BitVec.setWidth_add _ _ (by omega),
    BitVec.setWidth_setWidth_of_le _ (by omega), BitVec.setWidth_ofNat_of_le (by omega)]

/-! ## Immediates bit by bit -/

def Cell.isImm (j : Nat) : Cell → Bool
  | .imm k _ => k == j
  | _ => false

def Cell.extends (j : Nat) : Cell → Bool
  | .imm k top => top && decide (k < j)
  | _ => false

/-- Where bit `j` of a template's immediate stands in the word, if anywhere. -/
def immSource (t : Template) (j : Nat) : Option Nat :=
  ((cells t).findIdx? (Cell.isImm j)).or ((cells t).findIdx? (Cell.extends j))

/-- **The immediate bit by bit.** Each piece of the generated expression brings the bits of one
range to their positions; the bits above come from the group marked `-`, or are zero. -/
theorem getLsbD_evalImmed (ty : OpType) {t : Template} (hw : WellFormed t) (b : BitVec 32) {j : Nat}
    (hj : j < 32) :
    (evalImmed b (crunch ty t).immed).getLsbD j = (immSource t j).any b.getLsbD := by
  have hwidth : width t ≤ 32 := by rcases hw.total with h | h <;> omega
  rw [Bool.eq_iff_iff, evalImmed_iff ty hw.ranges hwidth]
  simp only [hj, true_and]
  unfold immSource
  cases hown : (cells t).findIdx? (Cell.isImm j) with
  | some i =>
    obtain ⟨hi, hc, -⟩ := List.findIdx?_eq_some_iff_getElem.mp hown
    obtain ⟨top, hcell⟩ : ∃ top, (cells t)[i]? = some (.imm j top) := by
      rw [List.getElem?_eq_getElem hi]
      cases hci : (cells t)[i] with
      | fixed d => rw [hci] at hc; cases hc
      | reg r n => rw [hci] at hc; cases hc
      | imm k top =>
        rw [hci] at hc
        obtain rfl : k = j := by simpa [Cell.isImm] using hc
        exact ⟨top, rfl⟩
    have hmem : j ∈ immPositions t := mem_immPositions_iff.mpr ⟨i, top, hcell⟩
    simp only [Option.some_or, Option.any_some]
    constructor
    · rintro ⟨i', k, top', hc', hb, rfl | ⟨rfl, hlt⟩⟩
      · rw [Nat.zero_add, cell_unique hw.distinct hc' hcell] at hb
        exact hb
      · obtain ⟨tok, hm, hk⟩ := top_cell hc'
        have := hw.signedTop tok hm k hk j hmem
        omega
    · intro hb
      exact ⟨i, j, top, hcell, by rw [Nat.zero_add]; exact hb, Or.inl rfl⟩
  | none =>
    have hnone (i : Nat) (top : Bool) : (cells t)[i]? ≠ some (.imm j top) := by
      intro hc
      have := List.findIdx?_eq_none_iff.mp hown _ (List.mem_of_getElem? hc)
      simp [Cell.isImm] at this
    rw [Option.none_or]
    cases hext : (cells t).findIdx? (Cell.extends j) with
    | none =>
      simp only [Option.any_none, Bool.false_eq_true, iff_false]
      rintro ⟨i, k, top, hc, -, rfl | ⟨rfl, hlt⟩⟩
      · exact hnone i top hc
      · have := List.findIdx?_eq_none_iff.mp hext _ (List.mem_of_getElem? hc)
        simp [Cell.extends, hlt] at this
    | some i =>
      obtain ⟨hi, hc, -⟩ := List.findIdx?_eq_some_iff_getElem.mp hext
      obtain ⟨k, hcell, hkj⟩ : ∃ k, (cells t)[i]? = some (.imm k true) ∧ k < j := by
        rw [List.getElem?_eq_getElem hi]
        cases hci : (cells t)[i] with
        | fixed d => rw [hci] at hc; cases hc
        | reg r n => rw [hci] at hc; cases hc
        | imm k top =>
          rw [hci] at hc
          obtain ⟨rfl, hkj⟩ : top = true ∧ k < j := by simpa [Cell.extends] using hc
          exact ⟨k, rfl, hkj⟩
      simp only [Option.any_some]
      constructor
      · rintro ⟨i', k', top', hc', hb, rfl | ⟨rfl, hlt⟩⟩
        · exact absurd hc' (hnone i' top')
        · -- the only cell that extends is the sign bit
          obtain ⟨tok, hm, hk⟩ := top_cell hc'
          obtain ⟨tok', hm', hk'⟩ := top_cell hcell
          have h1 := hw.signedTop tok hm k' hk k (mem_immPositions_iff.mpr ⟨i, true, hcell⟩)
          have h2 := hw.signedTop tok' hm' k hk' k' (mem_immPositions_iff.mpr ⟨i', true, hc'⟩)
          obtain rfl : k = k' := by omega
          rw [Nat.zero_add, cell_unique hw.distinct hc' hcell] at hb
          exact hb
      · intro hb
        exact ⟨i, k, true, hcell, by rw [Nat.zero_add]; exact hb, Or.inr ⟨rfl, hkj⟩⟩

/-! ## The descriptor an entry builds -/

namespace Entry

variable (e : Entry) (b : BitVec 32)

/-- The byte stored for operand slot `k`. -/
def regByte (k : Fin 4) : BitVec 8 := (((crunch e.ty e.bits).registers k).eval b).setWidth 8

theorem regByte_noreg {k : Fin 4} (h : (crunch e.ty e.bits).registers k = .NOREG) :
    e.regByte b k = NOREG := by
  unfold regByte
  rw [h]
  show (-1#32).setWidth 8 = NOREG
  decide

/-- The five ways make_headers stores an instruction. -/
theorem build_cases :
    ((crunch e.ty e.bits).bigimm = true ∧
      e.build b = reg0imm e.op (e.regByte b 0) (evalImmed b (crunch e.ty e.bits).immed)) ∨
    ((crunch e.ty e.bits).bigimm = false ∧
      ((crunch e.ty e.bits).registers 3 ≠ .NOREG ∧
          e.build b = reg3insn e.op (e.regByte b 0) (e.regByte b 1) (e.regByte b 2) (e.regByte b 3) ∨
        (crunch e.ty e.bits).registers 3 = .NOREG ∧ (crunch e.ty e.bits).immed = [] ∧
          e.build b = reg2insn e.op (e.regByte b 0) (e.regByte b 1) (e.regByte b 2) ∨
        (crunch e.ty e.bits).registers 3 = .NOREG ∧ (crunch e.ty e.bits).immed ≠ [] ∧
          e.build b = reg2imm e.op (e.regByte b 0) (e.regByte b 1) (e.regByte b 2)
            ((evalImmed b (crunch e.ty e.bits).immed).setWidth 16))) := by
  by_cases hbig : (crunch e.ty e.bits).bigimm = true
  · exact Or.inl ⟨hbig, if_pos hbig⟩
  have hnobig : e.build b = _ := if_neg hbig
  refine Or.inr ⟨by simpa using hbig, ?_⟩
  rw [hnobig]
  by_cases h3 : (crunch e.ty e.bits).registers 3 = .NOREG
  · rw [if_neg (fun h => h h3)]
    -- a one-register constructor leaves op.rs2 at NOREG, which is what slot 2 evaluates to
    by_cases himm : (crunch e.ty e.bits).immed = []
    · refine Or.inr (Or.inl ⟨h3, himm, ?_⟩)
      rw [if_pos himm]
      by_cases h2 : (crunch e.ty e.bits).registers 2 = .NOREG
      · rw [if_neg (fun h => h h2), regByte_noreg e b h2]
        rfl
      · rw [if_pos h2]
        rfl
    · refine Or.inr (Or.inr ⟨h3, himm, ?_⟩)
      rw [if_neg himm]
      by_cases h2 : (crunch e.ty e.bits).registers 2 = .NOREG
      · rw [if_neg (fun h => h h2), regByte_noreg e b h2]
        rfl
      · rw [if_pos h2]
        rfl
  · exact Or.inl ⟨h3, if_pos h3⟩

@[simp] theorem build_opcode : (e.build b).opcode = e.op := by
  rcases e.build_cases b with ⟨-, h⟩ | ⟨-, ⟨-, h⟩ | ⟨-, -, h⟩ | ⟨-, -, h⟩⟩ <;> rw [h] <;> rfl

@[simp] theorem build_rd : (e.build b).rd = e.regByte b 0 := by
  rcases e.build_cases b with ⟨-, h⟩ | ⟨-, ⟨-, h⟩ | ⟨-, -, h⟩ | ⟨-, -, h⟩⟩ <;> rw [h] <;> rfl

theorem build_rs1 (hbig : (crunch e.ty e.bits).bigimm = false) : (e.build b).rs1 = e.regByte b 1 := by
  rcases e.build_cases b with ⟨h', -⟩ | ⟨-, ⟨-, h⟩ | ⟨-, -, h⟩ | ⟨-, -, h⟩⟩
  · rw [hbig] at h'
    cases h'
  all_goals
    rw [h]
    rfl

theorem build_rs2 (hbig : (crunch e.ty e.bits).bigimm = false) : (e.build b).rs2 = e.regByte b 2 := by
  rcases e.build_cases b with ⟨h', -⟩ | ⟨-, ⟨-, h⟩ | ⟨-, -, h⟩ | ⟨-, -, h⟩⟩
  · rw [hbig] at h'
    cases h'
  all_goals
    rw [h]
    rfl

/-- A long immediate takes the place of the second source. -/
theorem build_rs1_long (hbig : (crunch e.ty e.bits).bigimm = true) : (e.build b).rs1 = NOREG := by
  rcases e.build_cases b with ⟨-, h⟩ | ⟨h', -⟩
  · rw [h]
    rfl
  · rw [hbig] at h'
    cases h'

theorem build_immed (hbig : (crunch e.ty e.bits).bigimm = false)
    (h3 : (crunch e.ty e.bits).registers 3 = .NOREG) (himm : (crunch e.ty e.bits).immed ≠ []) :
    (e.build b).immed = ((evalImmed b (crunch e.ty e.bits).immed).setWidth 13).signExtend 64 := by
  rcases e.build_cases b with ⟨h', -⟩ | ⟨-, ⟨h3', -⟩ | ⟨-, himm', -⟩ | ⟨-, -, h⟩⟩
  · rw [hbig] at h'
    cases h'
  · exact absurd h3 h3'
  · exact absurd himm' himm
  · rw [h, immed_reg2imm, BitVec.setWidth_setWidth_of_le _ (by omega)]

theorem build_immed_long (hbig : (crunch e.ty e.bits).bigimm = true)
    (h0 : (evalImmed b (crunch e.ty e.bits).immed).getLsbD 0 = false) :
    (e.build b).immed = (evalImmed b (crunch e.ty e.bits).immed).signExtend 64 := by
  rcases e.build_cases b with ⟨-, h⟩ | ⟨h', -⟩
  · rw [h, immed_reg0imm h0]
  · rw [hbig] at h'
    cases h'

/-! ### The stored immediate against the manual's -/

/-- A short immediate keeps 13 bits of the terms, so it is the manual's immediate
when each of those repeats the same bit of the word. -/
theorem immed_eq_immOf (hw : WellFormed e.bits) (hbig : (crunch e.ty e.bits).bigimm = false)
    (h3 : (crunch e.ty e.bits).registers 3 = .NOREG) (himm : (crunch e.ty e.bits).immed ≠ [])
    {signed : Bool} {pieces : List (Nat × Nat)} {zeros : Nat} (hpos : 0 < immLen pieces zeros)
    (hlen : immLen pieces zeros ≤ 13) (hsign : signed = true ∨ immLen pieces zeros ≤ 12)
    (hplace : ∀ k < 13, immSource e.bits k = immPlace signed pieces zeros k) :
    (e.build b).immed = immOf signed pieces zeros b := by
  rw [e.build_immed b hbig h3 himm]
  refine immOf_eq hpos ?_
  intro k hk
  rw [← immPlace_min hlen hsign, ← hplace _ (by omega), ← getLsbD_evalImmed e.ty hw b (by omega),
    BitVec.getLsbD_signExtend, BitVec.msb_eq_getLsbD_last, BitVec.getLsbD_setWidth, BitVec.getLsbD_setWidth]
  rcases Nat.lt_or_ge k 13 with h13 | h13
  · simp [hk, h13, Nat.min_eq_left (by omega : k ≤ 12)]
  · simp [hk, show ¬ k < 13 by omega, Nat.min_eq_right (by omega : 12 ≤ k)]

/-- A long immediate keeps all 32. -/
theorem immed_eq_immOf_long (hw : WellFormed e.bits) (hbig : (crunch e.ty e.bits).bigimm = true)
    (h0 : immSource e.bits 0 = none)
    {signed : Bool} {pieces : List (Nat × Nat)} {zeros : Nat} (hpos : 0 < immLen pieces zeros)
    (hlen : immLen pieces zeros ≤ 32) (hsign : signed = true ∨ immLen pieces zeros ≤ 31)
    (hplace : ∀ k < 32, immSource e.bits k = immPlace signed pieces zeros k) :
    (e.build b).immed = immOf signed pieces zeros b := by
  have hzero : (evalImmed b (crunch e.ty e.bits).immed).getLsbD 0 = false := by
    rw [getLsbD_evalImmed e.ty hw b (by omega), h0]
    rfl
  rw [e.build_immed_long b hbig hzero]
  refine immOf_eq hpos ?_
  intro k hk
  rw [← immPlace_min hlen hsign, ← hplace _ (by omega), ← getLsbD_evalImmed e.ty hw b (by omega),
    BitVec.getLsbD_signExtend, BitVec.msb_eq_getLsbD_last]
  rcases Nat.lt_or_ge k 32 with h32 | h32
  · simp [hk, h32, Nat.min_eq_left (by omega : k ≤ 31)]
  · simp [hk, show ¬ k < 32 by omega, Nat.min_eq_right (by omega : 31 ≤ k)]

end Entry

/-! ## First match -/

/-- Two entries that fix some bit to different digits. -/
def Entry.conflict (e e' : Entry) : Bool :=
  (crunch e.ty e.bits).mask &&& (crunch e'.ty e'.bits).mask &&&
    ((crunch e.ty e.bits).code ^^^ (crunch e'.ty e'.bits).code) != 0

/-- The mask and the code of an entry, which `conflict` compares; a table of them is
computed once for all its pairs. -/
def Entry.maskCode (e : Entry) : Nat × Nat := ((crunch e.ty e.bits).mask, (crunch e.ty e.bits).code)

def clash (a b : Nat × Nat) : Bool := a.1 &&& b.1 &&& (a.2 ^^^ b.2) != 0

theorem conflict_eq_clash (e e' : Entry) : e.conflict e' = clash e.maskCode e'.maskCode := rfl

/-- A word that passes one test has a bit that the other test refuses. -/
theorem test_of_conflict {e e' : Entry} (hw : width e.bits ≤ 32) (hw' : width e'.bits ≤ 32)
    (h : e.conflict e' = true) {b : BitVec 32} (hb : e.test b = true) : e'.test b = false := by
  unfold Entry.conflict at h
  rw [bne_iff_ne] at h
  obtain ⟨i, hi⟩ := Nat.exists_testBit_of_ne_zero h
  obtain ⟨hm, hc⟩ := testBit_mask_code e.ty e.bits i
  obtain ⟨hm', hc'⟩ := testBit_mask_code e'.ty e'.bits i
  rw [Nat.testBit_and, Nat.testBit_and, Nat.testBit_xor, hm, hm', hc, hc'] at hi
  by_contra hne
  have hb' : e'.test b = true := by simpa using hne
  cases hci : (cells e.bits)[i]? with
  | none => simp [hci] at hi
  | some c =>
    cases hci' : (cells e'.bits)[i]? with
    | none => simp [hci'] at hi
    | some c' =>
      cases c <;> cases c' <;> simp [hci, hci', Cell.isFixed, Cell.isOne] at hi
      rename_i d d'
      have h1 := (test_iff hw b).mp hb i d hci
      have h2 := (test_iff hw' b).mp hb' i d' hci'
      rw [h1] at h2
      subst h2
      cases d <;> simp at hi

/-- The decoder returns the entry at the head of the chain's tail that matches,
when nothing before it does. -/
theorem decoder_eq {pre post : List Entry} {e : Entry} {b : BitVec 32} (he : e.test b = true)
    (hpre : ∀ e' ∈ pre, e'.test b = false) : decoder (pre ++ e :: post) b = e.build b := by
  have hnone : pre.find? (fun e => e.test b) = none := by
    rw [List.find?_eq_none]
    intro e' he'
    rw [hpre e' he']
    simp
  unfold decoder
  rw [List.find?_append, hnone, Option.none_or, List.find?_cons, he]

end Cavatools.Uspike
