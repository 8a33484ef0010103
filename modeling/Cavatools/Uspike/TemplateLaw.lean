import Cavatools.Uspike.Cells

/-!
# The law of the generated decode code

For a well-formed template, placing operand fields and immediate bits in
template order and decoding the result with the generated code are inverse to
each other. That is one law for all instructions, and it does not depend on
what an instruction is.

The bridge is `cells`, the template bit by bit. The loop of the generator
counts a running position down from the left end; each of its results is
characterised by the cells once, by induction on the words of the template, so
neither direction of the law looks at that position again.

- The mask has exactly the fixed bits and the code exactly the fixed ones
  (`testBit_mask_code`), so the test passes on the words that carry the fixed
  bits (`test_iff`).
- Each slot a register name fills holds that name's field expression
  (`registers_of_mem`), and the field is where the cells of the name are
  (`cells_of_reg`, `reg_cell`).
- The OR of the generated terms sets bit `j` exactly when a cell does
  (`SetsBit`, `evalImmed_iff`): by its own bit, or by the extension of a sign
  bit below. A single range is the base case (`rangeTerm_eval`), and a term
  may wrap in the 32 bits of an `int`, which well-formedness makes harmless.

For a word that carries placed values, every expression gives back its value
(`registers_placed`, `evalImmed_placed`). Conversely, what is decoded from a
word that passes the test, placed again, is that word, as each cell is read
back (`decoded_value`). `template_law` has both directions, for every
well-formed template and every type of instruction.
-/

namespace Cavatools.Uspike

open Lib (wordOf getLsbD_shiftField getLsbD_signedField)

/-! ## The generator against the cells -/

theorem crunch_cons (ty : OpType) (tok : Token) (t : Template) :
    crunch ty (tok :: t) = (crunch ty t).token tok := by
  simp [crunch, List.foldl_append]

/-- What the ranges after the first add, and that they touch nothing else. -/
theorem foldl_range (rest : List (Nat × Nat)) (st : Crunch) :
    (rest.foldl Crunch.range st).pos = st.pos + (rest.map fun r => r.1 - r.2 + 1).sum ∧
    (rest.foldl Crunch.range st).code = st.code ∧
    (rest.foldl Crunch.range st).mask = st.mask ∧
    (rest.foldl Crunch.range st).registers = st.registers := by
  induction rest generalizing st with
  | nil => simp
  | cons r rest ih =>
    obtain ⟨hpos, hcode, hmask, hregs⟩ := ih (st.range r)
    rw [List.foldl_cons, List.map_cons, List.sum_cons]
    refine ⟨?_, hcode, hmask, hregs⟩
    rw [hpos]
    show st.pos + (r.1 - r.2 + 1) + _ = _
    omega

theorem token_pos (st : Crunch) (tok : Token) : (st.token tok).pos = st.pos + tok.width := by
  cases tok with
  | bits ds => rfl
  | reg r => rfl
  | imm s first rest =>
    have h := (foldl_range rest.reverse st).1
    rw [List.map_reverse, List.sum_reverse] at h
    show (rest.reverse.foldl Crunch.range st).pos + _ = _
    rw [h, Token.width, List.map_cons, List.sum_cons]
    omega

theorem crunch_pos (ty : OpType) (t : Template) : (crunch ty t).pos = width t := by
  induction t with
  | nil => rfl
  | cons tok t ih =>
    rw [crunch_cons, token_pos, ih, width, width, List.map_cons, List.sum_cons]
    omega

/-! ### The test -/

def Cell.isFixed : Cell → Bool
  | .fixed _ => true
  | _ => false

def Cell.isOne : Cell → Bool
  | .fixed d => d
  | _ => false

/-- Placing a bit map above the cells seen so far. -/
theorem testBit_or_shift {f : Cell → Bool} {cs ds : List Cell} {n m : Nat}
    (hn : ∀ i, n.testBit i = (cs[i]?).any f) (hm : ∀ i, m.testBit i = (ds[i]?).any f) (i : Nat) :
    (n ||| m <<< cs.length).testBit i = ((cs ++ ds)[i]?).any f := by
  rw [Nat.testBit_or, Nat.testBit_shiftLeft, hn, List.getElem?_append]
  by_cases hi : i < cs.length
  · simp [hi]
  · rw [if_neg hi, hm, List.getElem?_eq_none (by omega : cs.length ≤ i)]
    simp [show cs.length ≤ i by omega]

/-- Cells without fixed bits leave a bit map as it is. -/
theorem any_append_of_none {f : Cell → Bool} {cs ds : List Cell} (h : ∀ c ∈ ds, f c = false)
    (i : Nat) : ((cs ++ ds)[i]?).any f = (cs[i]?).any f := by
  rw [List.getElem?_append]
  by_cases hi : i < cs.length
  · rw [if_pos hi]
  · rw [if_neg hi, List.getElem?_eq_none (by omega : cs.length ≤ i)]
    cases hd : ds[i - cs.length]? with
    | none => rfl
    | some c => exact h c (List.mem_of_getElem? hd)

theorem imm_cells (s : Bool) (first : Nat × Nat) (rest : List (Nat × Nat)) :
    ∀ c ∈ (Token.imm s first rest).cells, ∃ j top, c = .imm j top := by
  intro c hc
  unfold Token.cells at hc
  rw [List.mem_append, List.mem_flatMap] at hc
  rcases hc with ⟨r, -, hr⟩ | hr <;>
  · unfold rangeCells at hr
    rw [List.mem_map] at hr
    obtain ⟨i, -, rfl⟩ := hr
    exact ⟨_, _, rfl⟩

/-- The mask has exactly the fixed bits, the code exactly the fixed ones. -/
theorem testBit_mask_code (ty : OpType) (t : Template) (i : Nat) :
    (crunch ty t).mask.testBit i = ((cells t)[i]?).any Cell.isFixed ∧
    (crunch ty t).code.testBit i = ((cells t)[i]?).any Cell.isOne := by
  induction t generalizing i with
  | nil => simp [crunch, Crunch.init, cells]
  | cons tok t ih =>
    have hpos : (crunch ty t).pos = (cells t).length := by rw [crunch_pos, length_cells]
    rw [crunch_cons, cells]
    cases tok with
    | bits ds =>
      rename_i n
      show ((crunch ty t).mask ||| (1 <<< n - 1) <<< (crunch ty t).pos).testBit i = _ ∧
        ((crunch ty t).code ||| ds.toNat <<< (crunch ty t).pos).testBit i = _
      rw [hpos]
      constructor
      · refine testBit_or_shift (fun i => (ih i).1) ?_ i
        intro i
        rw [Nat.one_shiftLeft, Nat.testBit_two_pow_sub_one, Token.cells, List.getElem?_map]
        by_cases hi : i < n <;> simp [hi, Cell.isFixed]
      · refine testBit_or_shift (fun i => (ih i).2) ?_ i
        intro i
        unfold Token.cells
        rw [List.getElem?_map]
        by_cases hi : i < n
        · simp [hi, Cell.isOne, BitVec.getLsbD]
        · have hlt : ds.toNat.testBit i = false :=
            Nat.testBit_lt_two_pow (Nat.lt_of_lt_of_le ds.isLt (Nat.pow_le_pow_right (by omega) (by omega)))
          simp [hi, hlt]
    | reg r =>
      have hnone : ∀ c ∈ (Token.reg r).cells, c.isFixed = false ∧ c.isOne = false := by
        intro c hc
        obtain ⟨i, -, rfl⟩ := List.mem_map.mp hc
        exact ⟨rfl, rfl⟩
      exact ⟨by rw [any_append_of_none fun c hc => (hnone c hc).1]; exact (ih i).1,
        by rw [any_append_of_none fun c hc => (hnone c hc).2]; exact (ih i).2⟩
    | imm s first rest =>
      obtain ⟨-, hcode, hmask, -⟩ := foldl_range rest.reverse (crunch ty t)
      have hnone : ∀ c ∈ (Token.imm s first rest).cells, c.isFixed = false ∧ c.isOne = false := by
        intro c hc
        obtain ⟨j, top, rfl⟩ := imm_cells s first rest c hc
        exact ⟨rfl, rfl⟩
      constructor
      · rw [any_append_of_none fun c hc => (hnone c hc).1, ← (ih i).1, ← hmask]
        rfl
      · rw [any_append_of_none fun c hc => (hnone c hc).2, ← (ih i).2, ← hcode]
        rfl

/-- The generated test passes exactly on the words that carry the fixed bits. -/
theorem test_iff {ty : OpType} {t : Template} (hw : width t ≤ 32) (b : BitVec 32) :
    (crunch ty t).test b = true ↔ ∀ i d, (cells t)[i]? = some (.fixed d) → b.getLsbD i = d := by
  unfold Crunch.test
  rw [beq_iff_eq]
  constructor
  · intro h i d hc
    have hi : i < 32 := by
      have := (List.getElem?_eq_some_iff.mp hc).1
      rw [length_cells] at this
      omega
    have hbit := congrArg (fun v => v.getLsbD i) h
    obtain ⟨hmask, hcode⟩ := testBit_mask_code ty t i
    simp only [BitVec.getLsbD_and, BitVec.getLsbD_ofNat, hi, decide_true, Bool.true_and, hmask,
      hcode, hc] at hbit
    simpa [Cell.isFixed, Cell.isOne] using hbit
  · intro h
    apply BitVec.eq_of_getLsbD_eq
    intro i hi
    obtain ⟨hmask, hcode⟩ := testBit_mask_code ty t i
    simp only [BitVec.getLsbD_and, BitVec.getLsbD_ofNat, hi, decide_true, Bool.true_and, hmask, hcode]
    cases hc : (cells t)[i]? with
    | none => simp
    | some c =>
      cases c with
      | fixed d => simpa [Cell.isFixed, Cell.isOne] using h i d hc
      | reg r k => simp [Cell.isFixed, Cell.isOne]
      | imm j s => simp [Cell.isFixed, Cell.isOne]

/-! ### The register expressions -/

/-- Writing several slots, one after another. -/
theorem foldl_update_registers {e : RegExpr} (slots : List (Fin 4)) (f : Fin 4 → RegExpr)
    (k : Fin 4) :
    slots.foldl (fun f rn => Function.update f rn e) f k = if k ∈ slots then e else f k := by
  induction slots generalizing f with
  | nil => simp
  | cons rn slots ih =>
    rw [List.foldl_cons, ih]
    by_cases hk : k ∈ slots
    · simp [hk]
    · by_cases hrn : k = rn
      · simp [hrn]
      · simp [hk, hrn]

/-- A word of the template writes the slots of its register, and only those. -/
theorem token_registers (st : Crunch) (tok : Token) {k : Fin 4} (hk : k ∉ tok.slots) :
    (st.token tok).registers k = st.registers k := by
  cases tok with
  | bits ds => rfl
  | reg r =>
    show (regs r).slots.foldl _ st.registers k = _
    rw [foldl_update_registers]
    exact if_neg hk
  | imm s first rest =>
    show (rest.reverse.foldl Crunch.range st).registers k = _
    rw [(foldl_range rest.reverse st).2.2.2]

/-- Each slot a register name fills holds that name's field expression. -/
theorem registers_of_mem {ty : OpType} {t : Template} (hslots : (t.flatMap Token.slots).Nodup)
    {r : RegName} (hr : Token.reg r ∈ t) {k : Fin 4} (hk : k ∈ (regs r).slots) :
    (crunch ty t).registers k = .x (regs r).lo (regs r).width (regs r).offset := by
  induction t with
  | nil => cases hr
  | cons tok t ih =>
    rw [List.flatMap_cons, List.nodup_append] at hslots
    obtain ⟨-, htail, hdisj⟩ := hslots
    rw [crunch_cons]
    rcases List.mem_cons.mp hr with rfl | hr'
    · show (regs r).slots.foldl _ (crunch ty t).registers k = _
      rw [foldl_update_registers, if_pos hk]
    · have hk' : k ∈ t.flatMap Token.slots := List.mem_flatMap.mpr ⟨_, hr', hk⟩
      rw [token_registers _ _ fun h => hdisj k h k hk' rfl]
      exact ih htail hr'

theorem getElem?_cells_cons (tok : Token) {t : Template} {i : Nat} {c : Cell}
    (h : (cells t)[i]? = some c) : (cells (tok :: t))[i]? = some c := by
  unfold cells
  rw [List.getElem?_append_left (List.getElem?_eq_some_iff.mp h).1]
  exact h

/-- A register name that stands where the table says holds its field there. -/
theorem cells_of_reg {t : Template} (hpos : AtPos t) {r : RegName} (hr : Token.reg r ∈ t)
    {i : Nat} (hi : i < (regs r).width) : (cells t)[(regs r).lo + i]? = some (.reg r i) := by
  induction t with
  | nil => cases hr
  | cons tok t ih =>
    have htail : AtPos t := by cases tok <;> first | exact hpos | exact hpos.2
    rcases List.mem_cons.mp hr with rfl | hr'
    · unfold cells
      rw [← hpos.1, ← length_cells, List.getElem?_append_right (Nat.le_add_right _ _),
        Nat.add_sub_cancel_left, Token.cells, List.getElem?_map, List.getElem?_range hi]
      rfl
    · exact getElem?_cells_cons tok (ih htail hr')

theorem regs_bounds (r : RegName) : (regs r).width ≤ 5 ∧ (regs r).lo + (regs r).width ≤ 32 := by
  cases r <;> decide

theorem regs_slots_ne_nil (r : RegName) : (regs r).slots ≠ [] := by
  cases r <;> exact List.cons_ne_nil _ _

/-- A register cell belongs to a register name of the template, at the name's
own position. -/
theorem reg_cell {t : Template} (hpos : AtPos t) {r : RegName} {n i : Nat}
    (h : (cells t)[i]? = some (.reg r n)) :
    Token.reg r ∈ t ∧ n < (regs r).width ∧ i = (regs r).lo + n := by
  induction t with
  | nil => simp [cells] at h
  | cons tok t ih =>
    have htail : AtPos t := by cases tok <;> first | exact hpos | exact hpos.2
    unfold cells at h
    rw [List.getElem?_append] at h
    split at h
    · obtain ⟨hm, hn, hi⟩ := ih htail h
      exact ⟨List.mem_cons_of_mem _ hm, hn, hi⟩
    · cases tok with
      | bits ds =>
        obtain ⟨k, -, hk⟩ := List.mem_map.mp (List.mem_of_getElem? h)
        cases hk
      | reg r' =>
        rename_i hge
        unfold Token.cells at h
        rw [List.getElem?_map] at h
        obtain ⟨k, hk, hkr⟩ := Option.map_eq_some_iff.mp h
        obtain ⟨hlt, rfl⟩ := List.getElem?_eq_some_iff.mp hk
        rw [List.length_range] at hlt
        rw [List.getElem_range] at hkr
        cases hkr
        have hlo : (cells t).length = (regs r).lo := by rw [length_cells]; exact hpos.1
        exact ⟨List.mem_cons_self .., hlt, by omega⟩
      | imm s first rest =>
        obtain ⟨j, top, hj⟩ := imm_cells s first rest _ (List.mem_of_getElem? h)
        cases hj

/-- A field that is `v` in the word is `v` in its expression. -/
theorem xField_eq_of_bits {b : BitVec 32} {lo w : Nat} (hw : w ≤ 30) (hb : lo + w ≤ 32)
    {v : BitVec w} (h : ∀ i < w, b.getLsbD (lo + i) = v.getLsbD i) :
    xField b lo w = v.setWidth 32 := by
  apply BitVec.eq_of_getLsbD_eq
  intro i hi
  unfold xField
  rw [getLsbD_shiftField b hw hb, BitVec.getLsbD_setWidth]
  by_cases hiw : i < w
  · simp [hi, hiw, h i hiw]
  · simp [hiw, BitVec.getLsbD_of_ge v i (by omega)]

/-! ### The immediate terms -/

/-- Bit `j` of the immediate is set by a cell at or above position `off`: by its
own bit, or by the extension of a lower sign bit. -/
def SetsBit (b : BitVec 32) (off : Nat) (cs : List Cell) (j : Nat) : Prop :=
  ∃ i k top, cs[i]? = some (.imm k top) ∧ b.getLsbD (off + i) = true ∧
    (k = j ∨ (top = true ∧ k < j))

/-- The cells of two parts, the second above the first. -/
theorem setsBit_append {b : BitVec 32} {off j : Nat} {cs ds : List Cell} :
    SetsBit b off (cs ++ ds) j ↔ SetsBit b off cs j ∨ SetsBit b (off + cs.length) ds j := by
  constructor
  · rintro ⟨i, k, top, hc, hb, hk⟩
    rw [List.getElem?_append] at hc
    by_cases hi : i < cs.length
    · rw [if_pos hi] at hc
      exact Or.inl ⟨i, k, top, hc, hb, hk⟩
    · rw [if_neg hi] at hc
      refine Or.inr ⟨i - cs.length, k, top, hc, ?_, hk⟩
      rw [show off + cs.length + (i - cs.length) = off + i by omega]
      exact hb
  · rintro (⟨i, k, top, hc, hb, hk⟩ | ⟨i, k, top, hc, hb, hk⟩)
    · refine ⟨i, k, top, ?_, hb, hk⟩
      rw [List.getElem?_append_left (List.getElem?_eq_some_iff.mp hc).1]
      exact hc
    · refine ⟨cs.length + i, k, top, ?_, by rw [← Nat.add_assoc]; exact hb, hk⟩
      rw [List.getElem?_append_right (Nat.le_add_right _ _), Nat.add_sub_cancel_left]
      exact hc

theorem not_setsBit_of_no_imm {b : BitVec 32} {off j : Nat} {cs : List Cell}
    (h : ∀ c ∈ cs, ∀ k top, c ≠ .imm k top) : ¬ SetsBit b off cs j := by
  rintro ⟨i, k, top, hc, -, -⟩
  exact h _ (List.mem_of_getElem? hc) k top rfl

/-- The term the generator emits for a range at bit position `pos`. -/
def rangeTerm (signed : Bool) (pos : Nat) (r : Nat × Nat) : Term :=
  if signed then .xs pos (r.1 - r.2 + 1) r.2 else .x pos (r.1 - r.2 + 1) r.2

/-- A range sets the bits that it stands for, and if it is extended, all above its highest bit. -/
theorem setsBit_rangeCells {b : BitVec 32} {off j : Nat} {s : Bool} {r : Nat × Nat} (hr : r.2 ≤ r.1) :
    SetsBit b off (rangeCells s r) j ↔
      (r.2 ≤ j ∧ j ≤ r.1 ∧ b.getLsbD (off + (j - r.2)) = true) ∨
      (s = true ∧ r.1 < j ∧ b.getLsbD (off + (r.1 - r.2)) = true) := by
  constructor
  · rintro ⟨i, k, top, hc, hb, hk⟩
    unfold rangeCells at hc
    rw [List.getElem?_map] at hc
    have hi : i < r.1 - r.2 + 1 := by
      rcases Nat.lt_or_ge i (r.1 - r.2 + 1) with h | h
      · exact h
      · rw [List.getElem?_eq_none (by simpa using h)] at hc
        simp at hc
    rw [List.getElem?_range hi] at hc
    simp only [Option.map_some, Option.some.injEq, Cell.imm.injEq] at hc
    obtain ⟨rfl, rfl⟩ := hc
    rcases hk with rfl | ⟨htop, hlt⟩
    · refine Or.inl ⟨by omega, by omega, ?_⟩
      rw [Nat.add_sub_cancel_left]
      exact hb
    · simp only [Bool.and_eq_true, decide_eq_true_eq] at htop
      refine Or.inr ⟨htop.1, by omega, ?_⟩
      rw [show r.1 - r.2 = i by omega]
      exact hb
  · rintro (⟨hlo, hhi, hb⟩ | ⟨hs, hlt, hb⟩)
    · refine ⟨j - r.2, j, s && decide (j = r.1), ?_, hb, Or.inl rfl⟩
      unfold rangeCells
      rw [List.getElem?_map, List.getElem?_range (by omega)]
      simp [show r.2 + (j - r.2) = j by omega]
    · refine ⟨r.1 - r.2, r.1, true, ?_, hb, Or.inr ⟨rfl, hlt⟩⟩
      unfold rangeCells
      rw [List.getElem?_map, List.getElem?_range (by omega)]
      simp [hs, show r.2 + (r.1 - r.2) = r.1 by omega]

/-- A term sets exactly the bits its cells set. -/
theorem rangeTerm_eval (b : BitVec 32) (off j : Nat) (s : Bool) {r : Nat × Nat} (hr : r.2 ≤ r.1)
    (hlen : r.1 - r.2 + 1 < 31) (hoff : off + (r.1 - r.2 + 1) ≤ 32) :
    ((rangeTerm s off r).eval b).getLsbD j = true ↔ j < 32 ∧ SetsBit b off (rangeCells s r) j := by
  rw [setsBit_rangeCells hr]
  cases s with
  | false =>
    unfold rangeTerm
    rw [if_neg (by simp), Term.eval, BitVec.getLsbD_shiftLeft, xField,
      getLsbD_shiftField b (by omega) hoff]
    simp only [Bool.and_eq_true, Bool.not_eq_true', decide_eq_true_eq, decide_eq_false_iff_not]
    constructor
    · rintro ⟨⟨h1, h2⟩, h3, h4⟩
      exact ⟨h1, Or.inl ⟨by omega, by omega, h4⟩⟩
    · rintro ⟨h1, ⟨h2, h3, h4⟩ | ⟨h2, -⟩⟩
      · exact ⟨⟨h1, by omega⟩, by omega, h4⟩
      · cases h2
  | true =>
    unfold rangeTerm
    rw [if_pos rfl, Term.eval, BitVec.getLsbD_shiftLeft, xsField,
      getLsbD_signedField b (by omega) hoff]
    simp only [Bool.and_eq_true, Bool.not_eq_true', decide_eq_true_eq, decide_eq_false_iff_not]
    constructor
    · rintro ⟨⟨h1, h2⟩, h3, h4⟩
      refine ⟨h1, ?_⟩
      rcases Nat.lt_or_ge r.1 j with hj | hj
      · rw [Nat.min_eq_right (by omega)] at h4
        exact Or.inr ⟨trivial, hj, h4⟩
      · rw [Nat.min_eq_left (by omega)] at h4
        exact Or.inl ⟨by omega, hj, h4⟩
    · rintro ⟨h1, ⟨h2, h3, h4⟩ | ⟨-, h3, h4⟩⟩
      · refine ⟨⟨h1, by omega⟩, by omega, ?_⟩
        rw [Nat.min_eq_left (by omega)]
        exact h4
      · refine ⟨⟨h1, by omega⟩, by omega, ?_⟩
        rw [Nat.min_eq_right (by omega)]
        exact h4

theorem evalImmed_append (b : BitVec 32) (ts : List Term) (t : Term) :
    evalImmed b (ts ++ [t]) = evalImmed b ts ||| t.eval b := by
  unfold evalImmed
  rw [List.foldl_append]
  rfl

/-- The ranges after the first, walked from the right, add their cells. -/
theorem foldl_range_immed {b : BitVec 32} {j : Nat} (rest : List (Nat × Nat)) (st : Crunch)
    (cs : List Cell) (hpos : st.pos = cs.length)
    (hok : ∀ r ∈ rest, r.2 ≤ r.1 ∧ r.1 - r.2 + 1 < 31)
    (hw : st.pos + (rest.map fun r => r.1 - r.2 + 1).sum ≤ 32)
    (h : (evalImmed b st.immed).getLsbD j = true ↔ j < 32 ∧ SetsBit b 0 cs j) :
    (evalImmed b (rest.foldl Crunch.range st).immed).getLsbD j = true ↔
      j < 32 ∧ SetsBit b 0 (cs ++ rest.flatMap (rangeCells false)) j := by
  -- on the ranges: each adds one term, and the cells that it reads
  induction rest generalizing st cs with
  | nil => simpa using h
  | cons r rest ih =>
    rw [List.map_cons, List.sum_cons] at hw
    obtain ⟨hr, hlen⟩ := hok r (List.mem_cons_self ..)
    rw [List.foldl_cons, List.flatMap_cons, ← List.append_assoc]
    refine ih (st.range r) (cs ++ rangeCells false r) ?_ (fun r' h' => hok r' (List.mem_cons_of_mem _ h')) ?_ ?_
    · rw [List.length_append, length_rangeCells, ← hpos]
      rfl
    · show st.pos + (r.1 - r.2 + 1) + _ ≤ 32
      omega
    · have hterm := rangeTerm_eval b st.pos j false hr hlen (by omega)
      rw [setsBit_append, Nat.zero_add, ← hpos]
      show (evalImmed b (st.immed ++ [rangeTerm false st.pos r])).getLsbD j = true ↔ _
      rw [evalImmed_append, BitVec.getLsbD_or, Bool.or_eq_true, h, hterm]
      exact and_or_left.symm

/-- The OR of the generated terms sets bit `j` exactly when a cell does. -/
theorem evalImmed_iff (ty : OpType) {t : Template}
    (hok : ∀ tok ∈ t, ∀ r ∈ tok.ranges, r.2 ≤ r.1 ∧ r.1 - r.2 + 1 < 31) (hw : width t ≤ 32)
    (b : BitVec 32) (j : Nat) :
    (evalImmed b (crunch ty t).immed).getLsbD j = true ↔ j < 32 ∧ SetsBit b 0 (cells t) j := by
  induction t with
  | nil => simp [crunch, Crunch.init, evalImmed, SetsBit, cells]
  | cons tok t ih =>
    unfold width at hw
    rw [List.map_cons, List.sum_cons, ← width] at hw
    have ih := ih (fun tok' h' => hok tok' (List.mem_cons_of_mem _ h')) (by omega)
    rw [crunch_cons, cells]
    cases tok with
    | bits ds =>
      -- fixed bits add no term and set no bit
      have hno : ¬ SetsBit b (0 + (cells t).length) (Token.bits ds).cells j := by
        refine not_setsBit_of_no_imm ?_
        intro c hc k top
        obtain ⟨i, -, rfl⟩ := List.mem_map.mp hc
        exact Cell.noConfusion
      rw [setsBit_append]
      show (evalImmed b (crunch ty t).immed).getLsbD j = true ↔ _
      rw [ih, or_iff_left hno]
    | reg r =>
      have hno : ¬ SetsBit b (0 + (cells t).length) (Token.reg r).cells j := by
        refine not_setsBit_of_no_imm ?_
        intro c hc k top
        obtain ⟨i, -, rfl⟩ := List.mem_map.mp hc
        exact Cell.noConfusion
      rw [setsBit_append]
      show (evalImmed b (crunch ty t).immed).getLsbD j = true ↔ _
      rw [ih, or_iff_left hno]
    | imm s first rest =>
      rw [Token.width, List.map_cons, List.sum_cons] at hw
      have hranges := hok _ (List.mem_cons_self ..)
      obtain ⟨hfirst, hflen⟩ := hranges first (List.mem_cons_self ..)
      have hsum : (rest.reverse.map fun r => r.1 - r.2 + 1).sum
          = (rest.map fun r => r.1 - r.2 + 1).sum := by
        rw [List.map_reverse, List.sum_reverse]
      have hrest := foldl_range_immed (b := b) (j := j) rest.reverse (crunch ty t) (cells t)
        (by rw [crunch_pos, length_cells])
        (fun r hr => hranges r (List.mem_cons_of_mem _ (List.mem_reverse.mp hr)))
        (by rw [crunch_pos, hsum]; omega) ih
      have hpos : (rest.reverse.foldl Crunch.range (crunch ty t)).pos
          = (cells t ++ rest.reverse.flatMap (rangeCells false)).length := by
        rw [(foldl_range rest.reverse (crunch ty t)).1, crunch_pos, hsum, List.length_append,
          length_cells, length_flatMap_rangeCells]
      have hterm := rangeTerm_eval b (rest.reverse.foldl Crunch.range (crunch ty t)).pos j s hfirst hflen
        (by rw [hpos, List.length_append, length_cells, length_flatMap_rangeCells]; omega)
      unfold Token.cells
      rw [← List.append_assoc, setsBit_append, Nat.zero_add, ← hpos]
      show (evalImmed b ((rest.reverse.foldl Crunch.range (crunch ty t)).immed ++
        [rangeTerm s _ first])).getLsbD j = true ↔ _
      rw [evalImmed_append, BitVec.getLsbD_or, Bool.or_eq_true, hrest, hterm]
      exact and_or_left.symm

/-! ## The law -/

theorem testBit_immNat {a : Assign} {t : Template} (hs : ∀ j ∈ immPositions t, j ≤ 31) (j : Nat) :
    (immNat a t).testBit j = (decide (j ∈ immPositions t) && a.imm j) := by
  rcases Nat.lt_or_ge j 32 with hj | hj
  · unfold immNat
    rw [Nat.testBit_ofBits_lt _ _ hj]
  · unfold immNat
    rw [Nat.testBit_ofBits_ge _ _ hj]
    have hn : j ∉ immPositions t := fun h => by
      have := hs j h
      omega
    simp [hn]

theorem immNat_lt (a : Assign) (t : Template) : immNat a t < 2 ^ 32 := Nat.ofBits_lt_two_pow _

/-- The cells under an assignment set bit `j` when `j` is an assigned position,
or lies above a set sign bit. -/
theorem setsBit_placed {a : Assign} {t : Template} {b : BitVec 32}
    (hb : ∀ i c, (cells t)[i]? = some c → b.getLsbD i = c.value a) (j : Nat) :
    SetsBit b 0 (cells t) j ↔ (j ∈ immPositions t ∧ a.imm j = true) ∨
      ∃ i k : Nat, (cells t)[i]? = some (.imm k true) ∧ k < j ∧ a.imm k = true := by
  constructor
  · rintro ⟨i, k, top, hc, hbit, hk⟩
    rw [Nat.zero_add, hb i _ hc] at hbit
    rcases hk with rfl | ⟨rfl, hlt⟩
    · exact Or.inl ⟨mem_immPositions_iff.mpr ⟨i, top, hc⟩, hbit⟩
    · exact Or.inr ⟨i, k, hc, hlt, hbit⟩
  · rintro (⟨hj, ha⟩ | ⟨i, k, hc, hlt, ha⟩)
    · obtain ⟨i, top, hc⟩ := mem_immPositions_iff.mp hj
      refine ⟨i, j, top, hc, ?_, Or.inl rfl⟩
      rw [Nat.zero_add, hb i _ hc]
      exact ha
    · refine ⟨i, k, true, hc, ?_, Or.inr ⟨rfl, hlt⟩⟩
      rw [Nat.zero_add, hb i _ hc]
      exact ha

/-- The generated terms of a placed word give the immediate. -/
theorem evalImmed_placed {ty : OpType} {a : Assign} {t : Template} {b : BitVec 32}
    (hw : WellFormed t) (hb : ∀ i c, (cells t)[i]? = some c → b.getLsbD i = c.value a) :
    (evalImmed b (crunch ty t).immed).toInt = immValue a t := by
  have hwidth : width t ≤ 32 := by rcases hw.total with h | h <;> omega
  have hbits (j : Nat) := (evalImmed_iff ty hw.ranges hwidth b j).trans
    (and_congr_right fun _ => setsBit_placed hb j)
  have himm := testBit_immNat (a := a) hw.small
  unfold immValue
  cases hsign : signBit t with
  | none =>
    have hval : evalImmed b (crunch ty t).immed = BitVec.ofNat 32 (immNat a t) := by
      apply BitVec.eq_of_getLsbD_eq
      intro j hj
      rw [Bool.eq_iff_iff, hbits, BitVec.getLsbD_ofNat, himm]
      simp only [hj, true_and, decide_true, Bool.true_and, Bool.and_eq_true, decide_eq_true_eq]
      refine or_iff_left ?_
      rintro ⟨i, k, hc, -, -⟩
      exact absurd (signBit_none hsign hc) (by simp)
    have h31 : 31 ∉ immPositions t := by
      intro h
      obtain ⟨tok, htok, hpos⟩ := List.mem_flatMap.mp h
      have hs := hw.bit31 tok htok hpos
      have hnone := List.findSome?_eq_none_iff.mp hsign tok htok
      cases tok with
      | bits ds => cases hs
      | reg r => cases hs
      | imm s first rest =>
        obtain rfl : s = true := hs
        cases hnone
    have hmsb : (BitVec.ofNat 32 (immNat a t)).msb = false := by
      rw [BitVec.msb_eq_getLsbD_last, BitVec.getLsbD_ofNat, himm]
      simp [h31]
    rw [hval, BitVec.toInt_eq_toNat_of_msb hmsb, BitVec.toNat_ofNat,
      Nat.mod_eq_of_lt (immNat_lt a t)]
  | some top =>
    obtain ⟨⟨i₀, hi₀⟩, hmax, huniq⟩ := signBit_some hw hsign
    have htop : top ∈ immPositions t := mem_immPositions_iff.mpr ⟨i₀, true, hi₀⟩
    have htop31 := hw.small top htop
    have hval : evalImmed b (crunch ty t).immed
        = (BitVec.ofNat (top + 1) (immNat a t)).signExtend 32 := by
      apply BitVec.eq_of_getLsbD_eq
      intro j hj
      rw [Bool.eq_iff_iff, hbits, BitVec.getLsbD_signExtend, BitVec.msb_eq_getLsbD_last,
        BitVec.getLsbD_ofNat, BitVec.getLsbD_ofNat, himm, himm]
      by_cases hjt : j < top + 1
      · rw [if_pos hjt]
        simp only [hj, hjt, true_and, decide_true, Bool.true_and, Bool.and_eq_true, decide_eq_true_eq]
        refine or_iff_left ?_
        rintro ⟨i, k, hc, hlt, -⟩
        have := huniq i k hc
        omega
      · rw [if_neg hjt]
        simp only [hj, true_and, decide_true, Bool.true_and, Bool.and_eq_true, decide_eq_true_eq,
          Nat.add_sub_cancel, Nat.lt_succ_self]
        constructor
        · rintro (⟨hmem, -⟩ | ⟨i, k, hc, -, ha⟩)
          · have := hmax j hmem
            omega
          · rw [huniq i k hc] at ha
            exact ⟨htop, ha⟩
        · rintro ⟨-, ha⟩
          exact Or.inr ⟨i₀, top, hi₀, by omega, ha⟩
    rw [hval, BitVec.toInt_signExtend_of_le (by omega)]

/-- The generated expression of every slot a register name fills gives the
placed register with the name's offset. -/
theorem registers_placed {ty : OpType} {a : Assign} {t : Template} {b : BitVec 32}
    (hw : WellFormed t) (hb : ∀ i c, (cells t)[i]? = some c → b.getLsbD i = c.value a)
    {r : RegName} (hr : Token.reg r ∈ t) {k : Fin 4} (hk : k ∈ (regs r).slots) :
    ((crunch ty t).registers k).eval b
      = (a.reg r).setWidth 32 + BitVec.ofNat 32 (regs r).offset := by
  obtain ⟨hrw, hrb⟩ := regs_bounds r
  rw [registers_of_mem hw.slots hr hk, RegExpr.eval,
    xField_eq_of_bits (by omega) hrb fun i hi => hb _ _ (cells_of_reg hw.atPos hr hi)]

/-- What the generated code reads from a word: a register name from a slot it
fills, an immediate bit from the OR of the terms. -/
def decoded (ty : OpType) (t : Template) (b : BitVec 32) : Assign where
  reg r :=
    match (regs r).slots with
    | [] => 0
    | k :: _ => (((crunch ty t).registers k).eval b - BitVec.ofNat 32 (regs r).offset).setWidth _
  imm j := (evalImmed b (crunch ty t).immed).getLsbD j

/-- Every cell that the test or an expression covers is read back. -/
theorem decoded_value {ty : OpType} {t : Template} {b : BitVec 32} (hw : WellFormed t)
    (htest : (crunch ty t).test b = true) (i : Nat) (c : Cell) (hc : (cells t)[i]? = some c) :
    b.getLsbD i = c.value (decoded ty t b) := by
  have hwidth : width t ≤ 32 := by rcases hw.total with h | h <;> omega
  cases c with
  | fixed d => exact (test_iff hwidth b).mp htest i d hc
  | reg r n =>
    obtain ⟨hr, hn, rfl⟩ := reg_cell hw.atPos hc
    obtain ⟨hrw, hrb⟩ := regs_bounds r
    show _ = ((decoded ty t b).reg r).getLsbD n
    cases hs : (regs r).slots with
    | nil => exact absurd hs (regs_slots_ne_nil r)
    | cons k ks =>
      have hk : k ∈ (regs r).slots := by rw [hs]; exact List.mem_cons_self ..
      simp only [decoded, hs, registers_of_mem hw.slots hr hk, RegExpr.eval, BitVec.add_sub_cancel]
      rw [BitVec.getLsbD_setWidth, xField, getLsbD_shiftField b (by omega) hrb]
      simp [hn]
  | imm j top =>
    rw [Bool.eq_iff_iff, Cell.value, decoded, evalImmed_iff _ hw.ranges hwidth]
    have hmem : j ∈ immPositions t := mem_immPositions_iff.mpr ⟨i, top, hc⟩
    constructor
    · intro h
      exact ⟨by have := hw.small j hmem; omega, i, j, top, hc, by rwa [Nat.zero_add], Or.inl rfl⟩
    · rintro ⟨-, i', k, top', hc', hbit, rfl | ⟨rfl, hlt⟩⟩
      · rw [Nat.zero_add, cell_unique hw.distinct hc' hc] at hbit
        exact hbit
      · obtain ⟨tok, hm, hk⟩ := top_cell hc'
        have := hw.signedTop tok hm k hk j hmem
        omega

/-- **The template law.** For every well-formed template, whatever the type of
its instruction: a word that carries placed fields in its low bits passes the
generated test whatever stands above them, every operand expression returns the
placed register with its offset, and the generated immediate is the placed one.
Conversely a word that passes the test is the placement of what the generated
expressions return for it. -/
theorem template_law (ty : OpType) {t : Template} (hw : WellFormed t) :
    (∀ (a : Assign) (b : BitVec 32), b.toNat % 2 ^ width t = wordOf (place a t) →
      (crunch ty t).test b = true ∧
      (∀ r, Token.reg r ∈ t → ∀ k ∈ (regs r).slots, ((crunch ty t).registers k).eval b
        = (a.reg r).setWidth 32 + BitVec.ofNat 32 (regs r).offset) ∧
      (evalImmed b (crunch ty t).immed).toInt = immValue a t) ∧
    ∀ b : BitVec 32, (crunch ty t).test b = true →
      b.toNat % 2 ^ width t = wordOf (place (decoded ty t b) t) := by
  have hwidth : width t ≤ 32 := by rcases hw.total with h | h <;> omega
  constructor
  · intro a b hb
    have hcells (i : Nat) (c : Cell) (hc : (cells t)[i]? = some c) := getLsbD_of_placed hb hc
    refine ⟨(test_iff hwidth b).mpr fun i d hc => hcells i _ hc, ?_, evalImmed_placed hw hcells⟩
    intro r hr k hk
    exact registers_placed hw hcells hr hk
  · intro b htest
    exact placed_of_getLsbD (decoded_value hw htest)

/-- The law at the template of `c.j`, whose immediate is scattered over eight ranges. -/
theorem template_law_c_j :
    WellFormed [.bits 0b101#3,
      .imm true (11, 11) [(4, 4), (9, 8), (10, 10), (6, 6), (7, 7), (3, 1), (5, 5)], .bits 0b01#2] ∧
    (evalImmed 0xabcdbfed#32 (crunch .plain [.bits 0b101#3,
      .imm true (11, 11) [(4, 4), (9, 8), (10, 10), (6, 6), (7, 7), (3, 1), (5, 5)],
      .bits 0b01#2]).immed).toInt = -6 := by
  have hw : WellFormed [.bits 0b101#3,
      .imm true (11, 11) [(4, 4), (9, 8), (10, 10), (6, 6), (7, 7), (3, 1), (5, 5)],
      .bits 0b01#2] := by decide
  refine ⟨hw, ?_⟩
  rw [((template_law .plain hw).1 ⟨fun _ => 0, fun j => (0xfffa#16).getLsbD j⟩ _ (by decide)).2.2]
  decide

end Cavatools.Uspike
