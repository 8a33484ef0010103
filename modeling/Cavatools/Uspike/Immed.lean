import Cavatools.Uspike.Decode

/-!
# Short and long immediates

The generator stores an immediate long when the first range of some group
reaches bit 13, and short otherwise. A short one comes back from 13 signed
bits, a long one if its lowest bit is zero, since that bit tells the two
apart. `StoresImmed` is what a descriptor should do: give back the immediate
of the word, and say in which form it is stored.

The argument is about ranges. A term of the generated expression moves one
range of the word to its place; if the range stays below bit 13 the term fits
a short immediate (`ShortRange`, `rangeTerm_fits`), and if it leaves out bit 0
the term is even (`EvenRange`, `rangeTerm_even`). What holds of every term
holds of their disjunction (`evalImmed_of_terms`), and the terms that `crunch`
collects are those of the ranges of the template (`crunch_terms`). So a
template is `Consistent` if all its ranges are short, or it is a long one that
leaves out bit 0, and then every immediate is stored right
(`storesImmed_short`, `storesImmed_long`).

All of RVC.bits keeps to this, by computation, and so does every template that
`parse_opcodes` prints, for any line (`print_inst_consistent`), but for the
CSR instructions with an immediate operand: `{16:12}` makes them long, and
`{11:0}` puts the lowest bit of the CSR number where the flag is
(`csr_immed`). `immed_iff` states that the immediates come back exactly
otherwise, over every listing and every word.
-/

namespace Cavatools.Uspike

/-! ## What the generator reads -/

/-- crunch_isa's cases for the names `f…`, by which operands become floating registers. -/
inductive FpName
  | none | source | dest | all
  deriving DecidableEq, Repr

/-- `b.replace`, for each case. -/
def FpName.replace : FpName → RegName → RegName
  | .source, .rs1 => .fs1
  | .dest, .rd => .fd
  | .all, .rd => .fd
  | .all, .rs1 => .fs1
  | .all, .rs2 => .fs2
  | .all, .rs3 => .fs3
  | _, r => r

def Token.replace (fp : FpName) : Token → Token
  | .reg r => .reg (fp.replace r)
  | tok => tok

/-- An instruction of RVC.bits, or of a line of riscv-opcodes. -/
inductive Listing
  | rvc (op : COp)
  | line (op : Opcode) (fp : FpName) (l : OpLine)

def Listing.entry : Listing → Entry
  | .rvc op => rvcEntry op
  | .line op fp l => ⟨op, .plain, (print_inst l).map (Token.replace fp)⟩

/-- make_headers passes the immediate to `reg0imm`, `reg1imm` or `reg2imm`. -/
def PassesImmed (e : Entry) : Prop :=
  (crunch e.ty e.bits).bigimm = true ∨
    (crunch e.ty e.bits).registers rs3Slot = .NOREG ∧ (crunch e.ty e.bits).immed ≠ []

/-- A register number, one that `reg_name` has a name for. -/
def IsRegister (r : BitVec 8) : Prop := r.toNat ≤ VMREG

/-- The descriptor gives back the immediate of the word, and says in which form it is stored. -/
structure StoresImmed (e : Entry) (b : BitVec 32) : Prop where
  immed : (e.build b).immed = (evalImmed b (crunch e.ty e.bits).immed).signExtend 64
  longimmed : (e.build b).longimmed = (crunch e.ty e.bits).bigimm
  registers : (e.build b).longimmed = false →
    (IsRegister (e.build b).rs2 ∨ (e.build b).rs2 = NOREG) ∧
      (IsRegister (e.build b).rs3 ∨ (e.build b).rs3 = NOREG)

/-! ## Values -/

/-- A word that its low 13 bits give back. -/
def Fits (v : BitVec 32) : Prop := ∀ k < 32, 12 ≤ k → v.getLsbD k = v.getLsbD 12

theorem Fits.or {v w : BitVec 32} (hv : Fits v) (hw : Fits w) : Fits (v ||| w) := by
  intro k hk h12
  rw [BitVec.getLsbD_or, BitVec.getLsbD_or, hv k hk h12, hw k hk h12]

theorem fits_zero : Fits 0 := fun _ _ _ => by simp

/-- What fits 13 bits is sign-extended from there as from 32. -/
theorem Fits.signExtend {v : BitVec 32} (h : Fits v) : (v.setWidth 13).signExtend 64 = v.signExtend 64 := by
  have h31 : v.getLsbD 31 = v.getLsbD 12 := h 31 (by omega) (by omega)
  apply BitVec.eq_of_getLsbD_eq
  intro k hk
  rw [BitVec.getLsbD_signExtend, BitVec.getLsbD_signExtend, BitVec.msb_eq_getLsbD_last,
    BitVec.msb_eq_getLsbD_last, BitVec.getLsbD_setWidth, BitVec.getLsbD_setWidth]
  rcases Nat.lt_or_ge k 13 with h13 | h13
  · simp [hk, h13, show k < 32 by omega]
  · rcases Nat.lt_or_ge k 32 with h32 | h32
    · rw [if_neg (by omega), if_pos h32, h k h32 (by omega)]
      simp
    · rw [if_neg (by omega), if_neg (by omega), h31]
      simp

/-- What is kept by `|` and holds of every term holds of the immediate. -/
theorem evalImmed_of_terms {P : BitVec 32 → Prop} (h0 : P 0) (hor : ∀ v w, P v → P w → P (v ||| w))
    {b : BitVec 32} {terms : List Term} (h : ∀ term ∈ terms, P (term.eval b)) :
    P (evalImmed b terms) := by
  induction terms using List.reverseRecOn with
  | nil => exact h0
  | append_singleton terms term ih =>
    rw [evalImmed_append]
    exact hor _ _ (ih fun t ht => h t (List.mem_append_left _ ht)) (h term (by simp))

/-! ## Ranges -/

/-- A range whose term fits a short immediate. -/
def ShortRange (signed : Bool) (r : Nat × Nat) : Prop := r.2 ≤ r.1 ∧ r.1 ≤ if signed then 12 else 11

instance (signed : Bool) (r : Nat × Nat) : Decidable (ShortRange signed r) :=
  inferInstanceAs (Decidable (_ ∧ _))

/-- A range that leaves out bit 0. -/
def EvenRange (_ : Bool) (r : Nat × Nat) : Prop := 0 < r.2

instance (signed : Bool) (r : Nat × Nat) : Decidable (EvenRange signed r) := inferInstanceAs (Decidable (_ < _))

/-- The term of a short range fits: below bit 13 as it is, and with a sign at bit 12 at most. -/
theorem rangeTerm_fits {signed : Bool} {r : Nat × Nat} (h : ShortRange signed r) (pos : Nat) (b : BitVec 32) :
    Fits ((rangeTerm signed pos r).eval b) := by
  obtain ⟨hle, hhi⟩ := h
  intro k hk h12
  cases signed with
  | false =>
    simp only [Bool.false_eq_true, if_false] at hhi
    -- both bits are above the field
    have hzero (j : Nat) (hj : 12 ≤ j) : ((rangeTerm false pos r).eval b).getLsbD j = false := by
      unfold rangeTerm
      rw [if_neg (by simp), Term.eval, BitVec.getLsbD_shiftLeft, xField, BitVec.getLsbD_and,
        Lib.getLsbD_mask (by omega)]
      simp [show ¬ j - r.2 < r.1 - r.2 + 1 by omega]
    rw [hzero k h12, hzero 12 le_rfl]
  | true =>
    simp only [if_true] at hhi
    -- both bits repeat the sign
    have hsign (j : Nat) (hj : 12 ≤ j) (hj' : j < 32) : ((rangeTerm true pos r).eval b).getLsbD j
        = (b <<< (32 - pos - (r.1 - r.2 + 1))).getLsbD 31 := by
      unfold rangeTerm
      rw [if_pos rfl, Term.eval, BitVec.getLsbD_shiftLeft, xsField, BitVec.getLsbD_sshiftRight,
        BitVec.msb_eq_getLsbD_last]
      simp only [hj', decide_true, Bool.true_and, show ¬ j < r.2 by omega, decide_false, Bool.not_false,
        show ¬ 32 ≤ j - r.2 by omega]
      split
      · congr 1
        omega
      · rfl
    rw [hsign k h12 hk, hsign 12 le_rfl (by omega)]

theorem rangeTerm_even {signed : Bool} {r : Nat × Nat} (h : EvenRange signed r) (pos : Nat) (b : BitVec 32) :
    ((rangeTerm signed pos r).eval b).getLsbD 0 = false := by
  have h0 : 0 < r.2 := h
  unfold rangeTerm
  split <;> rw [Term.eval, BitVec.getLsbD_shiftLeft] <;> simp [h0]

/-! ## Templates -/

/-- Every range of the token satisfies `P`, which sees if the range is sign-extended. -/
def Token.Ranges (P : Bool → Nat × Nat → Prop) : Token → Prop
  | .imm signed first rest => P signed first ∧ ∀ r ∈ rest, P false r
  | _ => True

instance (P : Bool → Nat × Nat → Prop) [∀ s r, Decidable (P s r)] (tok : Token) : Decidable (tok.Ranges P) :=
  match tok with
  | .imm .. => inferInstanceAs (Decidable (_ ∧ _))
  | .bits _ | .reg _ => inferInstanceAs (Decidable True)

def Token.isBig : Token → Bool
  | .imm _ first _ => decide (13 ≤ first.1)
  | _ => false

theorem foldl_range_big (rest : List (Nat × Nat)) (st : Crunch) :
    (rest.foldl Crunch.range st).bigimm = st.bigimm := by
  induction rest generalizing st with
  | nil => rfl
  | cons r rest ih => exact ih (st.range r)

/-- The flag of a template is that of one of its groups. -/
theorem crunch_bigimm (ty : OpType) (t : Template) : (crunch ty t).bigimm = t.any Token.isBig := by
  induction t with
  | nil => rfl
  | cons tok t ih =>
    rw [crunch_cons, List.any_cons, ← ih]
    cases tok with
    | bits ds => rfl
    | reg r => rfl
    | imm signed first rest =>
      show ((rest.reverse.foldl Crunch.range (crunch ty t)).bigimm || decide (13 ≤ first.1)) = _
      rw [foldl_range_big, Bool.or_comm]
      rfl

section
variable {P : Bool → Nat × Nat → Prop}

/-- The terms of a range that satisfies `P`. -/
def FromRange (P : Bool → Nat × Nat → Prop) (term : Term) : Prop :=
  ∃ signed pos r, P signed r ∧ term = rangeTerm signed pos r

/-- The ranges of a group behind its first one. -/
theorem foldl_range_terms {rest : List (Nat × Nat)} (hrest : ∀ r ∈ rest, P false r) {st : Crunch}
    (h : ∀ term ∈ st.immed, FromRange P term) :
    ∀ term ∈ (rest.foldl Crunch.range st).immed, FromRange P term := by
  induction rest generalizing st with
  | nil => exact h
  | cons r rest ih =>
    rw [List.foldl_cons]
    refine ih (fun r' hr' => hrest r' (List.mem_cons_of_mem _ hr')) ?_
    intro term hterm
    rcases List.mem_append.mp hterm with hold | hnew
    · exact h term hold
    · exact ⟨false, st.pos, r, hrest r (List.mem_cons_self ..), List.mem_singleton.mp hnew⟩

/-- The terms of a template come from its ranges. -/
theorem crunch_terms (ty : OpType) {t : Template} (h : ∀ tok ∈ t, tok.Ranges P) :
    ∀ term ∈ (crunch ty t).immed, FromRange P term := by
  induction t with
  | nil =>
    intro term hterm
    cases hterm
  | cons tok t ih =>
    have htail := ih fun tok' htok' => h tok' (List.mem_cons_of_mem _ htok')
    have hhead := h tok (List.mem_cons_self ..)
    rw [crunch_cons]
    cases tok with
    | bits ds => exact htail
    | reg r => exact htail
    | imm signed first rest =>
      intro term hterm
      rcases List.mem_append.mp hterm with hold | hnew
      · exact foldl_range_terms (fun r hr => hhead.2 r (List.mem_reverse.mp hr)) htail term hold
      · exact ⟨signed, _, first, hhead.1, List.mem_singleton.mp hnew⟩

end

/-- The second source is a register or none. -/
theorem registers_rs2 (ty : OpType) (t : Template) : (crunch ty t).registers rs2Slot = .NOREG ∨
    ∃ r, rs2Slot ∈ (regs r).slots ∧
      (crunch ty t).registers rs2Slot = .x (regs r).lo (regs r).width (regs r).offset := by
  induction t with
  | nil =>
    left
    cases ty <;> rfl
  | cons tok t ih =>
    rw [crunch_cons]
    cases tok with
    | reg r =>
      have hreg : ((crunch ty t).token (.reg r)).registers rs2Slot = if rs2Slot ∈ (regs r).slots then
          .x (regs r).lo (regs r).width (regs r).offset else (crunch ty t).registers rs2Slot :=
        foldl_update_registers _ _ _
      rw [hreg]
      by_cases hmem : rs2Slot ∈ (regs r).slots
      · rw [if_pos hmem]
        exact Or.inr ⟨r, hmem, rfl⟩
      · rw [if_neg hmem]
        exact ih
    | bits ds => exact ih
    | imm signed first rest =>
      rw [token_registers _ _ (by simp [Token.slots])]
      exact ih

theorem regs_rs2 (r : RegName) (h : rs2Slot ∈ (regs r).slots) :
    (regs r).offset + 2 ^ (regs r).width ≤ VMREG := by
  cases r <;> revert h <;> decide

/-- The byte of the second source is a register number or none. -/
theorem regByte_rs2 (e : Entry) (b : BitVec 32) :
    IsRegister (e.regByte b rs2Slot) ∨ e.regByte b rs2Slot = NOREG := by
  rcases registers_rs2 e.ty e.bits with hnone | ⟨r, hmem, hreg⟩
  · exact Or.inr (e.regByte_noreg b hnone)
  · left
    obtain ⟨hw, hb⟩ := regs_bounds r
    have hbound := regs_rs2 r hmem
    have hfield := (b.extractLsb' (regs r).lo (regs r).width).isLt
    unfold Entry.regByte IsRegister
    rw [hreg, eval_x_byte b (by omega) hb, BitVec.toNat_add, BitVec.toNat_setWidth, BitVec.toNat_ofNat]
    refine (Nat.mod_le _ _).trans ((Nat.add_le_add (Nat.mod_le _ _) (Nat.mod_le _ _)).trans ?_)
    omega

/-! ## The two forms -/

section
variable {e : Entry} (b : BitVec 32)

/-- **Short.** -/
theorem storesImmed_short (hshort : ∀ tok ∈ e.bits, tok.Ranges ShortRange) (hpass : PassesImmed e) :
    StoresImmed e b := by
  have hbig : (crunch e.ty e.bits).bigimm = false := by
    rw [crunch_bigimm, List.any_eq_false]
    intro tok htok
    have hr := hshort tok htok
    cases tok with
    | bits _ | reg _ => exact Bool.false_ne_true
    | imm signed first rest =>
      have hhi := hr.1.2
      unfold Token.isBig
      split at hhi <;> simp <;> omega
  obtain ⟨h3, himm⟩ := hpass.resolve_left (by rw [hbig]; exact Bool.false_ne_true)
  have hfits : Fits (evalImmed b (crunch e.ty e.bits).immed) := by
    refine evalImmed_of_terms fits_zero (fun v w hv hw => hv.or hw) fun term hterm => ?_
    obtain ⟨signed, pos, r, hr, rfl⟩ := crunch_terms e.ty hshort term hterm
    exact rangeTerm_fits hr pos b
  rcases e.build_cases b with ⟨h', -⟩ | ⟨-, ⟨h', -⟩ | ⟨-, h', -⟩ | ⟨-, -, hbuild⟩⟩
  · rw [hbig] at h'
    cases h'
  · exact absurd h3 h'
  · exact absurd h' himm
  · refine ⟨(e.build_immed b hbig h3 himm).trans hfits.signExtend, ?_, fun _ => ?_⟩
    · rw [hbuild, hbig]
      exact congrArg (!·) (getLsbD_pack_zero _)
    · rw [e.build_rs2 b hbig, hbuild]
      exact ⟨regByte_rs2 e b, Or.inr rfl⟩

/-- **Long**: exactly the even ones come back. -/
theorem storesImmed_long (hbig : (crunch e.ty e.bits).bigimm = true) :
    StoresImmed e b ↔ (evalImmed b (crunch e.ty e.bits).immed).getLsbD 0 = false := by
  have hlong : (e.build b).longimmed = !(evalImmed b (crunch e.ty e.bits).immed).getLsbD 0 := by
    rcases e.build_cases b with ⟨-, h⟩ | ⟨h', -⟩
    · rw [h]
      unfold Insn.longimmed reg0imm Insn.setLongimm
      simp
    · rw [hbig] at h'
      cases h'
  constructor
  · intro h
    have heq := hlong.symm.trans (h.longimmed.trans hbig)
    simpa using heq
  · intro h
    rw [h] at hlong
    refine ⟨e.build_immed_long b hbig h, hlong.trans hbig.symm, fun hfalse => ?_⟩
    rw [hlong] at hfalse
    cases hfalse

theorem even_of_ranges (heven : ∀ tok ∈ e.bits, tok.Ranges EvenRange) :
    (evalImmed b (crunch e.ty e.bits).immed).getLsbD 0 = false := by
  refine evalImmed_of_terms (P := fun v => v.getLsbD 0 = false) (by simp) ?_ fun term hterm => ?_
  · intro v w hv hw
    rw [BitVec.getLsbD_or, hv, hw]
    rfl
  · obtain ⟨signed, pos, r, hr, rfl⟩ := crunch_terms e.ty heven term hterm
    exact rangeTerm_even hr pos b

end

/-! ## RVC.bits -/

theorem rvc_ranges (op : COp) : (∀ tok ∈ (rvcEntry op).bits, tok.Ranges ShortRange) ∨
    (crunch (rvcEntry op).ty (rvcEntry op).bits).bigimm = true ∧
      ∀ tok ∈ (rvcEntry op).bits, tok.Ranges EvenRange := by
  cases op
  case c_lui =>
    right
    decide
  all_goals
    left
    decide

/-! ## parse_opcodes -/

theorem replace_ranges {P : Bool → Nat × Nat → Prop} (fp : FpName) {tok : Token} :
    (tok.replace fp).Ranges P ↔ tok.Ranges P := by
  cases tok <;> exact Iff.rfl

theorem replace_isBig (fp : FpName) (tok : Token) : (tok.replace fp).isBig = tok.isBig := by
  cases tok <;> rfl

theorem str_arg_ranges {P : Bool → Nat × Nat → Prop} {a : ArgName} (h : (argToken a).Ranges P) (l : OpLine) :
    (str_arg a l).Ranges P := by
  unfold str_arg
  split
  · exact h
  · trivial

@[simp] theorem binary_ranges (P : Bool → Nat × Nat → Prop) (m : BitVec 32) (start len : Nat) :
    (binary m start len).Ranges P := trivial

/-- The arguments whose immediate is short, and the registers. -/
theorem argToken_short {a : ArgName} (h : a ≠ .imm20 ∧ a ≠ .jimm20) : (argToken a).Ranges ShortRange := by
  cases a <;> revert h <;> decide

@[simp] theorem str_arg_short {a : ArgName} (h : a ≠ .imm20 ∧ a ≠ .jimm20) (l : OpLine) :
    (str_arg a l).Ranges ShortRange :=
  str_arg_ranges (argToken_short h) l

theorem str_arg_even {a : ArgName} (h : a ∈ [ArgName.imm20, .jimm20, .rd]) (l : OpLine) :
    (str_arg a l).Ranges EvenRange := by
  refine str_arg_ranges ?_ l
  cases a <;> revert h <;> decide

/-- A CSR instruction with an immediate operand, as riscv-opcodes lists it. -/
structure CsrImmed (l : OpLine) : Prop where
  kind : l.kind = .csr true
  imm12 : .imm12 ∈ l.arguments
  rs1 : .rs1 ∈ l.arguments
  others : ∀ arg ∈ [ArgName.aqrl, .shamt, .shamtw, .imm20, .jimm20], arg ∉ l.arguments

/-- A template all of whose ranges are short, or a long one that leaves out bit 0. -/
def Consistent (t : Template) : Prop := (∀ tok ∈ t, tok.Ranges ShortRange) ∨
  t.any Token.isBig = true ∧ ∀ tok ∈ t, tok.Ranges EvenRange

/-- A CSR line is consistent unless it has both an immediate operand and a CSR number. -/
theorem print_csr_consistent {i : Bool} {l : OpLine}
    (h : ¬((i = true ∧ ArgName.rs1 ∈ l.arguments) ∧ ArgName.imm12 ∈ l.arguments)) :
    Consistent (print_csr_type i l) := by
  unfold Consistent print_csr_type
  by_cases hrs1 : i = true ∧ ArgName.rs1 ∈ l.arguments
  · -- the CSR number is fixed: only the upper range is there
    right
    rw [if_neg (fun h12 => h ⟨hrs1, h12⟩), if_pos hrs1]
    simp only [List.any_cons, List.forall_mem_cons]
    refine ⟨by simp [Token.isBig], ?_, ⟨by decide, by simp⟩, trivial, str_arg_ranges (by decide) l,
      trivial, by simp⟩
    unfold str_arg
    rw [if_neg (fun h12 => h ⟨hrs1, h12⟩)]
    trivial
  · left
    rw [if_neg hrs1]
    simp only [List.forall_mem_cons]
    refine ⟨?_, str_arg_short (by decide) l, trivial, str_arg_short (by decide) l, trivial, by simp⟩
    split
    · exact ⟨by decide, by simp⟩
    · exact str_arg_short (by decide) l

theorem consistent_ite {c : Prop} [Decidable c] {t t' : Template} (h : c → Consistent t)
    (h' : ¬c → Consistent t') : Consistent (if c then t else t') := by
  by_cases hc : c
  · rw [if_pos hc]
    exact h hc
  · rw [if_neg hc]
    exact h' hc

/-- What `print_inst` makes of any other line. -/
theorem print_inst_consistent {l : OpLine} (h : ¬CsrImmed l) : Consistent (print_inst l) := by
  unfold print_inst
  refine consistent_ite (fun _ => Or.inl (by simp [print_fence_type])) fun _ => ?_
  refine consistent_ite (fun _ => Or.inl (by simp [print_amo_type])) fun haq => ?_
  refine consistent_ite (fun _ => Or.inl (by simp [print_ish_type])) fun hsh => ?_
  refine consistent_ite (fun _ => Or.inl (by simp [print_ishw_type])) fun hshw => ?_
  refine consistent_ite (fun himm => Or.inr ⟨?_, ?_⟩) fun h20 => ?_
  · simp [print_u_type, str_arg, himm, argToken, Token.isBig]
  · simp [print_u_type, str_arg_even]
  refine consistent_ite (fun himm => Or.inr ⟨?_, ?_⟩) fun hj20 => ?_
  · simp [print_uj_type, str_arg, himm, argToken, Token.isBig]
  · simp [print_uj_type, str_arg_even]
  refine consistent_ite (fun hcsr => ?_) fun _ => ?_
  · refine print_csr_consistent fun hboth => h ⟨hcsr, hboth.2, hboth.1.2, ?_⟩
    simp [haq, hsh, hshw, h20, hj20]
  refine consistent_ite (fun _ => ?_) fun _ => ?_
  · exact print_csr_consistent fun hboth => Bool.false_ne_true hboth.1.1
  refine consistent_ite (fun _ => Or.inl (by simp [print_i_type])) fun _ => ?_
  refine consistent_ite (fun _ => Or.inl (by simp [print_s_type])) fun _ => ?_
  refine consistent_ite (fun _ => Or.inl (by simp [print_sb_type])) fun _ => ?_
  refine consistent_ite (fun _ => Or.inl (by simp [print_r4_type])) fun _ => ?_
  refine consistent_ite (fun _ => Or.inl ?_) fun _ => Or.inl ?_
  · have hvs2 := str_arg_short (a := if .vs2 ∈ l.arguments then .vs2 else .rs2) (by split_ifs <;> decide) l
    have hvs1 := str_arg_short (a := if .vs1 ∈ l.arguments then .vs1 else .rs1) (by split_ifs <;> decide) l
    have hvd := str_arg_short (a := if .vd ∈ l.arguments then .vd else if .vs3 ∈ l.arguments then .vs3 else .rd)
      (by split_ifs <;> decide) l
    simp [print_v_type, hvs2, hvs1, hvd]
  · unfold print_r_type
    split <;> simp

/-- The CSR lines with an immediate operand: `x(15,5)<<12|x(20,12)`, long. -/
theorem csr_immed (op : Opcode) (fp : FpName) {l : OpLine} (h : CsrImmed l) :
    (crunch (Listing.line op fp l).entry.ty (Listing.line op fp l).entry.bits).bigimm = true ∧
    (crunch (Listing.line op fp l).entry.ty (Listing.line op fp l).entry.bits).immed
      = [.x 15 5 12, .x 20 12 0] := by
  have hprint : print_inst l = [.imm false (11, 0) [], .imm false (16, 12) [], binary l.match 12 3,
      str_arg .rd l, binary l.match 0 7] := by
    have hothers := h.others
    simp only [List.forall_mem_cons] at hothers
    obtain ⟨haq, hsh, hshw, h20, hj20, -⟩ := hothers
    unfold print_inst print_csr_type
    rw [h.kind, if_neg (by decide), if_neg haq, if_neg hsh, if_neg hshw, if_neg h20, if_neg hj20, if_pos rfl,
      if_pos h.imm12, if_pos ⟨rfl, h.rs1⟩]
  show (crunch .plain ((print_inst l).map (Token.replace fp))).bigimm = true ∧
    (crunch .plain ((print_inst l).map (Token.replace fp))).immed = _
  rw [hprint]
  unfold str_arg
  split
  · cases fp <;> exact ⟨rfl, rfl⟩
  · exact ⟨rfl, rfl⟩

theorem csr_bit (b : BitVec 32) : (evalImmed b [.x 15 5 12, .x 20 12 0]).getLsbD 0 = b.getLsbD 20 := by
  have hlow : (xField b 20 12).getLsbD 0 = b.getLsbD 20 := by
    unfold xField
    rw [Lib.getLsbD_shiftField b (by omega) (by omega)]
    rfl
  simpa [evalImmed, Term.eval] using hlow

/-! ## All of them -/

/-- A CSR line with an immediate operand and a word with an odd CSR number. -/
def Listing.OddCsr (b : BitVec 32) : Listing → Prop
  | .rvc _ => False
  | .line _ _ l => CsrImmed l ∧ b.getLsbD 20 = true

/-- **Immediates.** Every immediate that the generator stores comes back, and in its form, unless
a CSR instruction with an immediate operand names an odd CSR. -/
theorem immed_iff (s : Listing) (hpass : PassesImmed s.entry) (b : BitVec 32) :
    StoresImmed s.entry b ↔ ¬s.OddCsr b := by
  cases s with
  | rvc op =>
    refine iff_of_true ?_ not_false
    rcases rvc_ranges op with hshort | ⟨hbig, heven⟩
    · exact storesImmed_short b hshort hpass
    · exact (storesImmed_long b hbig).mpr (even_of_ranges b heven)
  | line op fp l =>
    by_cases hcsr : CsrImmed l
    · obtain ⟨hbig, himm⟩ := csr_immed op fp hcsr
      rw [storesImmed_long b hbig, himm]
      show _ ↔ ¬(CsrImmed l ∧ b.getLsbD 20 = true)
      rw [csr_bit, ← Bool.not_eq_true]
      exact not_congr (and_iff_right hcsr).symm
    · refine iff_of_true ?_ fun h => hcsr h.1
      have hreplace (P : Bool → Nat × Nat → Prop) (h : ∀ tok ∈ print_inst l, tok.Ranges P) :
          ∀ tok ∈ (Listing.line op fp l).entry.bits, tok.Ranges P := by
        intro tok htok
        obtain ⟨tok', htok', rfl⟩ := List.mem_map.mp htok
        exact (replace_ranges fp).mpr (h tok' htok')
      rcases print_inst_consistent hcsr with hshort | ⟨hbig, heven⟩
      · exact storesImmed_short b (hreplace _ hshort) hpass
      · refine (storesImmed_long b ?_).mpr (even_of_ranges b (hreplace _ heven))
        rw [crunch_bigimm]
        show ((print_inst l).map (Token.replace fp)).any Token.isBig = true
        rw [List.any_map, ← hbig]
        exact congrArg (print_inst l).any (funext fun tok => replace_isBig fp tok)

/-- c.addi has no CSR. -/
theorem immed_iff_c_addi : StoresImmed (rvcEntry .c_addi) 0x0001 :=
  (immed_iff (.rvc .c_addi) (Or.inr ⟨by decide, by decide⟩) 0x0001).mpr id

/-- csrrwi, with the arguments of riscv-opcodes. -/
def csrrwi : Listing := .line (.spike (.other 0)) .none ⟨.csr true, 0x00005073, [.rd, .rs1, .imm12]⟩

/-- `csrrwi t0,fflags,3`: the word says 0x3001, the descriptor 0x600. -/
theorem csrrwi_fflags :
    PassesImmed csrrwi.entry ∧ csrrwi.entry.test 0x0011d2f3 = true ∧
    evalImmed 0x0011d2f3 (crunch csrrwi.entry.ty csrrwi.entry.bits).immed = 0x3001 ∧
    (csrrwi.entry.build 0x0011d2f3).immed = 0x600 ∧ (crunch csrrwi.entry.ty csrrwi.entry.bits).bigimm = true ∧
    (csrrwi.entry.build 0x0011d2f3).longimmed = false ∧ ¬StoresImmed csrrwi.entry 0x0011d2f3 := by
  have hlong : (csrrwi.entry.build 0x0011d2f3).longimmed = false := by decide
  have hbig : (crunch csrrwi.entry.ty csrrwi.entry.bits).bigimm = true := by decide
  refine ⟨Or.inl hbig, by decide, by decide, by decide, hbig, hlong, ?_⟩
  intro h
  have heq := h.longimmed
  rw [hlong, hbig] at heq
  cases heq

end Cavatools.Uspike
