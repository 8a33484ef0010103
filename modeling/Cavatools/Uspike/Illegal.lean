import Cavatools.Uspike.Headers
import Cavatools.Uspike.RvcDecode

/-!
# Words that are no instruction

The masks of decoder.h fix digits and cannot say that a field is not zero, so
the words the manual reserves for a zero field decode to the instruction they
would be. The lines of RV.fast do not look either. A word that no template
matches decodes to UNKNOWN; but UNKNOWN has no template, and `golden` no
function for it. So neither kind ends in `I_UNKNOWN` or `I_ILLEGAL`, the
handlers that are there for them.

`Undefined` are these words: compressed ones with a field that must not be
zero (`ZeroField`), which are no instruction of the manual
(`not_legal_of_zeroField`), and words that no template matches. `Refused` is
what the handlers are for. A word is refused if its descriptor has one of
their opcodes and the table has the handler for it; the switch then comes to
the handler, which dies (`Refused.dispatch`).

Of the first kind, decoding gives the opcode of the zero field itself, since
its template is the only one that matches (`decoder_zeroField`), and that has
a line (`fast_isSome_of_zeroField`). Of the second, it gives UNKNOWN, whose
entry in the table is null (`golden_unknown`), so the call is one of nothing.
`undefined_not_refused` is the result for every such word and any list of
further templates.
-/

namespace Cavatools.Uspike

open Riscv

/-- The field that the manual wants not to be zero. -/
def ZeroField (w : BitVec 32) : COp → Prop
  | .c_addi4spn => w.extractLsb' 5 8 = 0
  | .c_addi16sp | .c_lui => w.extractLsb' 12 1 = 0 ∧ w.extractLsb' 2 5 = 0
  | .c_addiw | .c_lwsp | .c_ldsp | .c_jr => w.extractLsb' 7 5 = 0
  | _ => False

/-- A word that is no defined instruction: a reserved compressed one, or one of no template. -/
def Undefined (chain : List Entry) (w : BitVec 32) : Prop :=
  (∃ op, (rvcEntry op).test w = true ∧ ZeroField w op) ∨ ∀ e ∈ chain, e.test w = false

/-- A word that ends in one of the handlers `I_ILLEGAL` and `I_UNKNOWN`. -/
structure Refused (chain : List Entry) (w : BitVec 32) : Prop where
  opcode : (decoder chain w).opcode = .ILLEGAL ∨ (decoder chain w).opcode = .UNKNOWN
  handler : ∀ {F : Type} (I : Opcode → F),
    golden chain I (decoder chain w).opcode = some (I (decoder chain w).opcode)

variable {tail : List Entry} {w : BitVec 32}

/-- The switch of the interpreter comes to the handler of a refused word, which dies. -/
theorem Refused.dispatch {σ τ : Type} {env : Env σ τ} {chain : List Entry} (h : Refused chain w)
    {I : Opcode → Long → Machine σ τ → Golden σ τ} (hgolden : env.golden = golden chain I)
    (hdie : ∀ op, op = .ILLEGAL ∨ op = .UNKNOWN → ∀ pc m, I op pc m = .die m) (insns : Int) (pc : Long)
    (hart : Hart σ τ) : dispatch env insns (decoder chain w) pc hart = .stop (.crash hart.toMachine) := by
  have hecall : (decoder chain w).opcode ≠ .fast .ecall := by
    rcases h.opcode with hop | hop <;> rw [hop] <;> exact Opcode.noConfusion
  have haction : (decoder chain w).opcode.action (decoder chain w) pc env.mmu env.code
      = (none : Option (Act σ τ Long)) := by
    rcases h.opcode with hop | hop <;> rw [hop] <;> rfl
  unfold Uspike.dispatch
  rw [if_neg hecall, haction]
  dsimp only
  rw [hgolden, h.handler I]
  dsimp only
  rw [hdie _ h.opcode]

/-! ## The zero fields -/

/-- What a word with a zero field decodes to. -/
theorem decoder_zeroField {op : COp} (htest : (rvcEntry op).test w = true) (hzero : ZeroField w op)
    (tail : List Entry) : ∃ op', ZeroField w op' ∧ decoder (rvcChain ++ tail) w = (rvcEntry op').build w := by
  by_cases hlui : op = .c_lui ∧ (rvcEntry .c_addi16sp).test w = true
  · obtain ⟨rfl, h16⟩ := hlui
    exact ⟨.c_addi16sp, hzero, rvc_first_of_test h16 (by simp [shadows]) tail⟩
  · refine ⟨op, hzero, rvc_first_of_test htest ?_ tail⟩
    intro op' hs
    cases op with
    | c_lui =>
      obtain rfl : op' = .c_addi16sp := by simpa [shadows] using hs
      simpa using hlui
    | c_mv | c_jalr | c_add => exact absurd hzero id
    | _ => cases hs

/-- Such a word is no instruction of the manual. -/
theorem not_legal_of_zeroField {op : COp} (htest : (rvcEntry op).test w = true) (hzero : ZeroField w op)
    (op' : COp) : ¬Legal (w.setWidth 16) op' := by
  intro hlegal
  obtain ⟨op₀, hzero₀, hdec⟩ := decoder_zeroField htest hzero []
  have hsame := congrArg Insn.opcode ((rvc_first hlegal []).symm.trans hdec)
  rw [Entry.build_opcode, Entry.build_opcode] at hsame
  obtain rfl : op' = op₀ := Opcode.c.inj hsame
  cases op' <;>
    simp only [ZeroField, Legal, cFunct1, cRd, cRs2, extract_low, Nat.reduceAdd, Nat.reduceLeDiff]
      at hzero₀ hlegal
  case c_addi4spn => exact hlegal.2.2 hzero₀
  case c_addiw | c_lwsp | c_ldsp => exact hlegal.2.2 hzero₀
  case c_jr => exact hlegal.2.2.2.1 hzero₀
  case c_addi16sp | c_lui => exact hlegal.2.2.2.elim (fun h => h hzero₀.1) fun h => h hzero₀.2

/-- Every one of these opcodes has a line in RV.fast. -/
theorem fast_isSome_of_zeroField {σ τ : Type} {op : COp} (hzero : ZeroField w op) (i : Insn) (pc : Long)
    (mmu : Mmu σ) : (op.fast i pc mmu : Option (Act σ τ Long)).isSome := by
  cases op <;> first | rfl | exact absurd hzero id

/-! ## No template -/

theorem golden_none {F : Type} {chain : List Entry} {op : Opcode} (h : ∀ e ∈ chain, e.op ≠ op)
    (I : Opcode → F) : golden chain I op = none := by
  unfold golden
  rw [if_neg]
  simpa using h

/-- UNKNOWN has no function. -/
theorem golden_unknown (htail : FullSize tail) {F : Type} (I : Opcode → F) :
    golden (rvcChain ++ tail) I .UNKNOWN = none := by
  refine golden_none ?_ I
  intro e he
  rcases List.mem_append.mp he with hrvc | ht
  · obtain ⟨op, -, rfl⟩ := List.mem_map.mp hrvc
    exact Opcode.noConfusion
  · rcases htail e ht with ⟨op, hop⟩ | ⟨op, hop⟩
    · rw [hop]
      exact Opcode.noConfusion
    · rw [hop]
      exact Opcode.noConfusion

theorem decoder_unmatched {chain : List Entry} (h : ∀ e ∈ chain, e.test w = false) :
    decoder chain w = .ofCode .UNKNOWN := by
  have hnone : chain.find? (fun e => e.test w) = none := by
    rw [List.find?_eq_none]
    intro e he
    rw [h e he]
    exact Bool.false_ne_true
  unfold decoder
  rw [hnone]

/-- **No undefined word is refused**: it is the line of an ordinary instruction, or a call of
nothing. -/
theorem undefined_not_refused (htail : FullSize tail) (h : Undefined (rvcChain ++ tail) w) :
    ¬Refused (rvcChain ++ tail) w ∧
    ((∃ op, (decoder (rvcChain ++ tail) w).opcode = .c op ∧
        ∀ {σ τ : Type} (mmu : Mmu σ) (code : InsnSpace) (pc : Long),
          ((decoder (rvcChain ++ tail) w).opcode.action (decoder (rvcChain ++ tail) w) pc mmu code :
            Option (Act σ τ Long)).isSome) ∨
      (decoder (rvcChain ++ tail) w).opcode = .UNKNOWN ∧
        ∀ {F : Type} (I : Opcode → F),
          golden (rvcChain ++ tail) I (decoder (rvcChain ++ tail) w).opcode = none) := by
  rcases h with ⟨op, htest, hzero⟩ | hnone
  · obtain ⟨op', hzero', hdec⟩ := decoder_zeroField htest hzero tail
    have hop : (decoder (rvcChain ++ tail) w).opcode = .c op' := by
      rw [hdec, Entry.build_opcode]
      rfl
    constructor
    · intro hrefused
      rcases hrefused.opcode with h | h <;> rw [hop] at h <;> cases h
    · refine Or.inl ⟨op', hop, fun mmu code pc => ?_⟩
      rw [hop]
      exact fast_isSome_of_zeroField hzero' _ pc mmu
  · have hop : (decoder (rvcChain ++ tail) w).opcode = .UNKNOWN := by
      rw [decoder_unmatched hnone]
      rfl
    constructor
    · intro hrefused
      have hcall := hrefused.handler id
      rw [hop, golden_unknown htail] at hcall
      cases hcall
    · refine Or.inr ⟨hop, fun I => ?_⟩
      rw [hop]
      exact golden_unknown htail I

/-- Zeroed memory is c.addi4spn. -/
theorem undefined_not_refused_zero : ¬Refused listedChain 0 :=
  (undefined_not_refused fullSize_listedTail (Or.inl ⟨.c_addi4spn, by decide, by unfold ZeroField; decide⟩)).1

/-- The halfword 0 decodes to c.addi4spn, and 0x8000 to UNKNOWN, whose entry is null. -/
theorem zero_word_ordinary :
    (Undefined listedChain 0x00000000 ∧ ¬Refused listedChain 0x00000000) ∧
    Undefined listedChain 0x00008000 ∧ ¬Refused listedChain 0x00008000 := by
  have hzero : (decoder listedChain 0x00000000).opcode = .c .c_addi4spn := by decide
  have hunknown : (decoder listedChain 0x00008000).opcode = .UNKNOWN := by decide
  refine ⟨⟨Or.inl ⟨.c_addi4spn, by decide, by unfold ZeroField; decide⟩, ?_⟩, Or.inr (by decide), ?_⟩
  · intro h
    rcases h.opcode with hop | hop <;> rw [hzero] at hop <;> cases hop
  · intro h
    have hcall := h.handler id
    rw [hunknown, golden_unknown fullSize_listedTail] at hcall
    cases hcall

end Cavatools.Uspike
