import Cavatools.Uspike.Headers
import Cavatools.Uspike.Loadelf

/-!
# The text after `loadelf`

What the two sweeps leave, for any bytes. Every start holds what the decoder
made of it, or the compare-and-swap of a sequence, no load-reserved is left,
and the slots in between stay ZERO, which is how erised finds its way back
(`loadelf_text`). All this is `TextOf`, which is stated once and used by
everything that runs on a loaded text.

The starts are the places that the first sweep visits (`Start`), and the
second visits the same ones, since a compare-and-swap has the length of the
load-reserved that it replaces. So the text is what the first loop filled,
filled again by the second (`loadelf_text_iff`, `casSweep_filled`).

Two things go wrong for some texts, and the conditions for them are exact. The
loops look past the end: a text of an odd number of bytes has a start without
a slot, and a load-reserved at the end of the text, or a branch behind one,
makes the matcher look further (`LooksInside`, `loadelf_in_range_iff`). And a
halfword that no template matches takes four bytes, because UNKNOWN is not
among the compressed opcodes; the starts then are not those of a parse by the
two low bits of each halfword (`stride_iff`).

The lemmas of the middle section read a text: at a start (`TextOf.at_start`),
between starts (`TextOf.ne_zero` and what follows it), and that every address
of the table is reached.
-/

namespace Cavatools.Uspike

open Riscv Lib.Sweep

variable (chain : List Entry) (mem : Mem) (base limit entry : Long)

/-- The instruction starts of the text, as the sweeps take them. -/
def Start (q : Int) : Prop := Visits (strideAt chain mem) limit.toInt base.toInt q

/-- What `loadelf` leaves when it returns. -/
structure TextOf (code : InsnSpace) : Prop where
  base_eq : code.base = base
  limit_eq : code.limit = limit
  entry_eq : code.entry = entry
  length : (code.predecoded.length : Int) = slotCount base limit
  start : ∀ q, Start chain mem base limit q →
    code.predecoded[code.slotOf q]? = some (finalAt chain mem limit.toInt q)
  rest : ∀ k < code.predecoded.length, (∀ q, Start chain mem base limit q → code.slotOf q ≠ k) →
    code.predecoded[k]? = some ⟨.ZERO, 0, 0, 0, 0, 0⟩
  matched : ∀ q, Start chain mem base limit q → (insnAt chain mem q).isLr →
    (matchAt chain mem limit.toInt q).join.isSome

variable {chain mem base limit entry}

theorem slotCount_lt (base limit : Long) : slotCount base limit < 2 ^ 31 := BitVec.toInt_lt

theorem length_emptyText : (emptyText base limit entry).predecoded.length = (slotCount base limit).toNat :=
  List.length_replicate

/-- The first loop on the empty text. -/
theorem predecode_empty :
    (∀ code, predecode chain mem limit.toInt base.toInt (emptyText base limit entry) = some code →
      Filled chain mem (insnAt chain mem) base.toInt (emptyText base limit entry) code) ∧
    ((predecode chain mem limit.toInt base.toInt (emptyText base limit entry)).isSome ↔
      ∀ q, Start chain mem base limit q → (q - base.toInt) / 2 < slotCount base limit) := by
  have hlo : (emptyText base limit entry).base.toInt ≤ base.toInt := le_rfl
  have hspec := @predecode_spec chain mem base.toInt (emptyText base limit entry) hlo (by simp [emptyText])
  refine ⟨hspec.1, hspec.2.trans (forall_congr' fun q => imp_congr_right fun hq => ?_)⟩
  rw [length_emptyText]
  have hle := hq.1.le (strideAt_pos chain mem)
  unfold InsnSpace.slotOf
  show ((q - base.toInt) / 2).toNat < _ ↔ _
  omega

/-- The matcher never looks past the end. -/
def LooksInside (chain : List Entry) (mem : Mem) (hi q : Int) : Prop :=
  (insnAt chain mem q).isLr → q + 4 < hi ∧
    ((insnAt chain mem (q + 4)).opcode = .fast .bne ∨ (insnAt chain mem (q + 4)).opcode = .c .c_bnez →
      q + 4 + branchLen (insnAt chain mem (q + 4)) < hi)

/-- The matcher has an answer exactly where it never looks past the end. -/
theorem matchAt_isSome_iff {hi q : Int} : (matchAt chain mem hi q).isSome ↔ LooksInside chain mem hi q := by
  unfold matchAt LooksInside
  dsimp only
  by_cases hlr : (insnAt chain mem q).isLr
  swap
  · rw [if_pos hlr]
    exact iff_of_true rfl fun h => absurd h hlr
  rw [if_neg (not_not.mpr hlr)]
  by_cases hlim : q + 4 < hi
  swap
  · rw [if_pos hlim]
    exact iff_of_false (by simp) fun h => hlim (h hlr).1
  rw [if_neg (not_not.mpr hlim)]
  by_cases hbr : (insnAt chain mem (q + 4)).opcode ≠ .fast .bne ∧ (insnAt chain mem (q + 4)).opcode ≠ .c .c_bnez
  · rw [if_pos hbr]
    exact iff_of_true rfl fun _ => ⟨hlim, fun h => absurd h (not_or.mpr hbr)⟩
  rw [if_neg hbr]
  have hbranch := (not_and_or.mp hbr).imp not_not.mp not_not.mp
  by_cases hlim3 : q + 4 + branchLen (insnAt chain mem (q + 4)) < hi
  swap
  · rw [if_pos hlim3]
    exact iff_of_false (by simp) fun h => hlim3 ((h hlr).2 hbranch)
  rw [if_neg (not_not.mpr hlim3)]
  refine iff_of_true ?_ fun _ => ⟨hlim, fun _ => hlim3⟩
  split <;> rfl

theorem slotOf_congr {code code' : InsnSpace} (h : code.base = code'.base) (q : Int) :
    code.slotOf q = code'.slotOf q := by
  unfold InsnSpace.slotOf
  rw [h]

/-- The second loop on what the first has left. -/
theorem casSweep_filled {code : InsnSpace}
    (h : Filled chain mem (insnAt chain mem) base.toInt (emptyText base limit entry) code) :
    (∀ code' possible replaced, casSweep limit.toInt base.toInt code 0 0 = some (code', possible, replaced) →
      Filled chain mem (finalAt chain mem limit.toInt) base.toInt code code' ∧
      (replaced = possible ↔ ¬ Unmatched chain mem limit.toInt base.toInt)) ∧
    ((casSweep limit.toInt base.toInt code 0 0).isSome ↔
      ∀ q, Start chain mem base limit q → LooksInside chain mem limit.toInt q) := by
  have hlimit : code.limit = limit := h.limit
  have hbase : code.base = base := h.base
  have hlen : code.predecoded.length < 2 ^ 62 := by
    have hlt := slotCount_lt base limit
    rw [h.length, length_emptyText]
    omega
  have hd : DecodedFrom chain mem base.toInt code := by
    intro q hq
    rw [hlimit] at hq
    rw [slotOf_congr h.base]
    exact h.visited q hq
  have hlo : code.base.toInt ≤ base.toInt := by rw [hbase]
  have hspec := casSweep_spec hlo (by rw [hbase]; simp) hlen hd (le_refl 0)
  rw [hlimit] at hspec
  refine ⟨fun code' p r hrun => ?_,
    hspec.2.trans (forall_congr' fun q => imp_congr_right fun _ => matchAt_isSome_iff)⟩
  obtain ⟨hfill, -, hiff⟩ := hspec.1 code' p r hrun
  exact ⟨hfill, hiff.trans (and_iff_right rfl)⟩

/-- **Bounds.** -/
theorem loadelf_in_range_iff (chain : List Entry) (mem : Mem) (base limit entry : Long) :
    loadelf chain mem base limit entry ≠ .bad_access ↔
      slotCount base limit < 0 ∨ ∀ q, Start chain mem base limit q →
        (q - base.toInt) / 2 < slotCount base limit ∧ LooksInside chain mem limit.toInt q := by
  obtain ⟨hspec, hsome⟩ := @predecode_empty chain mem base limit entry
  unfold loadelf
  by_cases hneg : slotCount base limit < 0
  · rw [if_pos hneg]
    exact iff_of_true (by simp) (Or.inl hneg)
  rw [if_neg hneg, or_iff_right hneg]
  cases hpre : predecode chain mem limit.toInt base.toInt (emptyText base limit entry) with
  | none =>
    rw [hpre] at hsome
    refine iff_of_false (by simp) fun h => ?_
    have := hsome.mpr fun q hq => (h q hq).1
    cases this
  | some code =>
    rw [hpre] at hsome
    have hslots := hsome.mp rfl
    obtain ⟨hcas, hcasSome⟩ := casSweep_filled (hspec code hpre)
    dsimp only
    cases hrun : casSweep limit.toInt base.toInt code 0 0 with
    | none =>
      rw [hrun] at hcasSome
      refine iff_of_false (by simp) fun h => ?_
      have := hcasSome.mpr fun q hq => (h q hq).2
      cases this
    | some r =>
      rw [hrun] at hcasSome
      have hinside := hcasSome.mp rfl
      refine iff_of_true ?_ fun q hq => ⟨hslots q hq, hinside q hq⟩
      dsimp only
      split <;> exact Loaded.noConfusion

/-- The bytes of `lrscText`. -/
def lrscMem : Mem :=
  ((Mem.store (fun _ => 0) 0x1000 4 0x100527af#32).store 0x1004 4 0x00e79863#32).store 0x1008 4 0x18c526af#32

/-- One byte of text has no slot; and a load-reserved at the end of the text, or a branch behind
one, makes the matcher look past it. -/
theorem loadelf_out_of_range :
    loadelf listedChain lrscMem 0x1000 0x1001 0x1000 = .bad_access ∧
    loadelf listedChain lrscMem 0x1000 0x1004 0x1000 = .bad_access ∧
    loadelf listedChain lrscMem 0x1000 0x1008 0x1000 = .bad_access := by
  refine ⟨?_, ?_, ?_⟩
  · unfold loadelf
    rw [if_neg (by decide), predecode, if_pos (by decide)]
    rfl
  · have hpre : predecode listedChain lrscMem (0x1004 : Long).toInt (0x1000 : Long).toInt
        (emptyText 0x1000 0x1004 0x1000) = some
          ((emptyText 0x1000 0x1004 0x1000).set 0x1000 (decoder listedChain 0x100527af)) := by
      rw [predecode, if_pos (by decide)]
      show predecode listedChain lrscMem 0x1004 0x1004 _ = _
      rw [predecode, if_neg (by decide)]
      rfl
    unfold loadelf
    rw [if_neg (by decide), hpre]
    dsimp only
    rw [casSweep, if_pos (by decide)]
    rfl
  · have hpre : predecode listedChain lrscMem (0x1008 : Long).toInt (0x1000 : Long).toInt
        (emptyText 0x1000 0x1008 0x1000) = some
          (((emptyText 0x1000 0x1008 0x1000).set 0x1000 (decoder listedChain 0x100527af)).set 0x1004
            (decoder listedChain 0x00e79863)) := by
      rw [predecode, if_pos (by decide)]
      show predecode listedChain lrscMem 0x1008 0x1004 _ = _
      rw [predecode, if_pos (by decide)]
      show predecode listedChain lrscMem 0x1008 0x1008 _ = _
      rw [predecode, if_neg (by decide)]
      rfl
    unfold loadelf
    rw [if_neg (by decide), hpre]
    dsimp only
    rw [casSweep, if_pos (by decide)]
    rfl

/-- What a text is made of: what the first loop filled, filled again by the second. -/
theorem loadelf_text_iff {code : InsnSpace} : loadelf chain mem base limit entry = .text code ↔
    0 ≤ slotCount base limit ∧
    ∃ code₀, predecode chain mem limit.toInt base.toInt (emptyText base limit entry) = some code₀ ∧
      substitute_cas code₀ base limit = some code := by
  unfold loadelf substitute_cas
  by_cases hneg : slotCount base limit < 0
  · rw [if_pos hneg]
    exact iff_of_false (by simp) fun h => absurd h.1 (not_le.mpr hneg)
  rw [if_neg hneg, and_iff_right (not_lt.mp hneg)]
  cases hpre : predecode chain mem limit.toInt base.toInt (emptyText base limit entry) with
  | none => exact iff_of_false (by simp) (by simp)
  | some code₀ =>
    simp only [Option.some.injEq, exists_eq_left']
    cases hrun : casSweep limit.toInt base.toInt code₀ 0 0 with
    | none => exact iff_of_false (by simp) (by simp)
    | some r =>
      obtain ⟨code', possible, replaced⟩ := r
      dsimp only
      by_cases hne : replaced ≠ possible
      · rw [if_pos hne, if_pos hne]
        exact iff_of_false (by simp) (by simp)
      · rw [if_neg hne, if_neg hne, Loaded.text.injEq, Option.some.injEq]

/-- The second loop has nothing to do in a text without a load-reserved. -/
theorem casSweep_plain {code : InsnSpace} (hplain : ∀ i ∈ code.predecoded, ¬i.isLr)
    (hslots : code.limit.toInt - code.base.toInt ≤ 2 * code.predecoded.length) {pc : Int}
    (hlo : code.base.toInt ≤ pc) (possible replaced : Nat) :
    casSweep code.limit.toInt pc code possible replaced = some (code, possible, replaced) := by
  rw [casSweep]
  by_cases hlt : pc < code.limit.toInt
  · have hslot : code.slotOf pc < code.predecoded.length := by
      unfold InsnSpace.slotOf
      omega
    have hat := InsnSpace.at_ofInt hlo (InsnSpace.lt_of_lt_limit hlt)
    rw [if_pos hlt, List.getElem?_eq_getElem hslot] at hat
    have hlr := hplain _ (List.getElem_mem hslot)
    have hcas : casAt code (BitVec.ofInt 64 pc) = some none := by
      unfold casAt
      rw [hat]
      exact if_pos hlr
    have hle : pc ≤ pc + if code.predecoded[code.slotOf pc].compressed then 2 else 4 := by
      split <;> omega
    rw [if_pos hlt, hat, hcas]
    dsimp only
    rw [if_neg (show ¬(_ ∨ _) from hlr)]
    exact casSweep_plain hplain hslots (hlo.trans hle) possible replaced
  · rw [if_neg hlt]
termination_by (code.limit.toInt - pc).toNat
decreasing_by split <;> omega

/-- A text without a load-reserved is what the first loop leaves. -/
theorem loadelf_plain {code : InsnSpace} (hn : 0 ≤ slotCount base limit)
    (hpre : predecode chain mem limit.toInt base.toInt (emptyText base limit entry) = some code)
    (hplain : ∀ i ∈ code.predecoded, ¬i.isLr)
    (hslots : limit.toInt - base.toInt ≤ 2 * code.predecoded.length) :
    loadelf chain mem base limit entry = .text code := by
  have hfilled := predecode_empty.1 code hpre
  have hlimit : code.limit = limit := hfilled.limit
  have hbase : code.base = base := hfilled.base
  have hsweep := casSweep_plain hplain (by rw [hlimit, hbase]; exact hslots) (le_refl _) 0 0
  rw [hlimit, hbase] at hsweep
  refine loadelf_text_iff.mpr ⟨hn, code, hpre, ?_⟩
  unfold substitute_cas
  rw [hsweep]
  exact if_neg (fun h => h rfl)

/-- **What `loadelf` leaves** when it returns. -/
theorem loadelf_textOf {code : InsnSpace} (h : loadelf chain mem base limit entry = .text code) :
    TextOf chain mem base limit entry code := by
  obtain ⟨hcount, code₀, hpre, hsub⟩ := loadelf_text_iff.mp h
  have h₀ := predecode_empty.1 code₀ hpre
  unfold substitute_cas at hsub
  split at hsub
  · rename_i code' possible replaced hrun
    split at hsub
    · cases hsub
    rename_i heq
    cases hsub
    obtain ⟨hfill, hcounts⟩ := (casSweep_filled h₀).1 code possible replaced hrun
    have hlimit : code₀.limit = limit := h₀.limit
    refine ⟨hfill.base.trans h₀.base, hfill.limit.trans h₀.limit, hfill.entry.trans h₀.entry, ?_, ?_, ?_, ?_⟩
    · rw [hfill.length, h₀.length, length_emptyText]
      omega
    · intro q hq
      rw [slotOf_congr hfill.base]
      exact hfill.visited q (by rw [hlimit]; exact hq)
    · intro k hk hnone
      have hk₀ : k < (slotCount base limit).toNat := by
        rw [hfill.length, h₀.length, length_emptyText] at hk
        exact hk
      rw [hfill.rest k fun q hq => ?_, h₀.rest k fun q hq => ?_]
      · exact List.getElem?_replicate_of_lt hk₀
      · rw [← slotOf_congr (hfill.base.trans h₀.base)]
        exact hnone q hq
      · rw [← slotOf_congr hfill.base]
        exact hnone q (by rw [hlimit] at hq; exact hq)
    · intro q hq hlr
      by_contra hnot
      exact hcounts.mp (not_ne_iff.mp heq) ⟨q, hq, hlr, by simpa using hnot⟩
  · cases hsub

/-! ## The table -/

theorem finalAt_of_not_isLr {hi q : Int} (hlr : ¬(insnAt chain mem q).isLr) :
    finalAt chain mem hi q = insnAt chain mem q := by
  have hnone : matchAt chain mem hi q = some none := by
    unfold matchAt
    exact if_pos hlr
  unfold finalAt
  rw [hnone]
  rfl

section
variable {code : InsnSpace} (h : TextOf chain mem base limit entry code) {q : Int}
  (hq : Start chain mem base limit q)
include h hq

theorem TextOf.lo : code.base.toInt ≤ q := by
  rw [h.base_eq]
  exact hq.1.le (strideAt_pos chain mem)

theorem TextOf.lt_limit : q < code.limit.toInt := by
  rw [h.limit_eq]
  exact hq.2

theorem TextOf.even : 2 ∣ q - code.base.toInt := by
  rw [h.base_eq]
  exact hq.1.dvd (strideAt_even chain mem)

theorem TextOf.at_start : code.at (BitVec.ofInt 64 q) = some (finalAt chain mem limit.toInt q) := by
  rw [InsnSpace.at_ofInt (h.lo hq) (InsnSpace.lt_of_lt_limit (h.lt_limit hq)), if_pos (h.lt_limit hq)]
  exact h.start q hq

/-- A start holds what was decoded, which is no load-reserved, or a compare-and-swap. -/
theorem TextOf.final_cases :
    finalAt chain mem limit.toInt q = insnAt chain mem q ∧ ¬(insnAt chain mem q).isLr ∨
      (finalAt chain mem limit.toInt q).isCas := by
  by_cases hlr : (insnAt chain mem q).isLr
  · obtain ⟨c, hc⟩ := Option.isSome_iff_exists.mp (h.matched q hq hlr)
    obtain ⟨-, i2, i3, hcas⟩ := matchAt_spec (Option.join_eq_some_iff.mp hc)
    right
    unfold finalAt
    rw [hc]
    exact casInsn_isCas hcas
  · exact Or.inl ⟨finalAt_of_not_isLr hlr, hlr⟩

theorem TextOf.not_isLr : ¬(finalAt chain mem limit.toInt q).isLr := by
  rcases h.final_cases hq with ⟨heq, hlr⟩ | hcas
  · rw [heq]
    exact hlr
  · exact fun hlr => not_isCas_of_isLr hlr hcas

theorem TextOf.ne_zero (hzero : ∀ w, (decoder chain w).opcode ≠ .ZERO) :
    (finalAt chain mem limit.toInt q).opcode ≠ .ZERO := by
  rcases h.final_cases hq with ⟨heq, -⟩ | hcas
  · rw [heq]
    exact hzero _
  · rcases hcas with hop | hop | hop | hop <;> rw [hop] <;> exact Opcode.noConfusion

end

theorem TextOf.opcode_rest {code : InsnSpace} (h : TextOf chain mem base limit entry code) {k : Nat} {i : Insn}
    (hi : code.predecoded[k]? = some i) (hk : ∀ q, Start chain mem base limit q → code.slotOf q ≠ k) :
    i.opcode = .ZERO := by
  have hrest := h.rest k (List.getElem?_eq_some_iff.mp hi).1 hk
  rw [hi, Option.some_inj] at hrest
  rw [hrest]
  rfl

/-- erised's step back: `2` if `code.at(pc-2)` is not ZERO, else `4`. -/
def scrollBack (code : InsnSpace) (pc : Long) : Option Long :=
  (code.at (pc - 2)).map fun i => pc - if i.opcode ≠ .ZERO then 2 else 4

/-- The step back from a start lands on the one before. -/
theorem TextOf.scrollBack {code : InsnSpace} (h : TextOf chain mem base limit entry code)
    (hzero : ∀ w, (decoder chain w).opcode ≠ .ZERO) {p : Int} (hp : Start chain mem base limit p)
    (hq : Start chain mem base limit (p + strideAt chain mem p)) :
    scrollBack code (BitVec.ofInt 64 (p + strideAt chain mem p)) = some (BitVec.ofInt 64 p) := by
  have hsub (a : Int) (n : Nat) : BitVec.ofInt 64 (a + n) - BitVec.ofNat 64 n = BitVec.ofInt 64 a := by
    rw [BitVec.ofInt_add, BitVec.ofInt_natCast, BitVec.add_sub_cancel]
  have hlo := h.lo hp
  have heven := h.even hp
  unfold Uspike.scrollBack
  rcases stride_cases (insnAt chain mem p) with h2 | h4
  · have hstride : p + strideAt chain mem p = p + (2 : Nat) := congrArg (p + ·) h2
    have hback : BitVec.ofInt 64 (p + (2 : Nat)) - 2 = BitVec.ofInt 64 p := hsub p 2
    rw [hstride, hback, h.at_start hp, Option.map_some, if_pos (h.ne_zero hp hzero)]
    exact congrArg some hback
  · have hstride : p + strideAt chain mem p = p + (4 : Nat) := congrArg (p + ·) h4
    rw [hstride] at hq ⊢
    have hback : BitVec.ofInt 64 (p + (4 : Nat)) - 4 = BitVec.ofInt 64 p := hsub p 4
    have hmid : BitVec.ofInt 64 (p + (4 : Nat)) - 2 = BitVec.ofInt 64 (p + 2) := by
      rw [show p + (4 : Nat) = p + 2 + (2 : Nat) by omega]
      exact hsub (p + 2) 2
    -- the slot between the two is nobody's
    have hlim := h.lt_limit hq
    obtain ⟨hslot, -⟩ := List.getElem?_eq_some_iff.mp (h.start _ hq)
    have hbetween : code.slotOf (p + 2) < code.predecoded.length := by
      unfold InsnSpace.slotOf at hslot ⊢
      omega
    have hzeroSlot := h.opcode_rest (List.getElem?_eq_getElem hbetween) fun q hstart heq => by
      have hpq := InsnSpace.slotOf_inj (h.lo hstart) (h.even hstart) (by omega) (by omega) heq
      have hgap := hp.gap (strideAt_pos chain mem) hstart.1 (by omega)
      omega
    have hat : code.at (BitVec.ofInt 64 (p + 2)) = some code.predecoded[code.slotOf (p + 2)] := by
      rw [InsnSpace.at_ofInt (by omega) (InsnSpace.lt_of_lt_limit (by omega)), if_pos (by omega)]
      exact List.getElem?_eq_getElem hbetween
    rw [hmid, hat, Option.map_some, if_neg (not_not.mpr hzeroSlot), hback]

/-- **The predecoded text.** After `loadelf` every start holds what was decoded, or the
compare-and-swap of its sequence, and no load-reserved; every other slot holds ZERO; and erised's
step back from any start but the first lands on the start before it. -/
theorem loadelf_text {tail : List Entry} (htail : FullSize tail) {mem : Mem} {base limit entry : Long}
    {code : InsnSpace} (h : loadelf (rvcChain ++ tail) mem base limit entry = .text code) :
    (∀ q, Start (rvcChain ++ tail) mem base limit q →
      code.at (BitVec.ofInt 64 q) = some (finalAt (rvcChain ++ tail) mem limit.toInt q) ∧
      ¬(finalAt (rvcChain ++ tail) mem limit.toInt q).isLr) ∧
    (∀ k i, code.predecoded[k]? = some i →
      (∀ q, Start (rvcChain ++ tail) mem base limit q → code.slotOf q ≠ k) → i.opcode = .ZERO) ∧
    ∀ q, Start (rvcChain ++ tail) mem base limit q → q ≠ base.toInt →
      ∃ p, Start (rvcChain ++ tail) mem base limit p ∧ p + strideAt (rvcChain ++ tail) mem p = q ∧
        scrollBack code (BitVec.ofInt 64 q) = some (BitVec.ofInt 64 p) := by
  have ht := loadelf_textOf h
  refine ⟨fun q hq => ⟨ht.at_start hq, ht.not_isLr hq⟩, fun k i hi hk => ht.opcode_rest hi hk, ?_⟩
  intro q hq hne
  obtain ⟨p, hp, rfl⟩ := hq.1.prev.resolve_left hne
  exact ⟨p, hp, rfl, ht.scrollBack (decoder_ne_zero htail) hp hq⟩

theorem loadelf_lrscMem :
    loadelf listedChain lrscMem 0x1000 0x100c 0x1000 = .text (lrscText.set 0x1000 lrscCas) := by
  rw [loadelf_text_iff]
  refine ⟨by decide, lrscText, ?_, substitute_cas_lrscText⟩
  show predecode listedChain lrscMem 0x100c 0x1000 _ = _
  rw [predecode, if_pos (by decide)]
  show predecode listedChain lrscMem 0x100c 0x1004 _ = _
  rw [predecode, if_pos (by decide)]
  show predecode listedChain lrscMem 0x100c 0x1008 _ = _
  rw [predecode, if_pos (by decide)]
  show predecode listedChain lrscMem 0x100c 0x100c _ = _
  rw [predecode, if_neg (by decide)]
  rfl

/-- The load-reserved is gone, and the step back from the branch finds what replaced it. -/
theorem loadelf_text_lrsc :
    ¬(finalAt listedChain lrscMem 0x100c 0x1000).isLr ∧
    ∃ p, Start listedChain lrscMem 0x1000 0x100c p ∧
      p + strideAt listedChain lrscMem p = 0x1004 ∧
      scrollBack (lrscText.set 0x1000 lrscCas) 0x1004 = some (BitVec.ofInt 64 p) := by
  obtain ⟨hstart, -, hback⟩ := loadelf_text fullSize_listedTail loadelf_lrscMem
  have hfirst : Start listedChain lrscMem 0x1000 0x100c 0x1000 := visits_self (by decide)
  have hsecond : Start listedChain lrscMem 0x1000 0x100c 0x1004 := ⟨hfirst.next, by decide⟩
  exact ⟨(hstart 0x1000 hfirst).2, hback 0x1004 hsecond (by decide)⟩

/-! ## The stride -/

/-- The length of the instruction at a pc, from its two low bits. -/
def parseLen (mem : Mem) (q : Int) : Int :=
  if (mem.load (BitVec.ofInt 64 q) 4).extractLsb' 0 2 = 3 then 4 else 2

theorem fixedAt_last {n : Nat} (d : BitVec n) (b : BitVec 32) (t : Template) (h : FixedAt b (t ++ [.bits d])) :
    b.extractLsb' 0 n = d := by
  induction t with
  | nil => exact h.1
  | cons tok t ih =>
    cases tok with
    | bits ds => exact ih h.2
    | reg r => exact ih h
    | imm s first rest => exact ih h

/-- No template of RVC.bits ends in `11`. -/
theorem rvc_low (op : COp) {w : BitVec 32} (h : (rvcEntry op).test w = true) : w.extractLsb' 0 2 ≠ 3 := by
  have hlast : ∀ op, ∃ d : BitVec 2, d ≠ 3 ∧ (RVC_bits op).2 = (RVC_bits op).2.dropLast ++ [.bits d] := by
    intro op
    cases op <;> exact ⟨_, by decide, rfl⟩
  obtain ⟨d, hd, heq⟩ := hlast op
  rw [rvc_test_iff, heq] at h
  rw [fixedAt_last d w _ h]
  exact hd

theorem strideAt_eq_iff {tail : List Entry} (htail : FullSize tail) (mem : Mem) (q : Int) :
    strideAt (rvcChain ++ tail) mem q = parseLen mem q ↔
      (mem.load (BitVec.ofInt 64 q) 4).extractLsb' 0 2 = 3 ∨
        ∃ op, (rvcEntry op).test (mem.load (BitVec.ofInt 64 q) 4) = true := by
  have hcomp := decoder_compressed_iff htail (mem.load (BitVec.ofInt 64 q) 4)
  unfold strideAt Insn.stride insnAt parseLen
  by_cases hrvc : ∃ op, (rvcEntry op).test (mem.load (BitVec.ofInt 64 q) 4) = true
  · obtain ⟨op, htest⟩ := hrvc
    rw [if_pos (hcomp.mpr ⟨op, htest⟩), if_neg (rvc_low op htest)]
    exact iff_of_true rfl (Or.inr ⟨op, htest⟩)
  · rw [if_neg (fun h => hrvc (hcomp.mp h)), or_iff_left hrvc]
    by_cases hlow : (mem.load (BitVec.ofInt 64 q) 4).extractLsb' 0 2 = 3
    · rw [if_pos hlow]
      exact iff_of_true rfl hlow
    · rw [if_neg hlow]
      exact iff_of_false (by decide) hlow

/-- **The stride.** The sweep goes from instruction to instruction, and so comes to all of them,
exactly if every halfword of the parse that does not begin a full-size instruction matches a
template. -/
theorem stride_iff {tail : List Entry} (htail : FullSize tail) (mem : Mem) (base limit : Long) :
    (∀ q, Start (rvcChain ++ tail) mem base limit q → strideAt (rvcChain ++ tail) mem q = parseLen mem q) ∧
      (∀ q, Visits (parseLen mem) limit.toInt base.toInt q → Start (rvcChain ++ tail) mem base limit q) ↔
    ∀ q, Visits (parseLen mem) limit.toInt base.toInt q →
      (mem.load (BitVec.ofInt 64 q) 4).extractLsb' 0 2 = 3 ∨
        ∃ op, (rvcEntry op).test (mem.load (BitVec.ofInt 64 q) 4) = true := by
  constructor
  · rintro ⟨hright, hall⟩ q hq
    exact (strideAt_eq_iff htail mem q).mp (hright q (hall q hq))
  · intro h
    have hright (q : Int) (hq : Visits (parseLen mem) limit.toInt base.toInt q) :
        strideAt (rvcChain ++ tail) mem q = parseLen mem q := (strideAt_eq_iff htail mem q).mpr (h q hq)
    have hsame (q : Int) : Start (rvcChain ++ tail) mem base limit q ↔
        Visits (parseLen mem) limit.toInt base.toInt q := visits_congr hright
    exact ⟨fun q hq => hright q ((hsame q).mp hq), fun q hq => (hsame q).mpr hq⟩

/-- Two c.nop. -/
theorem stride_iff_nop :
    let mem := Mem.store (fun _ => 0) 0x1000 4 0x00010001#32
    ∀ q, Visits (parseLen mem) 0x1004 0x1000 q → Start listedChain mem 0x1000 0x1004 q := by
  intro mem
  refine ((stride_iff fullSize_listedTail mem 0x1000 0x1004).mpr fun q hq => Or.inr ⟨.c_addi, ?_⟩).2
  rcases (visits_iff (by decide)).mp hq with rfl | hq
  · decide
  rcases (visits_iff (by decide)).mp hq with rfl | hq
  · decide
  exact absurd hq (not_visits (by decide))

/-- The halfword 0x8000 matches no template: it is taken for four bytes, and the c.nop behind it is
skipped. -/
theorem stride_unmatched :
    let mem := Mem.store (fun _ => 0) 0x1000 4 0x00018000#32
    Start listedChain mem 0x1000 0x1004 0x1000 ∧
      strideAt listedChain mem 0x1000 = 4 ∧ parseLen mem 0x1000 = 2 ∧
      Visits (parseLen mem) 0x1004 0x1000 0x1002 ∧ ¬Start listedChain mem 0x1000 0x1004 0x1002 := by
  intro mem
  have hlen : parseLen mem 0x1000 = 2 := by decide
  have hstride : strideAt listedChain mem 0x1000 = 4 := by decide
  have hparse : Visits (parseLen mem) 0x1004 0x1000 0x1000 := visits_self (by decide)
  refine ⟨visits_self (by decide), hstride, hlen, ⟨?_, by decide⟩, ?_⟩
  · have hnext := hparse.next
    rwa [hlen] at hnext
  intro h
  rcases (visits_iff (by decide)).mp h with h | h
  · cases h
  · exact not_visits (by decide) h

end Cavatools.Uspike
