import Cavatools.Lib.Sweep
import Cavatools.Uspike.Cas

/-!
# `insnSpace_t::loadelf`

The predecoded text is made in two sweeps over `[base, limit)`: the first
decodes what stands at each pc and moves on by the length of what it has
decoded, the second is `substitute_cas`. Slots between two instructions keep
the zeros of the `memset`. The process dies in several ways on the way
(`Loaded`): a length that is negative as an `int`, a pc that `checkif` refuses
or that has no slot, and load-reserves that `substitute_cas` does not accept.

Both sweeps are instances of `Lib.Sweep`, with the stride that the decoder
gives to the bytes at a pc (`strideAt`). `Filled` is the text after a loop
that stores `f q` for every place `q` it visits; one turn of such a loop
extends it (`Filled.step`), because the places behind the current one have
other slots.

- `predecode_spec`: the first loop ends if every place it visits has a slot,
  and leaves each decoded.
- `casAt_decoded`: where the table is as the first loop has left it, the
  matcher of the second reads off the table what the decoder makes of memory
  (`matchAt`). It looks at most eight bytes ahead, and a replacement never
  changes the length of anything.
- `casSweep_spec`: the second loop ends if the matcher never looks past the
  end, and leaves at each place the compare-and-swap of a sequence or what was
  decoded (`finalAt`); the counts that it compares at the end are equal
  exactly if no load-reserved is left (`Unmatched`).

Addresses are integers here, as signed `long`s are compared, and the lemmas of
the first section take them to slots and back.
-/

namespace Cavatools.Uspike

open Riscv Lib.Sweep

/-! ## The code -/

/-- `pc += i.compressed() ? 2 : 4`. -/
def Insn.stride (i : Insn) : Int := if i.compressed then 2 else 4

namespace InsnSpace

variable (code : InsnSpace)

/-- `image`: `none` where `checkif` stops the process. -/
def image (mem : Mem) (pc : Long) : Option (BitVec 32) :=
  if code.valid pc then some (mem.load pc 4) else none

/-- `set` with its check; `none` also where the slot does not exist. -/
def put (pc : Long) (i : Insn) : Option InsnSpace :=
  if code.valid pc ∧ code.slot pc < code.predecoded.length then some (code.set pc i) else none

end InsnSpace

/-- The first loop, from `pc` on. -/
def predecode (chain : List Entry) (mem : Mem) (hi pc : Int) (code : InsnSpace) : Option InsnSpace :=
  if pc < hi then
    match code.image mem (BitVec.ofInt 64 pc) with
    | none => none
    | some b =>
      match code.put (BitVec.ofInt 64 pc) (decoder chain b) with
      | none => none
      | some code => predecode chain mem hi (pc + (decoder chain b).stride) code
  else some code
termination_by (hi - pc).toNat
decreasing_by
  unfold Insn.stride
  split <;> omega

/-- `int n = (_limit - _base) / 2`. -/
def slotCount (base limit : Long) : Int := (((limit - base).sdiv 2).setWidth 32).toInt

/-- The table after `memset`. -/
def zeroed (n : Nat) : List Insn := List.replicate n ⟨.ZERO, 0, 0, 0, 0, 0⟩

/-- The object before the first loop. -/
def emptyText (base limit entry : Long) : InsnSpace := ⟨base, limit, entry, zeroed (slotCount base limit).toNat⟩

/-- How `loadelf` ends: `new` throws for a negative length, `checkif` or an access to no slot, the
exit of `substitute_cas`, or a text. -/
inductive Loaded
  | bad_array_new_length
  | bad_access
  | exit
  | text (code : InsnSpace)

/-- `loadelf`, from what `load_elf_binary` leaves: the memory, the bounds of the text and its entry. -/
def loadelf (chain : List Entry) (mem : Mem) (base limit entry : Long) : Loaded :=
  if slotCount base limit < 0 then .bad_array_new_length
  else
    match predecode chain mem limit.toInt base.toInt (emptyText base limit entry) with
    | none => .bad_access
    | some code =>
      match casSweep limit.toInt base.toInt code 0 0 with
      | none => .bad_access
      | some (code, possible, replaced) => if replaced ≠ possible then .exit else .text code

/-! ## Addresses -/

namespace InsnSpace

variable (code : InsnSpace)

/-- The slot of a pc, as the distance from `base`. -/
def slotOf (pc : Int) : Nat := ((pc - code.base.toInt) / 2).toNat

section
variable {code} {pc : Int} (hlo : code.base.toInt ≤ pc) (hhi : pc < code.base.toInt + 2 ^ 64)
include hlo hhi

theorem valid_ofInt : code.valid (BitVec.ofInt 64 pc) = decide (pc < code.limit.toInt) := by
  have hb := BitVec.toInt_lt (x := code.base)
  have hb' := BitVec.le_toInt code.base
  have hl := BitVec.toInt_lt (x := code.limit)
  have hl' := BitVec.le_toInt code.limit
  rw [valid, BitVec.sle_eq_decide, BitVec.slt_eq_decide, BitVec.toInt_ofInt, Bool.eq_iff_iff,
    Bool.and_eq_true, decide_eq_true_eq, decide_eq_true_eq, decide_eq_true_eq, Int.bmod_def]
  norm_num at *
  split <;> omega

theorem slot_ofInt : code.slot (BitVec.ofInt 64 pc) = code.slotOf pc := by
  have hsub : BitVec.ofInt 64 pc - code.base = BitVec.ofInt 64 (pc - code.base.toInt) := by
    have hadd := BitVec.ofInt_add (n := 64) (pc - code.base.toInt) code.base.toInt
    rw [Int.sub_add_cancel, BitVec.ofInt_toInt] at hadd
    rw [hadd, BitVec.add_sub_cancel]
  unfold slot slotOf
  rw [hsub, BitVec.toNat_ofInt, Int.emod_eq_of_lt (by omega) (by norm_num; omega)]
  omega

theorem at_ofInt : code.at (BitVec.ofInt 64 pc)
    = if pc < code.limit.toInt then code.predecoded[code.slotOf pc]? else none := by
  rw [InsnSpace.at, valid_ofInt hlo hhi, slot_ofInt hlo hhi]
  simp only [decide_eq_true_eq]

end

variable {code}

/-- A pc of the text is less than the address space away from its base. -/
theorem lt_of_lt_limit {pc : Int} (h : pc < code.limit.toInt) : pc < code.base.toInt + 2 ^ 64 := by
  have hb := BitVec.le_toInt code.base
  have hl := BitVec.toInt_lt (x := code.limit)
  norm_num at *
  omega

theorem slotOf_inj {p q : Int} (hp : code.base.toInt ≤ p) (hp2 : 2 ∣ p - code.base.toInt)
    (hq : code.base.toInt ≤ q) (hq2 : 2 ∣ q - code.base.toInt) (h : code.slotOf p = code.slotOf q) : p = q := by
  unfold slotOf at h
  omega

theorem image_ofInt {pc : Int} (mem : Mem) (hlo : code.base.toInt ≤ pc) (h : pc < code.limit.toInt) :
    code.image mem (BitVec.ofInt 64 pc) = some (mem.load (BitVec.ofInt 64 pc) 4) := by
  unfold image
  rw [valid_ofInt hlo (lt_of_lt_limit h), if_pos (by simpa using h)]

theorem put_ofInt {pc : Int} (i : Insn) (hlo : code.base.toInt ≤ pc) (h : pc < code.limit.toInt) :
    code.put (BitVec.ofInt 64 pc) i = if code.slotOf pc < code.predecoded.length then
      some (code.set (BitVec.ofInt 64 pc) i) else none := by
  unfold put
  rw [valid_ofInt hlo (lt_of_lt_limit h), slot_ofInt hlo (lt_of_lt_limit h)]
  simp only [h, decide_true, true_and]

theorem set_ofInt {pc : Int} (i : Insn) (hlo : code.base.toInt ≤ pc) (h : pc < code.limit.toInt) :
    (code.set (BitVec.ofInt 64 pc) i).predecoded = code.predecoded.set (code.slotOf pc) i := by
  rw [← slot_ofInt hlo (lt_of_lt_limit h)]
  rfl

end InsnSpace

/-! ## The first loop -/

theorem stride_cases (i : Insn) : i.stride = 2 ∨ i.stride = 4 := by
  unfold Insn.stride
  split
  · exact Or.inl rfl
  · exact Or.inr rfl

section
variable (chain : List Entry) (mem : Mem)

/-- What the decoder makes of the bytes at a pc. -/
def insnAt (pc : Int) : Insn := decoder chain (mem.load (BitVec.ofInt 64 pc) 4)

/-- The stride of the sweep there. -/
def strideAt (pc : Int) : Int := (insnAt chain mem pc).stride

theorem strideAt_pos (pc : Int) : 0 < strideAt chain mem pc := by
  unfold strideAt
  rcases stride_cases (insnAt chain mem pc) with h | h <;> omega

theorem strideAt_even (pc : Int) : 2 ∣ strideAt chain mem pc := by
  unfold strideAt
  rcases stride_cases (insnAt chain mem pc) with h | h <;> omega

/-- The text after a loop from `pc` on that stores `f q` for every place `q` it visits. -/
structure Filled (f : Int → Insn) (pc : Int) (code code' : InsnSpace) : Prop where
  base : code'.base = code.base
  limit : code'.limit = code.limit
  entry : code'.entry = code.entry
  length : code'.predecoded.length = code.predecoded.length
  visited : ∀ q, Visits (strideAt chain mem) code.limit.toInt pc q →
    code'.predecoded[code.slotOf q]? = some (f q)
  rest : ∀ k, (∀ q, Visits (strideAt chain mem) code.limit.toInt pc q → code.slotOf q ≠ k) →
    code'.predecoded[k]? = code.predecoded[k]?

variable {chain mem}

/-- The places after `pc` have other slots. -/
theorem slotOf_ne {pc q : Int} {code : InsnSpace} (hlo : code.base.toInt ≤ pc) (h2 : 2 ∣ pc - code.base.toInt)
    (hq : Visits (strideAt chain mem) code.limit.toInt (pc + strideAt chain mem pc) q) :
    code.slotOf q ≠ code.slotOf pc := by
  intro heq
  have hle := hq.1.le (strideAt_pos chain mem)
  have heven := hq.1.dvd (strideAt_even chain mem)
  have hpos := strideAt_pos chain mem pc
  have heven' := strideAt_even chain mem pc
  have := InsnSpace.slotOf_inj (by omega) (by omega) hlo h2 heq
  omega

theorem filled_refl {f : Int → Insn} {pc : Int} {code : InsnSpace} (h : ¬ pc < code.limit.toInt) :
    Filled chain mem f pc code code :=
  ⟨rfl, rfl, rfl, rfl, fun _ hq => absurd hq (not_visits h), fun _ _ => rfl⟩

/-- One turn of such a loop. -/
theorem Filled.step {f : Int → Insn} {pc : Int} {code code' : InsnSpace} (hlo : code.base.toInt ≤ pc)
    (h2 : 2 ∣ pc - code.base.toInt) (hlt : pc < code.limit.toInt)
    (hslot : code.slotOf pc < code.predecoded.length)
    (h : Filled chain mem f (pc + strideAt chain mem pc) (code.set (BitVec.ofInt 64 pc) (f pc)) code') :
    Filled chain mem f pc code code' where
  base := h.base
  limit := h.limit
  entry := h.entry
  length := by
    rw [h.length, InsnSpace.set_ofInt _ hlo hlt, List.length_set]
  visited := by
    intro q hq
    rcases (visits_iff hlt).mp hq with rfl | hq
    · rw [h.rest (code.slotOf q) fun p hp => slotOf_ne hlo h2 hp, InsnSpace.set_ofInt _ hlo hlt,
        List.getElem?_set_self hslot]
    · exact h.visited q hq
  rest := by
    intro k hk
    have hne : code.slotOf pc ≠ k := hk pc (visits_self hlt)
    rw [h.rest k fun q hq => hk q ((visits_iff hlt).mpr (Or.inr hq)), InsnSpace.set_ofInt _ hlo hlt,
      List.getElem?_set_ne hne]

/-- One turn of the first loop, where it is not at the end. -/
theorem predecode_step {pc : Int} {code : InsnSpace} (hlo : code.base.toInt ≤ pc)
    (hlt : pc < code.limit.toInt) :
    predecode chain mem code.limit.toInt pc code = if code.slotOf pc < code.predecoded.length then
      predecode chain mem code.limit.toInt (pc + strideAt chain mem pc)
        (code.set (BitVec.ofInt 64 pc) (insnAt chain mem pc))
    else none := by
  rw [predecode, if_pos hlt, InsnSpace.image_ofInt mem hlo hlt]
  dsimp only
  rw [InsnSpace.put_ofInt _ hlo hlt]
  by_cases hslot : code.slotOf pc < code.predecoded.length
  · rw [if_pos hslot, if_pos hslot]
    rfl
  · rw [if_neg hslot, if_neg hslot]

/-- **The first loop** ends if every place it visits has a slot, and leaves each decoded. -/
theorem predecode_spec {pc : Int} {code : InsnSpace} (hlo : code.base.toInt ≤ pc)
    (h2 : 2 ∣ pc - code.base.toInt) :
    (∀ code', predecode chain mem code.limit.toInt pc code = some code' →
      Filled chain mem (insnAt chain mem) pc code code') ∧
    ((predecode chain mem code.limit.toInt pc code).isSome ↔
      ∀ q, Visits (strideAt chain mem) code.limit.toInt pc q → code.slotOf q < code.predecoded.length) := by
  induction hn : (code.limit.toInt - pc).toNat using Nat.strong_induction_on generalizing pc code with
  | _ n ih =>
    by_cases hlt : pc < code.limit.toInt
    · have hpos := strideAt_pos chain mem pc
      have heven := strideAt_even chain mem pc
      have hlo' : (code.set (BitVec.ofInt 64 pc) (insnAt chain mem pc)).base.toInt
          ≤ pc + strideAt chain mem pc := by
        show code.base.toInt ≤ _
        omega
      have h2' : 2 ∣ pc + strideAt chain mem pc
          - (code.set (BitVec.ofInt 64 pc) (insnAt chain mem pc)).base.toInt := by
        show 2 ∣ _ - code.base.toInt
        omega
      obtain ⟨ihspec, ihsome⟩ := ih (code.limit.toInt - (pc + strideAt chain mem pc)).toNat (by omega)
        hlo' h2' rfl
      rw [predecode_step hlo hlt]
      by_cases hslot : code.slotOf pc < code.predecoded.length
      · rw [if_pos hslot]
        refine ⟨fun code' h => (ihspec code' h).step hlo h2 hlt hslot, ihsome.trans ?_⟩
        rw [InsnSpace.set_ofInt _ hlo hlt, List.length_set]
        constructor
        · intro h q hq
          rcases (visits_iff hlt).mp hq with rfl | hq
          · exact hslot
          · exact h q hq
        · intro h q hq
          exact h q ((visits_iff hlt).mpr (Or.inr hq))
      · rw [if_neg hslot]
        refine ⟨fun code' h => (by cases h), iff_of_false (by simp) ?_⟩
        intro h
        exact hslot (h pc (visits_self hlt))
    · rw [predecode, if_neg hlt]
      refine ⟨?_, iff_of_true rfl fun q hq => absurd hq (not_visits hlt)⟩
      rintro code' ⟨⟩
      exact filled_refl hlt

/-! ## The second loop -/

instance (i : Insn) : Decidable i.isLr := inferInstanceAs (Decidable (_ ∨ _))

/-- The matcher of `substitute_cas`, on what stands in memory: the outer `none` is a look past
the end of the text. -/
def matchAt (chain : List Entry) (mem : Mem) (hi pc : Int) : Option (Option Insn) :=
  let i := insnAt chain mem pc
  if ¬i.isLr then some none
  else if ¬pc + 4 < hi then none
  else
    let i2 := insnAt chain mem (pc + 4)
    if i2.opcode ≠ .fast .bne ∧ i2.opcode ≠ .c .c_bnez then some none
    else if ¬pc + 4 + branchLen i2 < hi then none
    else
      let i3 := insnAt chain mem (pc + 4 + branchLen i2)
      if i3.opcode ≠ .spike .sc_w ∧ i3.opcode ≠ .spike .sc_d then some none
      else some (casInsn i i2 i3)

/-- What the matcher replaces is a load-reserved. -/
theorem matchAt_spec {chain : List Entry} {mem : Mem} {hi pc : Int} {c : Insn}
    (h : matchAt chain mem hi pc = some (some c)) :
    (insnAt chain mem pc).isLr ∧ ∃ i2 i3, casInsn (insnAt chain mem pc) i2 i3 = some c := by
  unfold matchAt at h
  dsimp only at h
  split at h
  · cases h
  rename_i hlr
  split at h
  · cases h
  split at h
  · cases h
  split at h
  · cases h
  split at h
  · cases h
  exact ⟨not_not.mp hlr, _, _, Option.some.inj h⟩

/-- What a place holds in the end: the compare-and-swap of a sequence, or what was decoded. -/
def finalAt (chain : List Entry) (mem : Mem) (hi pc : Int) : Insn :=
  (matchAt chain mem hi pc).join.getD (insnAt chain mem pc)

/-- The text from `pc` on is as the first loop left it. -/
def DecodedFrom (chain : List Entry) (mem : Mem) (pc : Int) (code : InsnSpace) : Prop :=
  ∀ q, Visits (strideAt chain mem) code.limit.toInt pc q →
    code.predecoded[code.slotOf q]? = some (insnAt chain mem q)

theorem stride_of_isLr {i : Insn} (h : i.isLr) : i.stride = 4 := by
  unfold Insn.stride Insn.compressed
  rcases h with h | h <;> rw [show i.op_code = _ from h] <;> rfl

theorem stride_of_isCas {i : Insn} (h : i.isCas) : i.stride = 4 := by
  unfold Insn.stride Insn.compressed
  rcases h with h | h | h | h <;> rw [show i.op_code = _ from h] <;> rfl

theorem stride_of_branch {i : Insn} (h : i.opcode = .fast .bne ∨ i.opcode = .c .c_bnez) :
    i.stride = branchLen i := by
  unfold Insn.stride Insn.compressed branchLen
  rcases h with h | h <;> rw [h, show i.op_code = _ from h] <;> rfl

section
variable {pc : Int} {code : InsnSpace} (hlo : code.base.toInt ≤ pc) (hlt : pc < code.limit.toInt)
  (hlen : code.predecoded.length < 2 ^ 62) (hd : DecodedFrom chain mem pc code)
include hlo hlt hlen hd

/-- The table at the next places, which hold what was decoded. -/
theorem at_boundary {q : Int} (hq : Boundary (strideAt chain mem) code.limit.toInt pc q) (hnear : q ≤ pc + 8) :
    code.at (BitVec.ofInt 64 q) = if q < code.limit.toInt then some (insnAt chain mem q) else none := by
  have hle := hq.le (strideAt_pos chain mem)
  have hself := hd pc (visits_self hlt)
  obtain ⟨hslot, -⟩ := List.getElem?_eq_some_iff.mp hself
  have hclose : q < code.base.toInt + 2 ^ 64 := by
    unfold InsnSpace.slotOf at hslot
    norm_num at *
    omega
  rw [InsnSpace.at_ofInt (by omega) hclose]
  by_cases hlim : q < code.limit.toInt
  · rw [if_pos hlim, if_pos hlim, hd q ⟨hq, hlim⟩]
  · rw [if_neg hlim, if_neg hlim]

/-- The matcher reads the table where it was decoded. -/
theorem casAt_decoded : casAt code (BitVec.ofInt 64 pc) = matchAt chain mem code.limit.toInt pc := by
  have hself := at_boundary hlo hlt hlen hd .refl (by omega)
  rw [if_pos hlt] at hself
  unfold casAt matchAt
  rw [hself]
  dsimp only
  by_cases hlr : (insnAt chain mem pc).isLr
  swap
  · rw [if_pos hlr]
    exact if_pos hlr
  rw [if_neg (not_not.mpr hlr)]
  refine (if_neg (not_not.mpr hlr)).trans ?_
  have hb2 : Boundary (strideAt chain mem) code.limit.toInt pc (pc + 4) := by
    have hself : Visits (strideAt chain mem) code.limit.toInt pc pc := visits_self hlt
    have hnext := hself.next
    rwa [strideAt, stride_of_isLr hlr] at hnext
  have hadd (n : Nat) : BitVec.ofInt 64 pc + BitVec.ofNat 64 n = BitVec.ofInt 64 (pc + n) := by
    rw [BitVec.ofInt_add, BitVec.ofInt_natCast]
  have hat2 : code.at (BitVec.ofInt 64 pc + 4)
      = if pc + 4 < code.limit.toInt then some (insnAt chain mem (pc + 4)) else none :=
    (congrArg code.at (hadd 4)).trans (at_boundary hlo hlt hlen hd hb2 (by omega))
  rw [hat2]
  by_cases hlim : pc + 4 < code.limit.toInt
  swap
  · rw [if_neg hlim, if_pos hlim]
  rw [if_pos hlim, if_neg (not_not.mpr hlim)]
  dsimp only
  by_cases hbr : (insnAt chain mem (pc + 4)).opcode ≠ .fast .bne ∧
      (insnAt chain mem (pc + 4)).opcode ≠ .c .c_bnez
  · rw [if_pos hbr, if_pos hbr]
  rw [if_neg hbr, if_neg hbr]
  have hlen2 := stride_of_branch ((not_and_or.mp hbr).imp not_not.mp not_not.mp)
  have hb3 : Boundary (strideAt chain mem) code.limit.toInt pc
      (pc + 4 + branchLen (insnAt chain mem (pc + 4))) := by
    rw [← hlen2]
    exact Visits.next ⟨hb2, hlim⟩
  have hat3 := at_boundary hlo hlt hlen hd hb3
    (by rcases stride_cases (insnAt chain mem (pc + 4)) with h | h <;> omega)
  have hsum : pc + 4 + branchLen (insnAt chain mem (pc + 4))
      = pc + ((4 + branchLen (insnAt chain mem (pc + 4)) : Nat) : Int) := by
    rw [Nat.cast_add, ← add_assoc]
    rfl
  rw [hsum, ← hadd, ← hsum] at hat3
  rw [hat3]
  by_cases hlim3 : pc + 4 + branchLen (insnAt chain mem (pc + 4)) < code.limit.toInt
  swap
  · rw [if_neg hlim3, if_pos hlim3]
  rw [if_pos hlim3, if_neg (not_not.mpr hlim3)]

/-- One turn of the second loop: the place gets what it holds in the end. -/
theorem casSweep_step (possible replaced : Nat) : casSweep code.limit.toInt pc code possible replaced
    = match matchAt chain mem code.limit.toInt pc with
      | none => none
      | some m => casSweep code.limit.toInt (pc + strideAt chain mem pc)
          (code.set (BitVec.ofInt 64 pc) (finalAt chain mem code.limit.toInt pc))
          (if (insnAt chain mem pc).isLr then possible + 1 else possible)
          (if m.isSome then replaced + 1 else replaced) := by
  have hself := at_boundary hlo hlt hlen hd .refl (by omega)
  rw [if_pos hlt] at hself
  rw [casSweep, if_pos hlt, hself, casAt_decoded hlo hlt hlen hd]
  unfold finalAt
  cases hm : matchAt chain mem code.limit.toInt pc with
  | none => rfl
  | some m =>
    cases m with
    | none =>
      -- nothing is stored, which is what was there
      have hsame : code.set (BitVec.ofInt 64 pc) (insnAt chain mem pc) = code := by
        obtain ⟨hk, hki⟩ := List.getElem?_eq_some_iff.mp (hd pc (visits_self hlt))
        unfold InsnSpace.set
        rw [InsnSpace.slot_ofInt hlo (InsnSpace.lt_of_lt_limit hlt), ← hki, List.set_getElem_self]
      show _ = casSweep _ _ (code.set _ (insnAt chain mem pc)) _ replaced
      rw [hsame]
      rfl
    | some c =>
      obtain ⟨hlr, i2, i3, hcas⟩ := matchAt_spec hm
      have hstride : c.stride = strideAt chain mem pc := by
        rw [stride_of_isCas (casInsn_isCas hcas), strideAt, stride_of_isLr hlr]
      show casSweep _ (pc + c.stride) (code.set _ c) _ (replaced + 1)
        = casSweep _ _ (code.set _ c) _ (replaced + 1)
      rw [hstride]
      rfl

end

/-- The load-reserves that the sweep from `pc` on leaves. -/
def Unmatched (chain : List Entry) (mem : Mem) (hi pc : Int) : Prop :=
  ∃ q, Visits (strideAt chain mem) hi pc q ∧ (insnAt chain mem q).isLr ∧ (matchAt chain mem hi q).join = none

theorem DecodedFrom.step {pc : Int} {code : InsnSpace} (hlo : code.base.toInt ≤ pc)
    (h2 : 2 ∣ pc - code.base.toInt) (hlt : pc < code.limit.toInt) (h : DecodedFrom chain mem pc code)
    (i : Insn) :
    DecodedFrom chain mem (pc + strideAt chain mem pc) (code.set (BitVec.ofInt 64 pc) i) := by
  intro q hq
  rw [InsnSpace.set_ofInt _ hlo hlt]
  show (code.predecoded.set _ i)[code.slotOf q]? = _
  rw [List.getElem?_set_ne (slotOf_ne hlo h2 hq).symm]
  exact h q ((visits_iff hlt).mpr (Or.inr hq))

theorem unmatched_iff {hi pc : Int} (hlt : pc < hi) : Unmatched chain mem hi pc ↔
    ((insnAt chain mem pc).isLr ∧ (matchAt chain mem hi pc).join = none) ∨
      Unmatched chain mem hi (pc + strideAt chain mem pc) := by
  constructor
  · rintro ⟨q, hq, hlr, hnone⟩
    rcases (visits_iff hlt).mp hq with rfl | hq
    · exact Or.inl ⟨hlr, hnone⟩
    · exact Or.inr ⟨q, hq, hlr, hnone⟩
  · rintro (⟨hlr, hnone⟩ | ⟨q, hq, hlr, hnone⟩)
    · exact ⟨pc, visits_self hlt, hlr, hnone⟩
    · exact ⟨q, (visits_iff hlt).mpr (Or.inr hq), hlr, hnone⟩

section
variable {hi pc : Int} {m : Option Insn} (hm : matchAt chain mem hi pc = some m) {possible replaced : Nat}
  (hle : replaced ≤ possible)
include hm hle

/-- A turn that replaces has found a load-reserved. -/
theorem count_le : (if m.isSome then replaced + 1 else replaced)
    ≤ if (insnAt chain mem pc).isLr then possible + 1 else possible := by
  cases m with
  | none =>
    simp only [Option.isSome_none, Bool.false_eq_true, if_false]
    split <;> omega
  | some c =>
    rw [if_pos Option.isSome_some, if_pos (matchAt_spec hm).1]
    omega

/-- The two counts of the sweep stay equal over a place that is no load-reserved, or is replaced. -/
theorem count_eq : (if m.isSome then replaced + 1 else replaced)
      = (if (insnAt chain mem pc).isLr then possible + 1 else possible) ↔
    replaced = possible ∧ ¬ ((insnAt chain mem pc).isLr ∧ m = none) := by
  cases m with
  | none =>
    by_cases hlr : (insnAt chain mem pc).isLr
    · simp [hlr]
      omega
    · simp [hlr]
  | some c =>
    rw [if_pos Option.isSome_some, if_pos (matchAt_spec hm).1]
    simp

end

/-- **The second loop** ends if the matcher never looks past the end, and leaves at each place it
visits the compare-and-swap of a sequence or what was there. The two counts agree if no
load-reserved is left. -/
theorem casSweep_spec {pc : Int} {code : InsnSpace} (hlo : code.base.toInt ≤ pc)
    (h2 : 2 ∣ pc - code.base.toInt) (hlen : code.predecoded.length < 2 ^ 62)
    (hd : DecodedFrom chain mem pc code) {possible replaced : Nat} (hle : replaced ≤ possible) :
    (∀ code' possible' replaced', casSweep code.limit.toInt pc code possible replaced
        = some (code', possible', replaced') →
      Filled chain mem (finalAt chain mem code.limit.toInt) pc code code' ∧ replaced' ≤ possible' ∧
      (replaced' = possible' ↔ replaced = possible ∧ ¬ Unmatched chain mem code.limit.toInt pc)) ∧
    ((casSweep code.limit.toInt pc code possible replaced).isSome ↔
      ∀ q, Visits (strideAt chain mem) code.limit.toInt pc q →
        (matchAt chain mem code.limit.toInt q).isSome) := by
  induction hn : (code.limit.toInt - pc).toNat using Nat.strong_induction_on
    generalizing pc code possible replaced with
  | _ n ih =>
    by_cases hlt : pc < code.limit.toInt
    · have hpos := strideAt_pos chain mem pc
      have heven := strideAt_even chain mem pc
      rw [casSweep_step hlo hlt hlen hd]
      cases hm : matchAt chain mem code.limit.toInt pc with
      | none =>
        refine ⟨fun code' p' r' h => (by cases h), iff_of_false (by simp) ?_⟩
        intro h
        have := h pc (visits_self hlt)
        rw [hm] at this
        cases this
      | some m =>
        have hlo' : (code.set (BitVec.ofInt 64 pc) (finalAt chain mem code.limit.toInt pc)).base.toInt
            ≤ pc + strideAt chain mem pc := by
          show code.base.toInt ≤ _
          omega
        have h2' : 2 ∣ pc + strideAt chain mem pc
            - (code.set (BitVec.ofInt 64 pc) (finalAt chain mem code.limit.toInt pc)).base.toInt := by
          show 2 ∣ _ - code.base.toInt
          omega
        have hlen' : (code.set (BitVec.ofInt 64 pc) (finalAt chain mem code.limit.toInt pc)).predecoded.length
            < 2 ^ 62 := by
          rw [InsnSpace.set_ofInt _ hlo hlt, List.length_set]
          exact hlen
        obtain ⟨ihspec, ihsome⟩ := ih (code.limit.toInt - (pc + strideAt chain mem pc)).toNat (by omega)
          hlo' h2' hlen' (hd.step hlo h2 hlt _) (count_le hm hle) rfl
        obtain ⟨hslot, -⟩ := List.getElem?_eq_some_iff.mp (hd pc (visits_self hlt))
        refine ⟨?_, ihsome.trans ?_⟩
        · intro code' p' r' h
          obtain ⟨hfill, hle', hiff⟩ := ihspec code' p' r' h
          refine ⟨hfill.step hlo h2 hlt hslot, hle', hiff.trans ?_⟩
          rw [count_eq hm hle, and_assoc, and_congr_right_iff]
          intro _
          rw [unmatched_iff hlt, hm, not_or]
          refine and_congr_left fun _ => ?_
          cases m <;> simp
        · constructor
          · intro h q hq
            rcases (visits_iff hlt).mp hq with rfl | hq
            · rw [hm]
              rfl
            · exact h q hq
          · intro h q hq
            exact h q ((visits_iff hlt).mpr (Or.inr hq))
    · rw [casSweep, if_neg hlt]
      refine ⟨?_, iff_of_true rfl fun q hq => absurd hq (not_visits hlt)⟩
      rintro code' p' r' ⟨⟩
      refine ⟨filled_refl hlt, hle, ?_⟩
      rw [and_iff_left]
      rintro ⟨q, hq, -⟩
      exact not_visits hlt hq

end

end Cavatools.Uspike
